import StackLang.Proofs.Definition.Finished

/-!
# Building in any order

A definition may be built by any operations in any order, and those that are refused leave it in a
state that can be built on.  Whatever has been done, closing it is refused, or hands over finished
code.

* `Operation`, `behindAll`: what can be done to a definition, and the definition behind it.
* `sound_behindAll`: the definition is sound at any time.
* `finish_behindAll`: no branch is astray when it is closed.
-/

namespace StackLang.Definition

/-- What can be done to a definition that is being built. -/
inductive Operation where
  | control (l : Option Location) (w : ControlWord)
  /-- The index of any loop around the place, with the word to complain of. -/
  | loopIndex (l : Option Location) (word : String) (depth : Nat)
  /-- Append an operation that is not a branch. -/
  | emit (l : Option Location) (op : Op) (h : op.target? = none)
  | record (token : String)
  | finish

namespace Operation

def edit : Operation → Edit Unit
  | control l w => w.compileStep l
  | loopIndex l word depth => compileLoopIndex l word depth
  | emit l op _ => discard (Definition.emit l op)
  | record token => modify (·.record token)
  | finish => discard Definition.finish

/-- The definition behind an operation, whether it was accepted or not. -/
def behind (o : Operation) (d : Definition) : Definition :=
  match o.edit d with
  | .ok _ d' => d'
  | .error _ d' => d'

/-- The definition behind some operations. -/
def behindAll : List Operation → Definition → Definition
  | [], d => d
  | o :: os, d => behindAll os (o.behind d)

theorem sound_edit {d : Definition} (h : d.Sound) (o : Operation) : After Sound (o.edit d) := by
  cases o with
  | control l w => exact sound_compileStep h l w
  | loopIndex l word depth => exact sound_compileLoopIndex h l word depth
  | emit l op hop => exact h.push l fun t ht => by rw [hop] at ht; cases ht
  | record token => exact h.record token
  | finish =>
    rw [edit, discard_apply]
    rcases finish_sound h with ⟨c, hf⟩ | ⟨code, -, hs, hf⟩
    · rw [hf]
      exact h
    · rw [hf]
      exact hs

theorem sound_behind {d : Definition} (h : d.Sound) (o : Operation) : (o.behind d).Sound := by
  have hs := sound_edit h o
  unfold behind
  cases hr : o.edit d with
  | ok a d' =>
    rw [hr] at hs
    exact hs
  | error c d' =>
    rw [hr] at hs
    exact hs

/-- A definition is sound at any time. -/
theorem sound_behindAll (os : List Operation) {d : Definition} (h : d.Sound) :
    (behindAll os d).Sound := by
  induction os generalizing d with
  | nil => exact h
  | cons o os ih => exact ih (sound_behind h o)

/-- A definition is never closed with a stray branch. -/
theorem finish_behindAll (os : List Operation) (word : Nat) (name : String)
    (location : Location) :
    let d := behindAll os (opened word name location)
    (∃ c, Definition.finish d = .error c d) ∨
      ∃ code, code.Finished ∧ Definition.finish d = .ok (.ok code) { d with code := #[] } := by
  have hs := sound_behindAll os (sound_opened word name location)
  rcases finish_sound hs with hf | ⟨code, hc, -, hf⟩
  · exact .inl hf
  · exact .inr ⟨code, hc, hf⟩

end Operation

end StackLang.Definition
