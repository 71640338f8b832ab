import StackLang.Proofs.Definition.Finished
import StackLang.Proofs.Framework.Triple

/-!
# Consistent sessions

What holds of a session between any two operations.  Visible words have finished code, and a word
without code is hidden; a definition can be closed at any time without a stray branch; and the
running word has a marker on the return stack, with the frame that it goes back to.

* `Entry.Sound`, `Linked`, `Session.Consistent`: the invariant.
* `triple_builtin`: every built-in word keeps it.
-/

namespace StackLang

/-- A visible entry runs finished code, a hidden one has none yet; and no built-in word is immediate
that is not meant to be. -/
structure Entry.Sound (e : Entry) : Prop where
  visible : ∀ code, e.visible = true → e.body = .compiled code → code.Finished
  hidden : e.visible = false → e.body = .compiled #[]
  role : ∀ w, e.body = .builtin w → e.immediate = true → w.spec.role ≠ .plain

/-- All entries of the dictionary are sound. -/
def Dictionary.Sound (d : Dictionary) : Prop :=
  ∀ i e, d.get? i = some e → e.Sound

/-- A frame that can go on: its code is finished, and its next instruction exists. -/
structure CallFrame.Ready (f : CallFrame) : Prop where
  finished : f.code.Finished
  next_lt : f.next < Array.size f.code

/-- The frame of a word that had no code when it was called. -/
def CallFrame.Blank (f : CallFrame) : Prop :=
  f.code = #[] ∧ f.next = 0

/-- There is a marker for every word that is running.  Each holds the frame to go back to, which is
ready, and the lowest of them holds none. -/
def Linked : Option CallFrame → List ReturnItem → Prop
  | none, [] => True
  | some _, [] => False
  | frame, .value _ :: rest | frame, .loop _ :: rest => Linked frame rest
  | none, .call _ :: _ => False
  | some _, .call caller :: rest => (∀ f, caller = some f → f.Ready) ∧ Linked caller rest

@[simp] theorem linked_value (frame : Option CallFrame) (v : Value) (rest : List ReturnItem) :
    Linked frame (.value v :: rest) = Linked frame rest := by
  cases frame <;> rfl

@[simp] theorem linked_loop (frame : Option CallFrame) (x : LoopFrame) (rest : List ReturnItem) :
    Linked frame (.loop x :: rest) = Linked frame rest := by
  cases frame <;> rfl

/-- Which frame it is that runs does not matter to those below it. -/
theorem linked_congr {f g : CallFrame} {items : List ReturnItem} :
    Linked (some f) items = Linked (some g) items := by
  induction items with
  | nil => rfl
  | cons item rest ih => cases item <;> simp_all [Linked]

structure Session.Consistent (s : Session) : Prop where
  entries : s.dictionary.Sound
  /-- The definition that is being built can be closed. -/
  definition : ∀ d, s.definition? = some d → d.Sound
  /-- Its entry is that of no built-in word. -/
  reserved : ∀ d e, s.definition? = some d → s.dictionary.get? d.word = some e →
    e.isBuiltin = false
  /-- Only the first source has a definition. -/
  queued : ∀ p ∈ s.sources.tail, p.definition = none
  linked : Linked s.frame s.returns.items

/-- A consistent session of whose running word `φ` holds. -/
structure Session.Valid (φ : Option CallFrame → Prop) (s : Session) : Prop
    extends s.Consistent where
  running : φ s.frame

/-- If a word runs, it can go on. -/
def Able (frame : Option CallFrame) : Prop :=
  ∀ f, frame = some f → f.Ready

/-- If a word runs, it can go on, or it was called before it had any code. -/
def AbleOrBlank (frame : Option CallFrame) : Prop :=
  ∀ f, frame = some f → f.Ready ∨ f.Blank

theorem Able.orBlank {frame : Option CallFrame} (h : Able frame) : AbleOrBlank frame :=
  fun f hf => .inl (h f hf)

/-! ## The return stack -/

namespace ReturnStack

theorem items_of_push? {r r' : ReturnStack} {item : ReturnItem} (h : r.push? item = some r') :
    r'.items = item :: r.items := by
  unfold push? at h
  split at h
  · cases h
  · cases h
    rfl

theorem items_of_popValue? {r r' : ReturnStack} {v : Value} (h : r.popValue? = some (v, r')) :
    r.items = .value v :: r'.items := by
  unfold popValue? at h
  split at h
  · rename_i hi
    cases h
    exact hi
  · cases h

theorem linked_takeLoop? {frame : Option CallFrame} {items rest : List ReturnItem} {x : LoopFrame}
    (h : takeLoop? items = some (x, rest)) : Linked frame rest = Linked frame items := by
  fun_induction takeLoop? items generalizing rest with
  | case1 y rest' => cases h; simp
  | case2 v items ih =>
    obtain ⟨⟨y, rest'⟩, hr, he⟩ := Option.map_eq_some_iff.1 h
    cases he
    simpa using ih hr
  | case3 => cases h
  | case4 => cases h

theorem linked_popLoop? {frame : Option CallFrame} {r r' : ReturnStack} {x : LoopFrame}
    (h : r.popLoop? = some (x, r')) : Linked frame r'.items = Linked frame r.items := by
  unfold popLoop? at h
  split at h
  · rename_i ht
    cases h
    exact linked_takeLoop? ht
  · cases h

theorem linked_setLoop (frame : Option CallFrame) (x : LoopFrame) (items : List ReturnItem) :
    Linked frame (setLoop x items) = Linked frame items := by
  fun_induction setLoop x items <;> simp_all

/-- Leaving the running word finds its marker, and the frame to go back to. -/
theorem linked_exitCall {f : CallFrame} {r : ReturnStack} (h : Linked (some f) r.items) :
    ∃ caller, r.exitCall.1 = some caller ∧ (∀ g, caller = some g → g.Ready) ∧
      Linked caller r.exitCall.2.items := by
  have main (items : List ReturnItem) (depth : Nat) (h : Linked (some f) items) :
      ∃ caller, (unwind items depth).1 = some caller ∧ (∀ g, caller = some g → g.Ready) ∧
        Linked caller (unwind items depth).2.1 := by
    induction items generalizing depth with
    | nil => exact h.elim
    | cons item rest ih =>
      cases item with
      | value v => exact ih (depth - 1) (by simpa using h)
      | loop x => exact ih (depth - 1) (by simpa using h)
      | call caller => exact ⟨caller, rfl, h.1, h.2⟩
  exact main r.items r.depth h

end ReturnStack

/-! ## The dictionary -/

namespace Dictionary

theorem get?_insert {d : Dictionary} {e : Entry} {i : Nat} {x : Entry}
    (h : (d.insert e).2.get? i = some x) :
    d.get? i = some x ∨ x = { e with name := Text.uppercase e.name, mark := d.size } := by
  simp only [get?, insert, Array.getElem?_push] at h
  split at h
  · exact .inr (Option.some.inj h).symm
  · exact .inl h

theorem get?_modify {d : Dictionary} {f : Entry → Entry} {index i : Nat} {x : Entry}
    (h : (d.modify index f).get? i = some x) :
    d.get? i = some x ∨ ∃ e, index = i ∧ d.get? i = some e ∧ x = f e := by
  simp only [get?, modify, Array.getElem?_modify] at h
  split at h
  · rename_i hi
    obtain ⟨e, he, rfl⟩ := Option.map_eq_some_iff.1 h
    exact .inr ⟨e, hi, he, rfl⟩
  · exact .inl h

theorem get?_forgetBackTo {d : Dictionary} {mark i : Nat} {x : Entry}
    (h : (d.forgetBackTo mark).get? i = some x) : d.get? i = some x := by
  simp only [get?, forgetBackTo, Array.take_eq_extract, Array.getElem?_extract] at h
  split at h
  · simpa [get?] using h
  · cases h

theorem Sound.insert {d : Dictionary} (h : d.Sound) {e : Entry} (he : e.Sound) :
    (d.insert e).2.Sound := by
  intro i x hx
  rcases get?_insert hx with hx | rfl
  · exact h i x hx
  · exact ⟨he.visible, he.hidden, he.role⟩

theorem Sound.modify {d : Dictionary} (h : d.Sound) {index : Nat} {f : Entry → Entry}
    (hf : ∀ e, d.get? index = some e → e.Sound → (f e).Sound) : (d.modify index f).Sound := by
  intro i x hx
  rcases get?_modify hx with hx | ⟨e, rfl, he, rfl⟩
  · exact h i x hx
  · exact hf e he (h _ e he)

theorem Sound.forgetBackTo {d : Dictionary} (h : d.Sound) (mark : Nat) :
    (d.forgetBackTo mark).Sound :=
  fun i x hx => h i x (get?_forgetBackTo hx)

end Dictionary

/-! ## Built-in words -/

namespace Pending

theorem definition_of_nextToken? {p behind : Pending} {t : Token}
    (h : p.nextToken? = some (t, behind)) : behind.definition = p.definition := by
  unfold nextToken? at h
  split at h
  · cases h
  · cases h
    rfl

end Pending

namespace Session

theorem definition?_of_sources {s : Session} {p : Pending} {rest : List Pending}
    (h : s.sources = p :: rest) : s.definition? = p.definition := by
  simp [definition?, h]

/-- The session with another definition in the first source, which is where all of its tokens come
from. -/
theorem Consistent.setSource {s : Session} (h : s.Consistent) {p q : Pending}
    {rest : List Pending} (hs : s.sources = p :: rest)
    (hd : ∀ d, q.definition = some d → d.Sound ∧
      ∀ e, s.dictionary.get? d.word = some e → e.isBuiltin = false) :
    Consistent { s with sources := q :: rest } where
  entries := h.entries
  definition := fun d he => (hd d he).1
  reserved := fun d e he => (hd d he).2 e
  queued := by
    have := h.queued
    rwa [hs] at this
  linked := h.linked

/-- What is left of a valid session when an operation has failed. -/
abbrev SoundWords : Fault → Session → Prop := Action.Scripted (·.dictionary.Sound)

theorem insensitive_valid (φ : Option CallFrame → Prop) :
    Action.Insensitive (Session.Valid φ) SoundWords where
  fails := fun _ h => h.entries
  data := fun _ _ h => ⟨⟨h.entries, h.definition, h.reserved, h.queued, h.linked⟩, h.running⟩
  prints := fun _ h => ⟨⟨h.entries, h.definition, h.reserved, h.queued, h.linked⟩, h.running⟩
  observe := fun _ h => ⟨⟨h.entries, h.definition, h.reserved, h.queued, h.linked⟩, h.running⟩
  token := by
    intro s source behind rest t hs ht h
    have hd := Pending.definition_of_nextToken? ht
    refine ⟨h.setSource hs fun d he => ?_, h.running⟩
    have he' : s.definition? = some d := by rw [definition?_of_sources hs, ← hd, he]
    exact ⟨h.definition d he', fun e => h.reserved d e he'⟩
  putAside := by
    intro s v returns hr h
    refine ⟨⟨h.entries, h.definition, h.reserved, h.queued, ?_⟩, h.running⟩
    rw [ReturnStack.items_of_push? hr, linked_value]
    exact h.linked
  takeBack := by
    intro s v returns hr h
    refine ⟨⟨h.entries, h.definition, h.reserved, h.queued, ?_⟩, h.running⟩
    have hl := h.linked
    rwa [ReturnStack.items_of_popValue? hr, linked_value] at hl

end Session

end StackLang
