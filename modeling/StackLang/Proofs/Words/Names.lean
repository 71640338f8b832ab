import StackLang.Proofs.Text.Uppercase
import StackLang.Proofs.Words.Moves

/-!
# The names of words

A name is put into the dictionary in upper case, and stays as it is there.

* `Dictionary.Capital`: all names are in upper case.
* `capital_of_visits`: they are everywhere in a run.
-/

namespace StackLang

namespace Dictionary

/-- All names are in upper case. -/
def Capital (d : Dictionary) : Prop :=
  ∀ i e, d.get? i = some e → Text.uppercase e.name = e.name

variable {d : Dictionary}

theorem Capital.insert (h : d.Capital) (e : Entry) : (d.insert e).2.Capital := by
  intro i x hx
  rcases get?_insert hx with hx | rfl
  · exact h i x hx
  · exact Text.uppercase_uppercase e.name

theorem Capital.forgetBackTo (h : d.Capital) (mark : Nat) : (d.forgetBackTo mark).Capital :=
  fun i e he => h i e (get?_forgetBackTo he)

theorem Capital.modify (h : d.Capital) (index : Nat) {f : Entry → Entry}
    (hf : ∀ e, (f e).name = e.name) : (d.modify index f).Capital := by
  intro i e he
  rcases get?_modify he with he | ⟨x, -, hx, rfl⟩
  · exact h i e he
  · rw [hf]
    exact h i x hx

end Dictionary

namespace Session

variable {s t : Session} {o o' : Outline}

theorem capital_builtins : builtins.Capital :=
  builtins_induct (fun _ _ he => by simp [Dictionary.get?, Dictionary.empty] at he)
    fun d w hd => hd.insert (.ofBuiltin w)

theorem capital_of_revision {next? : Option String} {w : Builtin} (h : Revision next? o w o')
    (ho : o.dictionary.Capital) : o'.dictionary.Capital := by
  cases h with
  | keeps | builds => exact ho
  | opens | constant | «variable» => exact ho.insert _
  | closes | makesImmediate => exact ho.modify _ fun _ => rfl
  | forgets | resets => exact ho.forgetBackTo _

theorem capital_of_turn {b : Option (Builtin × Option String)} {name? : Option String}
    (h : Turn b name? o o') (ho : o.dictionary.Capital) : o'.dictionary.Capital := by
  cases b with
  | none => cases (h : Passage _ o o') <;> exact ho
  | some found => exact capital_of_revision h ho

theorem capital_of_changed {m : Move} (h : Changed s m t) (hs : s.dictionary.Capital) :
    t.dictionary.Capital := by
  show t.outline.dictionary.Capital
  cases h with
  | steps _ h => exact capital_of_turn h hs
  | stays _ h => exact h ▸ hs
  | fails _ h =>
    rw [h]
    unfold Outline.rolledBack
    dsimp only
    split
    · exact hs.forgetBackTo _
    · exact hs
  | marks => exact hs
  | resets | restores => exact hs.forgetBackTo _

/-- The names of words are in upper case everywhere in a run. -/
theorem capital_of_visits {config : Config} {moves : List Move}
    (hs : Visits moves (ofConfig config) s) : s.dictionary.Capital := by
  refine hs.induct (P := fun t => t.dictionary.Capital) capital_builtins fun m u v hp hu => ?_
  obtain ⟨-, -, -, -, hm⟩ := id hp
  exact capital_of_changed
    (changed_of_move (valid_of_visits hp.before) hm) hu

end Session

end StackLang
