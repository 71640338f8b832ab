import StackLang.Proofs.Saved.Recorded
import StackLang.Session.Saved

/-!
# What a saved session says

The lexemes that the source of a word consists of, with blanks between them and a line break at the
end.

* `Value.lexemes`: what the source of a value consists of.
* `says_colon`, `says_constant`, `says_variable`: what those of words do.
-/

namespace StackLang

/-! ## Texts -/

namespace Spells

variable {cs ds : List Char} {xs ys : List Lexeme} {b : Char}

theorem append (h : Spells cs xs) (h' : Spells ds ys) : Spells (cs ++ ds) (xs ++ ys) := by
  induction h with
  | nil => exact h'
  | blank hb h ih => exact .blank hb ih
  | lexeme hx hb h ih =>
    rw [List.append_assoc]
    exact .lexeme hx hb ih

/-- One lexeme, with a blank behind it. -/
theorem cons {text : String} {x : Lexeme} (hx : x.ReadFrom text) (hb : isBlank b = true)
    (h : Spells cs xs) : Spells (text.toList ++ b :: cs) (x :: xs) :=
  .lexeme hx hb (.blank hb h)

/-- The lexemes of a body, with a blank behind them. -/
theorem body (hxs : ∀ x ∈ xs, x.ReadsBack) (hb : isBlank b = true) (h : Spells cs ys) :
    Spells ((Lexeme.bodyText xs).toList ++ b :: cs) (xs ++ ys) := by
  induction xs with
  | nil => exact .blank hb h
  | cons x xs ih =>
    have hx := hxs x List.mem_cons_self
    have ih := ih fun y hy => hxs y (List.mem_cons_of_mem x hy)
    cases xs with
    | nil => exact .cons hx hb h
    | cons y xs =>
      have htext : (Lexeme.bodyText (x :: y :: xs)).toList =
          x.text.toList ++ ' ' :: (Lexeme.bodyText (y :: xs)).toList := by
        simp [Lexeme.bodyText]
      rw [htext, List.append_assoc]
      exact .cons hx rfl ih

end Spells

/-! ## Built-in words -/

/-- The name of a built-in word is no comment, no literal and no number. -/
theorem Builtin.spelled_specName (w : Builtin) : Cursor.Spelled w.spec.name.toList ∧
    StringForm.ofWord? w.spec.name = none ∧ Number.read? w.spec.name = none := by
  have h : ∀ w ∈ Builtin.all, Cursor.Spelled w.spec.name.toList ∧
      StringForm.ofWord? w.spec.name = none ∧ (Number.read? w.spec.name).isNone = true := by
    decide +kernel
  obtain ⟨hspelled, hform, hnumber⟩ := h w (Builtin.mem_all w)
  exact ⟨hspelled, hform, Option.isNone_iff_eq_none.1 hnumber⟩

/-- It is read as that name. -/
theorem Lexeme.readsBack_specName (w : Builtin) : (word w.spec.name).ReadsBack :=
  readsBack_word w.spelled_specName

/-! ## Values -/

namespace Value

/-- What the source of a value says.  That of an address is taken for an integer. -/
def lexemes : Value → List Lexeme
  | int n => [.number (.int n)]
  | float x => [.number (.float x)]
  | flag true => [.word "TRUE"]
  | flag false => [.word "FALSE"]
  | address a => [.number (.int (Int64.ofNat a.toNat))]
  | string s => [.string .push s, .word "DROP"]

/-- What is read back when the lexemes are. -/
def reread : Value → Value
  | address a => int (Int64.ofNat a.toNat)
  | v => v

/-- The value is read back from its source.  An address would come back as an integer, a NaN is
written as a difference, and a quote would end its string. -/
def Writable : Value → Prop
  | int _ | flag _ => True
  | float x => x.isNaN = false ∧ (Lexeme.number (.float x)).ReadsBack
  | address _ => False
  | string s => '"' ∉ s.toList

variable {v : Value}

theorem reread_of_writable (h : v.Writable) : v.reread = v := by
  cases v with
  | address a => exact h.elim
  | _ => rfl

theorem source_eq_bodyText (h : v.Writable) : v.source = Lexeme.bodyText v.lexemes := by
  cases v with
  | int n => rfl
  | float x =>
    obtain ⟨hx, -⟩ := h
    rw [source, if_neg (Bool.eq_false_iff.1 hx)]
    rfl
  | flag b => cases b <;> rfl
  | address a => exact h.elim
  | string s =>
    apply String.toList_inj.1
    simp [source, lexemes, Lexeme.bodyText, Lexeme.text, StringForm.opening, StringForm.closing]

theorem readsBack_lexemes (h : v.Writable) : ∀ x ∈ v.lexemes, x.ReadsBack := by
  intro x hx
  cases v with
  | int n =>
    obtain rfl := List.mem_singleton.1 hx
    exact Lexeme.readsBack_int n
  | float y =>
    obtain rfl := List.mem_singleton.1 hx
    exact h.2
  | flag b =>
    cases b with
    | true =>
      obtain rfl := List.mem_singleton.1 hx
      exact Lexeme.readsBack_specName (.math .pushTrue)
    | false =>
      obtain rfl := List.mem_singleton.1 hx
      exact Lexeme.readsBack_specName (.math .pushFalse)
  | address a => exact h.elim
  | string s =>
    rcases List.mem_cons.1 hx with rfl | hx
    · exact Lexeme.readsBack_string h
    · obtain rfl := List.mem_singleton.1 hx
      exact Lexeme.readsBack_specName (.stack .drop)

theorem spells_source {b : Char} {cs : List Char} {ys : List Lexeme} (h : v.Writable)
    (hb : isBlank b = true) (hcs : Spells cs ys) :
    Spells (v.source.toList ++ b :: cs) (v.lexemes ++ ys) := by
  rw [source_eq_bodyText h]
  exact .body (readsBack_lexemes h) hb hcs

end Value

/-! ## Entries -/

/-- The lexeme gives a word this name. -/
def Lexeme.Gives (x : Lexeme) (name : String) : Prop :=
  ∃ found, x.name? = some found ∧ Text.uppercase found = name

/-- The lexeme is read from the name that it gives. -/
structure Lexeme.Names (x : Lexeme) (name : String) : Prop where
  read : x.ReadFrom name
  gives : x.Gives name

namespace Entry

/-- A line with the source of the entry consists of the lexemes. -/
def Says (e : Entry) (cells : CellStore) (xs : List Lexeme) : Prop :=
  ∃ text, e.source? cells = some text ∧ Spells (text ++ "\n").toList xs

variable {e : Entry} {cells : CellStore} {x : Lexeme} {v : Value}

theorem says_colon {xs : List Lexeme} (hx : x.Names e.name) (hxs : ∀ y ∈ xs, y.ReadsBack)
    (ho : e.origin = some (.colon (Lexeme.bodyText xs))) :
    e.Says cells (.word ":" :: x ::
      (xs ++ [.word ";"] ++ if e.immediate then [.word "IMMEDIATE"] else [])) := by
  have hcolon : (Lexeme.word ":").ReadsBack := Lexeme.readsBack_specName (.defining .colon)
  have hsemicolon : (Lexeme.word ";").ReadsBack := Lexeme.readsBack_specName (.defining .semicolon)
  have himmediate : (Lexeme.word "IMMEDIATE").ReadsBack :=
    Lexeme.readsBack_specName (.defining .immediate)
  refine ⟨_, by rw [source?, ho]; rfl, ?_⟩
  rw [List.append_assoc]
  cases hi : e.immediate with
  | false =>
    have h := Spells.cons hcolon (b := ' ') rfl (.cons hx.read (b := ' ') rfl
      (.body hxs (b := ' ') rfl (.cons hsemicolon (b := '\n') rfl .nil)))
    simpa [Lexeme.text] using h
  | true =>
    have h := Spells.cons hcolon (b := ' ') rfl (.cons hx.read (b := ' ') rfl
      (.body hxs (b := ' ') rfl (.cons hsemicolon (b := ' ') rfl
        (.cons himmediate (b := '\n') rfl .nil))))
    simpa [Lexeme.text] using h

theorem says_constant (hx : x.Names e.name) (hv : v.Writable)
    (ho : e.origin = some (.constant v)) : e.Says cells (v.lexemes ++ [.word "CONSTANT", x]) := by
  have hconstant : (Lexeme.word "CONSTANT").ReadsBack :=
    Lexeme.readsBack_specName (.defining .constant)
  refine ⟨_, by rw [source?, ho]; rfl, ?_⟩
  have h := Value.spells_source hv (b := ' ') rfl (.cons hconstant (b := ' ') rfl
    (.cons hx.read (b := '\n') rfl .nil))
  simpa [Lexeme.text] using h

theorem says_variable {a : Nat} (hx : (Lexeme.word e.name).ReadsBack) (hv : v.Writable)
    (ho : e.origin = some (.variable a)) (ha : cells.fetch? a = some v) :
    e.Says cells ([.word "VARIABLE", .word e.name] ++ v.lexemes ++ [.word e.name, .word "!"]) := by
  have hvariable : (Lexeme.word "VARIABLE").ReadsBack :=
    Lexeme.readsBack_specName (.defining .variable)
  have hstore : (Lexeme.word "!").ReadsBack := Lexeme.readsBack_specName (.memory .store)
  refine ⟨_, by rw [source?, ho]; rfl, ?_⟩
  have h := Spells.cons hvariable (b := ' ') rfl (.cons hx (b := ' ') rfl
    (Value.spells_source hv (b := ' ') rfl (.cons hx (b := ' ') rfl
      (.cons hstore (b := '\n') rfl .nil))))
  simpa [ha, Lexeme.text] using h

end Entry

end StackLang
