import Mathlib.Algebra.Group.Nat.Defs
import StackLang.Proofs.Agreement.Results
import StackLang.Proofs.Call.Chain
import StackLang.Proofs.Words.Roles

/-!
# Words and tokens that may stand anywhere

A token is portable if it does not matter whether it is run as it is read or is compiled first: it
is a literal, or the name of a word that runs when it is executed and that looks at neither the
source, the dictionary nor the return stack of its caller.  Inside of a compiled word the return
stack belongs to that word, so there it may be used.

* `Dictionary.Callable`, `Dictionary.Portable`: what portable words call.
* `Lexeme.Portable`: the portable tokens.
* `Lexeme.ops`: the operations that are compiled for one.
-/

namespace StackLang

namespace Dictionary

/-- The entry at the index is a word in `words`, or a built-in word that may be called from one. -/
def Callable (d : Dictionary) (words : Nat → Prop) (index : Nat) : Prop :=
  words index ∨ ∃ e w, d.get? index = some e ∧ e.body = .builtin w ∧ e.immediate = false ∧
    (w.isSituated = false ∨ ∃ r, w = .returns r)

/-- Every word in `words` is finished code, and calls nothing but such words and built-in ones. -/
def Closed (d : Dictionary) (words : Nat → Prop) : Prop :=
  ∀ i, words i → ∃ e code, d.get? i = some e ∧ e.visible = true ∧ e.body = .compiled code ∧
    ∀ j, code.Calls i j → d.Callable words j

/-- A compiled word that is portable, with all the words that it calls, and those that they call. -/
def Portable (d : Dictionary) (index : Nat) : Prop :=
  ∃ words, d.Closed words ∧ words index

theorem Callable.mono {d : Dictionary} {words words' : Nat → Prop} {i : Nat}
    (h : d.Callable words i) (hw : ∀ j, words j → words' j) : d.Callable words' i :=
  h.imp_left (hw i)

/-- The portable words are the largest collection that is closed. -/
theorem closed_portable (d : Dictionary) : d.Closed d.Portable := by
  rintro i ⟨words, hclosed, hi⟩
  obtain ⟨e, code, he, hv, hb, hcalls⟩ := hclosed i hi
  exact ⟨e, code, he, hv, hb, fun j hj => (hcalls j hj).mono fun k hk => ⟨words, hclosed, hk⟩⟩

end Dictionary

/-- The name stands for this built-in word. -/
def Dictionary.Means (d : Dictionary) (name : String) (w : Builtin) : Prop :=
  ∃ index e, d.find? name = some (index, e) ∧ e.body = .builtin w

/-- The token may stand anywhere.  The length of a text that is printed goes through the stack, as
an integer of 64 bits. -/
inductive Lexeme.Portable (d : Dictionary) : Lexeme → Prop
  | number (n : Number) : Portable d (.number n)
  | push (text : String) : Portable d (.string .push text)
  | print {text : String} (h : text.length < 2 ^ 63) : Portable d (.string .print text)
  | builtin {name : String} {index : Nat} {e : Entry} {w : Builtin}
    (hf : d.find? name = some (index, e)) (hi : e.immediate = false) (hb : e.body = .builtin w)
    (hw : w.isSituated = false) : Portable d (.word name)
  | compiled {name : String} {index : Nat} {e : Entry} (hf : d.find? name = some (index, e))
    (hi : e.immediate = false) (hp : d.Portable index) : Portable d (.word name)

/-- What is compiled for a token. -/
def Lexeme.ops (d : Dictionary) : Lexeme → List Op
  | .number n => [.push (.ofNumber n)]
  | .string .display _ => []
  | .string .push text => [.push (.string text), .push (.int (Int64.ofNat text.length))]
  | .string .print text => [.push (.string text), .push (.int (Int64.ofNat text.length))] ++
    ((d.find? "TYPE").map fun (i, _) => .callBuiltin i).toList
  | .word name => ((d.find? name).map fun (i, e) =>
    if e.isBuiltin then .callBuiltin i else .callWord i).toList

/-- The operations of a token name no instruction. -/
theorem Lexeme.target?_of_mem_ops {d : Dictionary} {x : Lexeme} {op : Op} (h : op ∈ x.ops d) :
    op.target? = none := by
  have pushes {v w : Value} (h : op ∈ [Op.push v, .push w]) : op.target? = none := by
    rcases List.mem_cons.1 h with rfl | h
    · rfl
    · rw [List.mem_singleton.1 h]
      rfl
  cases x with
  | number n => simp_all [ops, Op.target?]
  | string form text =>
    cases form with
    | display => simp [ops] at h
    | push => exact pushes h
    | print =>
      rcases List.mem_append.1 h with h | h
      · exact pushes h
      · obtain ⟨x, -, rfl⟩ := Option.map_eq_some_iff.1 (Option.mem_toList.1 h)
        rfl
  | word name =>
    obtain ⟨x, -, rfl⟩ := Option.map_eq_some_iff.1 (Option.mem_toList.1 h)
    dsimp only
    split <;> rfl

/-! ## Running words -/

/-- All that the code of the frame calls may be called from it. -/
def CallFrame.Portable (d : Dictionary) (f : CallFrame) : Prop :=
  ∀ i, f.code.Calls f.word i → d.Callable d.Portable i

/-- The portable word at an index, with its frame. -/
theorem Dictionary.Portable.frame {d : Dictionary} {index : Nat} (h : d.Portable index) :
    ∃ e code, d.get? index = some e ∧ e.visible = true ∧ e.body = .compiled code ∧
      ∀ name next, CallFrame.Portable d ⟨index, name, code, next⟩ := by
  obtain ⟨e, code, he, hv, hb, hcalls⟩ := d.closed_portable index h
  exact ⟨e, code, he, hv, hb, fun _ _ => hcalls⟩

/-- A built-in word that is called by portable code looks at no more than values, memory and the
return stack. -/
theorem Action.concurring_of_roles {d : Dictionary} (hd : d.Roles) {index : Nat} {e : Entry}
    {w : Builtin} (he : d.get? index = some e) (hi : e.immediate = false)
    (hb : e.body = .builtin w) (hw : w.isSituated = false) : Concurring w.run := by
  refine concurring_builtin ?_ hw
  have hrole := ((hd index e he).spec w hb).1
  rw [hi] at hrole
  simpa using hrole.symm

end StackLang
