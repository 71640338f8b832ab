import Mathlib.Algebra.Group.Nat.Defs
import StackLang.Proofs.Saved.Loading
import StackLang.Proofs.Saved.Recompiling

/-!
# Values that are evaluated again

The source of a value, evaluated on its own, pushes the value.  A string comes back with whatever is
in it but a quote, an address as the integer that is its index, and a NaN as the difference of two
infinities, which is one.

* `Value.said`, `source_eq_said`: what the source of any value consists of.
* `lexemes_bodyText`: it is read as that.
* `source_pushes`: it pushes the value.
-/

namespace StackLang

open Session Action

namespace Value

/-- What the source of a value says, NaNs included. -/
def said : Value → List Lexeme
  | float x =>
    if x.isNaN then [.number (.float (1.0 / 0.0)), .number (.float (1.0 / 0.0)), .word "-"]
    else [.number (.float x)]
  | v => v.lexemes

/-- What is left of the value when its source has been evaluated. -/
def pushed : Value → Value
  | float x => if x.isNaN then float (1.0 / 0.0 - 1.0 / 0.0) else float x
  | v => v.reread

/-- The value comes back as the other one: as itself, or as the integer with the same value if it is
an address, or as a NaN if it is one. -/
def ComesBackAs : Value → Value → Prop
  | address a, w => ∃ n : Int64, w = int n ∧ n.toInt = a.toNat
  | float x, w => if x.isNaN = true then ∃ y : Float, w = float y ∧ y.isNaN = true else w = float x
  | v, w => w = v

variable {v : Value}

theorem comesBackAs_pushed (haddress : ∀ a, v = address a → a.toNat < 2 ^ 63) :
    v.ComesBackAs v.pushed := by
  cases v with
  | int n | flag b | string s => rfl
  | address a =>
    have := haddress a rfl
    exact ⟨_, rfl, Int64.toInt_ofNat_of_lt this⟩
  | float x =>
    show if x.isNaN = true then _ else _
    unfold pushed
    by_cases hx : x.isNaN = true
    · simp only [if_pos hx]
      exact ⟨_, rfl, by decide⟩
    · simp only [if_neg hx]

/-! ## The text -/

theorem source_eq_said (haddress : ∀ a, v = address a → a.toNat < 2 ^ 63) :
    v.source = Lexeme.bodyText v.said := by
  cases v with
  | int n => rfl
  | flag b => cases b <;> rfl
  | address a =>
    have hvalue : (Int64.ofNat a.toNat).toInt = (a.toNat : Int) :=
      Int64.toInt_ofNat_of_lt (haddress a rfl)
    show toString a.toNat = toString (Int64.ofNat a.toNat).toInt
    rw [hvalue]
    rfl
  | float x =>
    unfold source said
    by_cases hx : x.isNaN = true
    · simp only [if_pos hx]
      decide
    · simp only [if_neg hx]
      rfl
  | string s =>
    apply String.toList_inj.1
    simp [source, said, lexemes, Lexeme.bodyText, Lexeme.text, StringForm.opening,
      StringForm.closing]

theorem printable_said (hstring : ∀ s, v = string s → '"' ∉ s.toList)
    (hfloat : ∀ x, v = float x → x.isFinite = true →
      Number.read? (Number.floatText x) = some (.float x)) : ∀ x ∈ v.said, x.Printable := by
  have word (w : Builtin) : (Lexeme.word w.spec.name).Printable := by
    obtain ⟨hspelled, hopens, hnumber⟩ := w.spelled_specName
    exact Lexeme.printable_word ⟨hspelled, hopens⟩ hnumber
  cases v with
  | int n =>
    exact List.forall_mem_singleton.2 (Lexeme.printable_number (Number.read?_int n))
  | flag b =>
    cases b with
    | true => exact List.forall_mem_singleton.2 (word (.math .pushTrue))
    | false => exact List.forall_mem_singleton.2 (word (.math .pushFalse))
  | address a =>
    exact List.forall_mem_singleton.2 (Lexeme.printable_number (Number.read?_int _))
  | float x =>
    unfold said
    by_cases hx : x.isNaN = true
    · have hinfinity : (Lexeme.number (.float (1.0 / 0.0))).Printable :=
        Lexeme.printable_number (by decide)
      simp only [if_pos hx]
      exact List.forall_mem_cons.2 ⟨hinfinity, List.forall_mem_cons.2 ⟨hinfinity,
        List.forall_mem_singleton.2 (word (.math .subtract))⟩⟩
    · simp only [if_neg hx]
      exact List.forall_mem_singleton.2 (Lexeme.printable_number
        (Number.read?_text_of_not_isNaN (Bool.eq_false_iff.2 hx) (hfloat x rfl)))
  | string s =>
    exact List.forall_mem_cons.2 ⟨Lexeme.printable_string (hstring s rfl),
      List.forall_mem_singleton.2 (word (.stack .drop))⟩

end Value

/-- Printable lexemes are read from their texts with spaces between them. -/
theorem lexemes_bodyText {xs : List Lexeme} (hxs : ∀ x ∈ xs, x.Printable) (path : String) :
    (Token.ofSource path (Lexeme.bodyText xs)).map (·.lexeme) = xs := by
  obtain ⟨hsound, hlexemes⟩ :=
    Piece.sound_printed_append hxs (show Piece.Sound [] from trivial) nofun
  simp only [List.append_nil] at hsound hlexemes
  rw [Lexeme.bodyText, Token.ofSource_of_sound hsound (Piece.source_printed xs),
    Piece.map_lexeme_tokens, hlexemes, List.filterMap_nil, List.append_nil]

section

variable {s : Session} {stack : DataStack}

/-- What the source of a value says pushes it. -/
theorem consumes_said (hf : s.frame = none) (hc : s.cancelled = false)
    (hd : s.dictionary.Standard) (v : Value) :
    Consumes (s.Holding stack) v.said (s.Holding (v.pushed :: stack)) := by
  cases v with
  | float x =>
    unfold Value.said Value.pushed
    by_cases hx : x.isNaN = true
    · simp only [if_pos hx]
      exact ((consumes_number hf hc _).append (consumes_number hf hc _)).append
        (consumes_stackWord hf hc hd (w := .math .subtract) (p := MathWord.run .subtract) rfl
          (by decide) rfl)
    · simp only [if_neg hx]
      exact consumes_number hf hc (.float x)
  | int n => exact consumes_lexemes hf hc hd (.int n)
  | flag b => exact consumes_lexemes hf hc hd (.flag b)
  | address a => exact consumes_lexemes hf hc hd (.address a)
  | string text => exact consumes_lexemes hf hc hd (.string text)

end

namespace Session

/-- In a fresh session the source of a value leaves the value on the stack, and nothing else. -/
theorem source_pushes (config : Config) (v : Value)
    (haddress : ∀ a, v = .address a → a.toNat < 2 ^ 63)
    (hstring : ∀ s, v = .string s → '"' ∉ s.toList)
    (hfloat : ∀ x, v = .float x → x.isFinite = true →
      Number.read? (Number.floatText x) = some (.float x)) :
    ∃ fuel t w, evaluateToEnd fuel v.source (ofConfig config) = .ok () t ∧
      t.hasPending = false ∧ t.stack = [w] ∧ v.ComesBackAs w := by
  have hlexemes : (Token.ofSource inputPath v.source).map (·.lexeme) = v.said := by
    rw [Value.source_eq_said haddress]
    exact lexemes_bodyText (Value.printable_said hstring hfloat) inputPath
  have hconsumes : Consumes ((ofConfig config).Holding []) v.said
      ((ofConfig config).Holding [v.pushed]) :=
    consumes_said rfl rfl Dictionary.standard_builtins v
  obtain ⟨t, ⟨l, rfl⟩, hlead⟩ := hconsumes (ofConfig config) _ [] ⟨none, rfl⟩ hlexemes
  rw [List.append_nil] at hlead
  obtain ⟨fuel, u, hu, hb⟩ := evaluateToEnd_of_leadsTo rfl rfl hlead rfl
  obtain ⟨builtin, calls, output, observers, rfl⟩ := hb
  exact ⟨fuel, _, v.pushed, hu, rfl, rfl, Value.comesBackAs_pushed haddress⟩

/-- A string with blanks at its start, what begins comments elsewhere and a line break; an address;
and a float. -/
theorem source_pushes_string_address_float :
    let pushes (v : Value) : Prop :=
      ∃ fuel t w, evaluateToEnd fuel v.source (ofConfig .standard) = .ok () t ∧
        t.hasPending = false ∧ t.stack = [w] ∧ v.ComesBackAs w
    pushes (.string "  \\ ( a\n") ∧ pushes (.address 5) ∧ pushes (.float 1.5) := by
  refine ⟨?_, ?_, ?_⟩
  · refine source_pushes .standard _ nofun (fun s hs => ?_) nofun
    cases hs
    decide
  · refine source_pushes .standard _ (fun a ha => ?_) nofun nofun
    cases ha
    decide
  · refine source_pushes .standard _ nofun nofun fun x hx _ => ?_
    cases hx
    decide +kernel

end Session

end StackLang
