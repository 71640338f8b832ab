import StackLang.Proofs.Saved.Rebuilding
import StackLang.Proofs.Saved.Writing

/-!
# Loading a saved session

What the lexemes of a saved session make of a fresh one.  The words come back one after the other,
each behind the words that it was made behind, and so it is made again as it was.

* `Loaded`, `Restored`: a session with these words, and with the values of these variables; with this
  stack, or with any.
* `consumes_definition`, `consumes_constant`, `consumes_variable`: one word more.
* `consumes_value`, `consumes_store`: a value, and a variable that takes it.
-/

namespace StackLang

open Session Action

/-! ## Values and variables -/

/-- Was the entry made by `VARIABLE`? -/
def Entry.isVariable (e : Entry) : Bool :=
  match e.origin with
  | some (.variable _) => true
  | _ => false

/-- How many variables there are, hidden ones included. -/
def Dictionary.variableCount (d : Dictionary) : Nat :=
  d.entries.countP Entry.isVariable

/-- The session has nothing in flight but a source.  It knows the words of `d`, and the variables
among the first `known` of them have the values that they have in `s`. -/
structure Loaded (s : Session) (nesting : Nat) (d : Dictionary) (known : Nat) (stack : DataStack)
    (t : Session) : Prop extends s.Ready nesting known t where
  dictionary : t.dictionary.unplaced = d
  stack : t.stack = stack
  /-- There is memory for the other variables. -/
  here : t.cells.here = d.variableCount
  room : s.dictionary.variableCount ≤ t.cells.limit
  addresses : t.cells.limit ≤ UInt64.size

namespace Loaded

variable {s t : Session} {nesting : Nat} {d : Dictionary} {known : Nat} {stack : DataStack}

theorem standard (h : Loaded s nesting d known stack t) (hd : d.Standard) :
    t.dictionary.Standard :=
  Dictionary.standard_unplaced.1 (h.dictionary ▸ hd)

/-- Another stack, and another place in the source. -/
theorem carry (h : Loaded s nesting d known stack t) (stack' : DataStack) (l : Option Location) :
    Loaded s nesting d known stack' (({ t with stack := stack' } : Session).knowing l t.dictionary)
    where
  toReady := h.toReady.moved stack' l
  dictionary := h.dictionary
  stack := rfl
  here := h.here
  room := h.room
  addresses := h.addresses

end Loaded

/-- The session with another stack, somewhere in its source. -/
def Session.Holding (s : Session) (stack : DataStack) (t : Session) : Prop :=
  ∃ l, t = ({ s with stack } : Session).knowing l s.dictionary

section

variable {s : Session} {stack : DataStack} (hf : s.frame = none) (hc : s.cancelled = false)
include hf hc

theorem consumes_number (n : Number) :
    Consumes (s.Holding stack) [.number n] (s.Holding (.ofNumber n :: stack)) := by
  refine .token fun t token tokens ht hx => ?_
  obtain ⟨l, rfl⟩ := ht
  exact ⟨hc, _, yields_number hf hx, ⟨_, rfl⟩, hf⟩

theorem consumes_string (text : String) : Consumes (s.Holding stack) [.string .push text]
    (s.Holding (.int (Int64.ofNat text.length) :: .string text :: stack)) := by
  refine .token fun t token tokens ht hx => ?_
  obtain ⟨l, rfl⟩ := ht
  exact ⟨hc, _, yields_string hf hx, ⟨_, rfl⟩, hf⟩

/-- A built-in word that works on the stack. -/
theorem consumes_stackWord (hd : s.dictionary.Standard) {w : Builtin} {p : Operand Unit}
    {stack' : DataStack} (hw : w.run = operands p) (hrole : w.spec.role ≠ .compileOnly)
    (hp : p stack = .ok () stack') :
    Consumes (s.Holding stack) [.word w.spec.name] (s.Holding stack') := by
  refine .token fun t token tokens ht hx => ?_
  obtain ⟨l, rfl⟩ := ht
  exact ⟨hc, _, yields_stack (runs_of_standard hd hx hrole) hw hf hp, ⟨_, rfl⟩, hf⟩

/-- The lexemes of a value push it; an address comes back as an integer. -/
theorem consumes_lexemes (hd : s.dictionary.Standard) (v : Value) :
    Consumes (s.Holding stack) v.lexemes (s.Holding (v.reread :: stack)) := by
  cases v with
  | int n => exact consumes_number hf hc (.int n)
  | float x => exact consumes_number hf hc (.float x)
  | address a => exact consumes_number hf hc (.int (Int64.ofNat a.toNat))
  | flag b =>
    cases b with
    | true =>
      exact consumes_stackWord hf hc hd (w := .math .pushTrue) (p := MathWord.run .pushTrue) rfl
        (by decide) rfl
    | false =>
      exact consumes_stackWord hf hc hd (w := .math .pushFalse) (p := MathWord.run .pushFalse) rfl
        (by decide) rfl
  | string text =>
    exact (consumes_string hf hc text).append
      (consumes_stackWord hf hc hd (w := .stack .drop) (p := StackWord.run .drop) rfl (by decide)
        rfl)

end

/-- The source of a value pushes it. -/
theorem consumes_value {s : Session} {nesting : Nat} {d : Dictionary} {known : Nat}
    {stack : DataStack} {v : Value} (hd : d.Standard) (hv : v.Writable) :
    Consumes (Loaded s nesting d known stack) v.lexemes (Loaded s nesting d known (v :: stack)) := by
  intro t tokens more ht hx
  obtain rfl := ht.stack
  obtain ⟨u, ⟨l, rfl⟩, hlead⟩ :=
    consumes_lexemes ht.frame ht.running (ht.standard hd) v t tokens more ⟨t.location, rfl⟩ hx
  rw [Value.reread_of_writable hv] at hlead
  exact ⟨_, ht.carry _ l, hlead⟩

/-! ## Words -/

namespace CellStore

variable {m n : CellStore} {count first : Nat}

theorem limit_of_allot? (h : m.allot? count = some (first, n)) : n.limit = m.limit := by
  unfold allot? at h
  split at h
  · cases h
  · cases h
    rfl

/-- The cells that were there keep their values. -/
theorem fetch?_of_allot? (h : m.allot? count = some (first, n)) {a : Nat} (ha : a < m.here) :
    n.fetch? a = m.fetch? a := by
  unfold allot? at h
  split at h
  · cases h
  · cases h
    exact Array.getElem?_append_left ha

end CellStore

theorem Entry.isVariable_unplaced (e : Entry) : e.unplaced.isVariable = e.isVariable := by
  unfold isVariable unplaced
  cases e.origin with
  | none => rfl
  | some origin => cases origin <;> rfl

theorem Entry.isVariable_eq_true_iff {e : Entry} :
    e.isVariable = true ↔ ∃ a, e.origin = some (.variable a) := by
  unfold isVariable
  cases e.origin with
  | none => simp
  | some origin => cases origin <;> simp

namespace Dictionary

theorem variableCount_unplaced (d : Dictionary) : d.unplaced.variableCount = d.variableCount := by
  unfold variableCount unplaced
  rw [Array.countP_map]
  exact congrArg (Array.countP · d.entries) (funext Entry.isVariable_unplaced)

theorem variableCount_forgetBackTo_le (d : Dictionary) (mark : Nat) :
    (d.forgetBackTo mark).variableCount ≤ d.variableCount := by
  unfold variableCount forgetBackTo
  rw [← Array.countP_toList, ← Array.countP_toList]
  exact List.Sublist.countP_le (by simpa using List.take_sublist mark d.entries.toList)

theorem variableCount_push (d : Dictionary) (e : Entry) :
    (d.push e).variableCount = d.variableCount + if e.isVariable = true then 1 else 0 :=
  Array.countP_push

theorem hasVariable_push {d : Dictionary} {e : Entry} {i a : Nat} (h : (d.push e).HasVariable i a) :
    d.HasVariable i a ∨ i = d.size ∧ e.origin = some (.variable a) := by
  obtain ⟨x, hx, ho⟩ := h
  rw [get?_push] at hx
  split at hx
  · rename_i hi
    cases hx
    exact .inr ⟨hi, ho⟩
  · exact .inl ⟨x, hx, ho⟩

theorem eq_of_hasVariable {d : Dictionary} {i a b : Nat} (ha : d.HasVariable i a)
    (hb : d.HasVariable i b) : a = b := by
  obtain ⟨x, hx, hox⟩ := ha
  obtain ⟨y, hy, hoy⟩ := hb
  rw [hx] at hy
  cases hy
  exact Origin.variable.inj (Option.some.inj (hox.symm.trans hoy))

theorem lt_size_of_hasVariable {d : Dictionary} {i a : Nat} (h : d.HasVariable i a) :
    i < d.size := by
  obtain ⟨x, hx, -⟩ := h
  exact lt_size_of_get? hx

end Dictionary

section

variable {s t : Session} {nesting : Nat} {d : Dictionary} {known : Nat} {stack : DataStack}
  {v : Value} {e : Entry} {x : Lexeme}

theorem Loaded.size (h : Loaded s nesting d known stack t) : t.dictionary.size = d.size := by
  rw [← h.dictionary, Dictionary.size_unplaced]

/-- One word more, which is no variable. -/
theorem Loaded.push (h : Loaded s nesting d known stack t) (hk : d.size = known)
    (he : e.isVariable = false) (l : Option Location) :
    Loaded s nesting (d.push e.unplaced) (known + 1) stack (t.knowing l (t.dictionary.push e)) where
  dictionary := by
    show (t.dictionary.push e).unplaced = _
    rw [Dictionary.unplaced_push, h.dictionary]
  stack := h.stack
  frame := h.frame
  running := h.running
  callable := h.callable
  nested := h.nested
  unaliased := by
    refine h.unaliased.of_variables fun i x a hx ho => ?_
    have hx' : (t.dictionary.push e).get? i = some x := hx
    rw [Dictionary.get?_push] at hx'
    split at hx'
    · cases hx'
      rw [Entry.isVariable_eq_true_iff.2 ⟨a, ho⟩] at he
      cases he
    · exact ⟨x, hx', ho, rfl⟩
  values := fun i a hi hv => by
    rcases Dictionary.hasVariable_push hv with hv | ⟨-, ho⟩
    · have := Dictionary.lt_size_of_hasVariable hv
      rw [h.size, hk] at this
      exact h.values i a this hv
    · rw [Entry.isVariable_eq_true_iff.2 ⟨a, ho⟩] at he
      cases he
  here := by
    rw [Dictionary.variableCount_push, Entry.isVariable_unplaced, he]
    exact h.here
  room := h.room
  addresses := h.addresses

/-- A constant is made again. -/
theorem consumes_constant (hd : d.Standard) (hk : d.size = known) (hx : x.Gives e.name)
    (he : e.Like (Entry.ofConstant .unspecified "" v) known) (hi : e.immediate = false) :
    Consumes (Loaded s nesting d known (v :: stack)) [.word "CONSTANT", x]
      (Loaded s nesting (d.push e.unplaced) (known + 1) stack) := by
  obtain ⟨found, hx, hfound⟩ := hx
  refine .named fun t token named tokens ht htoken hnamed => ?_
  have hruns : Runs t token (.defining .constant) :=
    runs_of_standard (ht.standard hd) htoken (by decide)
  have hname : named.name? = some found := by rw [Token.name?, hnamed, hx]
  refine ⟨ht.running, _, yields_constant hruns ht.frame ht.stack hname, ?_, ht.frame⟩
  have hsize : t.dictionary.size = known := ht.size.trans hk
  have hsame : ((Entry.ofConstant named.location found v).inserted t.dictionary.size).unplaced =
      e.unplaced := by
    rw [hsize]
    refine he.unplaced_eq (Entry.like_ofConstant named.location found v known) ?_ hi.symm
    exact (Text.uppercase_uppercase found).trans hfound
  rw [← hsame]
  exact (ht.carry stack (some token.location)).push hk rfl (some token.location)

/-! ## Definitions -/

/-- The session is loaded, with whatever the words have left on the stack that ran meanwhile. -/
def Restored (s : Session) (nesting : Nat) (d : Dictionary) (known : Nat) (t : Session) : Prop :=
  ∃ stack, Loaded s nesting d known stack t

/-- What does not look at the stack below its own values. -/
theorem Consumes.restored {d' : Dictionary} {known' : Nat} {xs : List Lexeme}
    (h : ∀ stack, Consumes (Loaded s nesting d known stack) xs
      (Loaded s nesting d' known' stack)) :
    Consumes (Restored s nesting d known) xs (Restored s nesting d' known') := by
  rintro t tokens more ⟨stack, ht⟩ hx
  obtain ⟨u, hu, hlead⟩ := h stack t tokens more ht hx
  exact ⟨u, ⟨stack, hu⟩, hlead⟩

/-- A definition is made again.  It is immediate if its own lexemes have made it so. -/
theorem consumes_definition {d₀ : Dictionary} {xs : List Lexeme} {y : Definition} {m : Bool}
    (hd : d.Standard) (hk : d.size = known) (hd₀ : d₀.unplaced = d)
    (hruns : d₀.RunsOnly (Dictionary.StandsAlone s nesting) xs)
    (hy : d₀.assemble? (d₀.proper xs) (.bare, false) = some (y, m)) (hc : y.control = [])
    (hstray : Definition.strayTarget? (y.code.push ⟨none, .exit⟩) = none)
    (hx : x.Gives e.name)
    (he : e.Like (Entry.filled (y.code.push ⟨none, .exit⟩) (Lexeme.bodyText xs)
      (Entry.reserved .unspecified "")) known) :
    Consumes (Restored s nesting d known) (.word ":" :: x :: (xs ++ [.word ";"]))
      (Restored s nesting (d.push { e.unplaced with immediate := m }) (known + 1)) := by
  obtain ⟨found, hx, hfound⟩ := hx
  rintro t tokens more ⟨stack, ht⟩ htokens
  obtain ⟨colon, tokens, rfl, hcolon, h₁⟩ := List.map_eq_cons_iff.1 htokens
  obtain ⟨named, tokens, rfl, hnamed, h₂⟩ := List.map_eq_cons_iff.1 h₁
  obtain ⟨body, tokens, rfl, rfl, h₃⟩ := List.map_eq_append_iff.1 h₂
  obtain ⟨semicolon, tokens, rfl, hsemicolon, h₄⟩ := List.map_eq_cons_iff.1 h₃
  obtain rfl := List.map_eq_nil_iff.1 h₄
  have hname : named.name? = some found := by rw [Token.name?, hnamed, hx]
  have hsame : t.dictionary.unplaced = d₀.unplaced := ht.dictionary.trans hd₀.symm
  have hfind (name : String) : t.dictionary.unplaced.find? name = d₀.unplaced.find? name := by
    rw [hsame]
  rw [← Dictionary.assemble?_of_unplaced hsame, ← Dictionary.proper_of_find? hfind] at hy
  have hruns : t.dictionary.RunsOnly (s.RunsAlone nesting t) (body.map Token.lexeme) := by
    intro z hz i hi
    rw [Dictionary.interlude?_of_find? hfind] at hi
    exact ⟨(ht.size.trans hk).symm ▸ ht.toReady, (hruns z hz i hi).of_unplaced hsame⟩
  obtain ⟨stack', l, e', hlead, hname', rfl, hlike⟩ := leadsTo_definition ht.frame ht.running
    (ht.standard hd _) (ht.standard hd _) hcolon hname hsemicolon hruns hy hc hstray more
  rw [ht.size, hk] at hlike
  have hsame : e'.unplaced = { e.unplaced with immediate := e'.immediate } :=
    (he.setImmediate e'.immediate).unplaced_eq hlike
      (by rw [hname', Text.uppercase_uppercase, hfound]) rfl
  have hvariable : e'.isVariable = false := by
    rw [← Entry.isVariable_unplaced, show e'.unplaced = _ from hlike]
    rfl
  refine ⟨_, ⟨stack', hsame ▸ (ht.carry stack' l).push hk hvariable l⟩, ?_⟩
  simpa [knowing] using hlead

/-- The last word is made immediate. -/
theorem consumes_immediate (hd : (d.push e).Standard) (hv : e.visible = true)
    (hb : e.isBuiltin = false) :
    Consumes (Loaded s nesting (d.push e) known stack) [.word "IMMEDIATE"]
      (Loaded s nesting (d.push { e with immediate := true }) known stack) := by
  refine .token fun t token tokens ht hx => ?_
  obtain ⟨d₁, e₁, hpush, rfl, rfl⟩ := Dictionary.exists_of_unplaced_push ht.dictionary
  have hlatest : t.dictionary.latestUserWord? = some d₁.size := by
    rw [hpush, Dictionary.latestUserWord?_push (e := e₁) hv (e₁.isBuiltin_unplaced ▸ hb)]
  have hruns : Runs t token (.defining .immediate) :=
    runs_of_standard (ht.standard hd) hx (by decide)
  have hmarked : t.dictionary.marking d₁.size true = d₁.push { e₁ with immediate := true } := by
    rw [hpush, Dictionary.marking, Dictionary.modify_push, Bool.or_true]
  refine ⟨ht.running, _, yields_immediate hruns ht.frame hlatest,
    ⟨ht.toReady.marking d₁.size true _, ?_, ht.stack, ?_, ht.room, ht.addresses⟩, ht.frame⟩
  · show (t.dictionary.marking d₁.size true).unplaced = _
    rw [hmarked, Dictionary.unplaced_push]
    rfl
  · refine ht.here.trans ?_
    rw [Dictionary.variableCount_push, Dictionary.variableCount_push]
    rfl

/-! ## Variables -/

/-- A variable is made again, with a fresh cell. -/
theorem consumes_variable (hd : d.Standard) (hk : d.size = known) (hx : x.Gives e.name)
    (he : e.Like (Entry.ofVariable .unspecified "" 0) known) (hi : e.immediate = false)
    (hroom : d.variableCount < s.dictionary.variableCount) :
    Consumes (Loaded s nesting d known stack) [.word "VARIABLE", x]
      (Loaded s nesting (d.push e.unplaced) known stack) := by
  obtain ⟨found, hx, hfound⟩ := hx
  refine .named fun t token named tokens ht htoken hnamed => ?_
  have hruns : Runs t token (.defining .variable) :=
    runs_of_standard (ht.standard hd) htoken (by decide)
  have hname : named.name? = some found := by rw [Token.name?, hnamed, hx]
  have hsize : t.dictionary.size = known := ht.size.trans hk
  obtain ⟨cells, hcells⟩ : ∃ cells, t.cells.allot? 1 = some (t.cells.here, cells) := by
    unfold CellStore.allot?
    rw [if_neg]
    · exact ⟨_, rfl⟩
    · have := ht.here
      have := ht.room
      rw [CellStore.available]
      omega
  have hhere := (CellStore.here_allot? hcells).2
  have hsame : ((Entry.ofVariable named.location found t.cells.here).inserted known).unplaced =
      e.unplaced :=
    he.unplaced_eq rfl ((Text.uppercase_uppercase found).trans hfound) hi.symm
  refine ⟨ht.running, _, yields_variable hruns ht.frame hcells hname, ⟨⟨ht.frame, ht.running,
    ht.callable, ht.nested, ?_, ?_⟩, ?_, ht.stack, ?_, ?_, ?_⟩, ht.frame⟩
  · show (t.dictionary.insert _).2.Unaliased cells.here
    rw [hhere]
    exact ht.unaliased.insert_variable named.location found _
  · intro i a hlt hv
    rcases Dictionary.hasVariable_insert hv with hv | ⟨rfl, -⟩
    · exact (CellStore.fetch?_of_allot? hcells (ht.unaliased.allotted i a hv)).trans
        (ht.values i a hlt hv)
    · exact absurd hlt (hsize ▸ Nat.lt_irrefl _)
  · show (t.dictionary.insert _).2.unplaced = _
    rw [Dictionary.insert_eq_push, Dictionary.unplaced_push, ht.dictionary, hsize, hsame]
  · show cells.here = _
    rw [hhere, ht.here, Dictionary.variableCount_push, if_pos]
    rw [show e.unplaced = _ from he]
    rfl
  · exact (CellStore.limit_of_allot? hcells).symm ▸ ht.room
  · exact (CellStore.limit_of_allot? hcells).symm ▸ ht.addresses

/-- A word that pushes a value leaves that on the stack. -/
theorem leadsTo_valueWord {word : String} {index : Nat} {l : Option Location} {token : Token}
    (ht : s.Ready nesting known t) (hx : token.lexeme = .word word)
    (he : t.dictionary.find? word = some (index, e))
    (hb : e.body = .compiled #[⟨l, .push v⟩, ⟨none, .exit⟩]) (hc : e.compileOnly = false)
    (tokens : List Token) :
    ∃ l', (t.feeding (token :: tokens) none).LeadsTo
      ((({ t with stack := v :: t.stack } : Session).knowing l' t.dictionary).feeding tokens
        none) := by
  obtain ⟨returns, hpush⟩ := ht.exists_push
  obtain ⟨hf, hr, -⟩ := ht
  obtain ⟨l', hlead⟩ := leadsTo_pushes (t := t.knowing (some token.location) t.dictionary)
    (f := ⟨index, e.name, #[⟨l, .push v⟩, ⟨none, .exit⟩], 0⟩) tokens none hf hr hpush
    (show _ = [v].map Op.push ++ [.exit] from rfl) fun _ => rfl
  exact ⟨l', .trans (.of_step (by simp [hasPending, feeding]) hr
    (yields_enter hf hx he hb hc hpush) (yields_dropUsedSources_of_frame (Option.some_ne_none _)))
    hlead⟩

/-- The session is loaded up to a variable, whose address is on the stack. -/
def Addressed (s : Session) (nesting : Nat) (d : Dictionary) (known : Nat) (stack : DataStack)
    (t : Session) : Prop :=
  ∃ a, t.dictionary.HasVariable known a ∧
    Loaded s nesting d known (.address (UInt64.ofNat a) :: stack) t

/-- The name of the last variable pushes its address. -/
theorem consumes_variableName (hk : d.size = known) (ho : e.origin = some (.variable 0))
    (hv : e.visible = true) (hc : e.compileOnly = false) (hup : Text.uppercase e.name = e.name) :
    Consumes (Loaded s nesting (d.push e) known stack) [.word e.name]
      (Addressed s nesting (d.push e) known stack) := by
  intro t tokens more ht hx
  obtain ⟨token, tokens, rfl, htoken, hnil⟩ := List.map_eq_cons_iff.1 hx
  obtain rfl := List.map_eq_nil_iff.1 hnil
  obtain ⟨d₁, e₁, hpush, rfl, rfl⟩ := Dictionary.exists_of_unplaced_push ht.dictionary
  obtain ⟨a, ha⟩ := Entry.isVariable_eq_true_iff.1
    (e₁.isVariable_unplaced ▸ Entry.isVariable_eq_true_iff.2 ⟨0, ho⟩)
  rw [Dictionary.size_unplaced] at hk
  have hget : t.dictionary.get? known = some e₁ := by
    rw [hpush, ← hk, Dictionary.get?_push_self]
  have hfind : t.dictionary.find? e₁.name = some (known, e₁) := by
    rw [hpush, Dictionary.find?_push, hk, if_pos]
    have hname : Text.uppercase e₁.name = e₁.name := hup
    have hvisible : e₁.visible = true := hv
    simp [Dictionary.answers, hname, hvisible]
  obtain ⟨l, hbody⟩ := ht.unaliased.pushes known e₁ a hget ha
  obtain ⟨l', hlead⟩ := leadsTo_valueWord ht.toReady htoken hfind hbody hc more
  refine ⟨({ t with stack := .address (UInt64.ofNat a) :: t.stack } : Session).knowing l'
    t.dictionary, ⟨a, ⟨e₁, hget, ha⟩, ?_⟩, hlead⟩
  exact ht.stack ▸ ht.carry (.address (UInt64.ofNat a) :: t.stack) l'

/-- The variable gets its value. -/
theorem consumes_store (hd : (d.push e).Standard) (hk : d.size = known)
    (hv : s.held? known = some v) (hroom : (d.push e).variableCount ≤ s.dictionary.variableCount) :
    Consumes (Addressed s nesting (d.push e) known (v :: stack)) [.word "!"]
      (Loaded s nesting (d.push e) (known + 1) stack) := by
  refine .token fun t token tokens ht hx => ?_
  obtain ⟨a, ha, ht⟩ := ht
  have hallotted := ht.unaliased.allotted known a ha
  have haddress : (UInt64.ofNat a).toNat = a := by
    have := ht.here
    have := ht.room
    have := ht.addresses
    exact UInt64.toNat_ofNat_of_lt' (by omega)
  have hholds : t.cells.holds a = true := decide_eq_true hallotted
  have hruns : Runs t token (.memory .store) := runs_of_standard (ht.standard hd) hx (by decide)
  refine ⟨ht.running, _, yields_store hruns ht.frame ht.stack haddress hholds,
    ⟨⟨ht.frame, ht.running, ht.callable, ht.nested, ?_, fun i b hi hb => ?_⟩, ht.dictionary, rfl,
      ?_, ht.room, ht.addresses⟩, ht.frame⟩
  · show t.dictionary.Unaliased (t.cells.put a v).here
    rw [CellStore.here_put]
    exact ht.unaliased
  · show (t.cells.put a v).fetch? b = s.held? i
    rw [CellStore.fetch?_put hholds]
    split
    · rename_i hab
      rw [ht.unaliased.distinct i known b hb (hab ▸ ha), hv]
    · rename_i hab
      refine ht.values i b (Nat.lt_of_le_of_ne (Nat.le_of_lt_succ hi) ?_) hb
      rintro rfl
      exact hab (Dictionary.eq_of_hasVariable hb ha)
  · exact (CellStore.here_put _ _ _).trans ht.here

end

end StackLang
