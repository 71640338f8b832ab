import StackLang.Proofs.Saved.Faithful
import StackLang.Proofs.Saved.Literals
import StackLang.Proofs.Saved.Loading
import StackLang.Proofs.Saved.Naming
import StackLang.Proofs.Words.Names

/-!
# A saved session, loaded

The source of a session has a line for every word, in the order in which they were defined.  A fresh
session reads the lines one after the other, and each of them makes its word behind the words that
it was made behind, so that its calls find what they found.

* `Entry.Writable`: what of an entry has to be read back.
* `loads_of_recorded`: the line of one word makes that word again.
* `Session.Recreates`: the words of another session, with the values of its variables.
* `Session.source_recreates`: a source that is loaded makes all words again.
* `Entry.isPlain`, `Session.tidyEnd?`: checks for sessions without floats, and for runs in which the
  words that run inside of definitions only push values.
-/

namespace StackLang

open Session Action

/-! ## Entries -/

namespace Entry

/-- The entry can be written so that it is read back. -/
structure Writable (e : Entry) (cells : CellStore) : Prop where
  /-- It is not named by the `(` at the end of a source, which begins a comment anywhere else. -/
  name : e.name ≠ "("
  /-- If its name looks like a number, the text of that number is its name. -/
  number : ∀ n, Number.read? e.name = some n → Text.uppercase n.text = e.name
  /-- It hides no built-in word. -/
  apart : ∀ w : Builtin, e.name ≠ w.spec.name
  floats : ∀ code i x, e.body = .compiled code → code.literal? i = some (.float x) →
    (Lexeme.number (.float x)).ReadsBack
  constant : ∀ v, e.origin = some (.constant v) → v.Writable ∧ e.immediate = false
  /-- Its name is written again to store its value, and may not be that of a number then. -/
  «variable» : ∀ a, e.origin = some (.variable a) → Number.read? e.name = none ∧
    e.immediate = false ∧ ∀ v, cells.fetch? a = some v → v.Writable

theorem Writable.isName {e : Entry} {cells : CellStore} (hw : e.Writable cells)
    (hg : IsGiven e.name) : IsName e.name :=
  hg.resolve_right hw.name

end Entry

section

variable {s : Session} {nesting : Nat} {d : Dictionary} {e : Entry}

/-- The entry can be written, and loaded behind the words of the dictionary. -/
def Loads (s : Session) (nesting : Nat) (d : Dictionary) (e : Entry) : Prop :=
  ∃ xs, e.Says s.cells xs ∧ Consumes (Restored s nesting d.unplaced d.size) xs
    (Restored s nesting (d.push e).unplaced (d.size + 1))

/-- The lexemes of a recorded body are read back if its floats are, which are literals of its
code. -/
theorem readsBack_of_recorded {xs : List Lexeme} {y : Definition} {m : Bool}
    (hw : e.Writable s.cells) (hxs : ∀ x ∈ xs, x.Written)
    (hy : d.assemble? (d.proper xs) (.bare, false) = some (y, m))
    (he : e.Like (Entry.filled (y.code.push ⟨none, .exit⟩) (Lexeme.bodyText xs)
      (Entry.reserved .unspecified "")) d.size) : ∀ x ∈ xs, x.ReadsBack := by
  intro x hx
  by_cases hfloat : ∃ f, x = .number (.float f)
  · obtain ⟨f, rfl⟩ := hfloat
    have hproper : .number (.float f) ∈ d.proper xs := List.mem_filter.2 ⟨hx, rfl⟩
    obtain ⟨code, i, hbody, hi⟩ := Dictionary.exists_literal_of_like hproper hy he
    exact hw.floats code i f hbody hi
  · exact Lexeme.readsBack_of_written (hxs x hx) fun f hf => hfloat ⟨f, hf⟩

theorem loads_colon {x : Lexeme} {xs : List Lexeme} {y : Definition} {m : Bool}
    (hd : d.unplaced.Standard) (hw : e.Writable s.cells) (hx : x.Names e.name)
    (hxs : ∀ x ∈ xs, x.Written) (hruns : d.RunsOnly (Dictionary.StandsAlone s nesting) xs)
    (hy : d.assemble? (d.proper xs) (.bare, false) = some (y, m)) (hc : y.control = [])
    (hstray : Definition.strayTarget? (y.code.push ⟨none, .exit⟩) = none)
    (hm : m = true → e.immediate = true)
    (he : e.Like (Entry.filled (y.code.push ⟨none, .exit⟩) (Lexeme.bodyText xs)
      (Entry.reserved .unspecified "")) d.size) : Loads s nesting d e := by
  refine ⟨_, Entry.says_colon hx (readsBack_of_recorded hw hxs hy he) (he.colon rfl), ?_⟩
  have hdefinition : Consumes (Restored s nesting d.unplaced d.size) _ _ :=
    consumes_definition hd d.size_unplaced rfl hruns hy hc hstray hx.gives he
  rw [Dictionary.unplaced_push]
  cases hi : e.immediate with
  | false =>
    obtain rfl : m = false := by
      cases m with
      | false => rfl
      | true => exact (hm rfl).symm.trans hi
    rw [show e.unplaced = { e.unplaced with immediate := false } by rw [← hi]; rfl]
    simpa using hdefinition
  | true =>
    refine hdefinition.append ?_
    rw [show e.unplaced = { ({ e.unplaced with immediate := m } : Entry) with immediate := true } by
      rw [← hi]; rfl]
    exact .restored fun stack => consumes_immediate (Dictionary.standard_push hd hw.apart)
      he.visible (e.isBuiltin_unplaced.trans he.isBuiltin)

theorem loads_constant {x : Lexeme} {v : Value} (hd : d.unplaced.Standard)
    (hw : e.Writable s.cells) (hx : x.Names e.name)
    (he : e.Like (Entry.ofConstant .unspecified "" v) d.size) : Loads s nesting d e := by
  have ho : e.origin = some (.constant v) := he.constant rfl
  obtain ⟨hv, hi⟩ := hw.constant v ho
  refine ⟨_, Entry.says_constant hx hv ho, ?_⟩
  rw [Dictionary.unplaced_push]
  exact .restored fun stack =>
    (consumes_value hd hv).append (consumes_constant hd d.size_unplaced hx.gives he hi)

theorem loads_variable (hd : d.unplaced.Standard) (hw : e.Writable s.cells)
    (hg : IsGiven e.name) (hup : Text.uppercase e.name = e.name)
    (he : e.Like (Entry.ofVariable .unspecified "" 0) d.size) (hs : s.Unaliased)
    (hget : s.dictionary.get? d.size = some e)
    (hcount : (d.push e).unplaced.variableCount ≤ s.dictionary.variableCount) :
    Loads s nesting d e := by
  obtain ⟨a, ho⟩ := he.variable rfl
  obtain ⟨hn, hi, hvalue⟩ := hw.variable a ho
  have hx := Lexeme.readsBack_of_isName (hw.isName hg) hn
  obtain ⟨v, ha⟩ : ∃ v, s.cells.fetch? a = some v :=
    ⟨_, Array.getElem?_eq_getElem (hs.allotted d.size a ⟨e, hget, ho⟩)⟩
  have hv := hvalue v ha
  have hheld : s.held? d.size = some v := by
    rw [Session.held?, hget, Option.bind_some, ho]
    exact ha
  have horigin : e.unplaced.origin = some (.variable 0) := by
    rw [Entry.unplaced, ho]
    rfl
  refine ⟨_, Entry.says_variable hx hv ho ha, ?_⟩
  rw [Dictionary.unplaced_push] at hcount ⊢
  have hd' : (d.unplaced.push e.unplaced).Standard := Dictionary.standard_push hd hw.apart
  have hfresh : d.unplaced.variableCount < s.dictionary.variableCount := by
    rw [Dictionary.variableCount_push, if_pos] at hcount
    · omega
    · rw [Entry.isVariable_unplaced]
      exact Entry.isVariable_eq_true_iff.2 ⟨a, ho⟩
  refine .restored fun stack => ?_
  have hmade : Consumes (Loaded s nesting d.unplaced d.size stack) _ _ :=
    consumes_variable (x := .word e.name) hd d.size_unplaced ⟨e.name, rfl, hup⟩ he hi hfresh
  have hstored : Consumes (Loaded s nesting (d.unplaced.push e.unplaced) d.size (v :: stack))
      ([.word e.name] ++ [.word "!"])
      (Loaded s nesting (d.unplaced.push e.unplaced) (d.size + 1) stack) :=
    (consumes_variableName d.size_unplaced horigin he.visible he.compileOnly hup).append
      (consumes_store hd' d.size_unplaced hheld hcount)
  exact (hmade.append (consumes_value hd' hv)).append hstored

/-- Every recorded entry that can be written is loaded behind the words that it was made behind. -/
theorem loads_of_recorded (hr : e.Recorded (Dictionary.StandsAlone s nesting) d)
    (hd : d.unplaced.Standard) (hw : e.Writable s.cells) (hg : IsGiven e.name)
    (hup : Text.uppercase e.name = e.name) (hs : s.Unaliased)
    (hget : s.dictionary.get? d.size = some e)
    (hcount : (d.push e).unplaced.variableCount ≤ s.dictionary.variableCount) :
    Loads s nesting d e := by
  have hx := Lexeme.names_of_isName (hw.isName hg) hup hw.number
  cases hr with
  | colon hxs hruns hy hc hstray hm he => exact loads_colon hd hw hx hxs hruns hy hc hstray hm he
  | constant he => exact loads_constant hd hw hx he
  | «variable» he => exact loads_variable hd hw hg hup he hs hget hcount

end

/-! ## Sessions -/

namespace Session

/-- All words that were defined can be written so that they are read back. -/
def Writable (s : Session) : Prop :=
  ∀ i e, builtins.size ≤ i → s.dictionary.get? i = some e → e.Writable s.cells

variable {s : Session} {nesting : Nat} {A : Dictionary → Nat → Prop}

theorem standard_below (ht : s.dictionary.Told A) (hw : s.Writable) (k : Nat) :
    (s.dictionary.forgetBackTo (builtins.size + k)).unplaced.Standard := by
  induction k with
  | zero =>
    rw [Nat.add_zero, ht.base]
    exact Dictionary.standard_unplaced.2 Dictionary.standard_builtins
  | succ k ih =>
    cases he : s.dictionary.get? (builtins.size + k) with
    | none =>
      have hle := Dictionary.get?_eq_none_iff.1 he
      rw [Dictionary.forgetBackTo_of_le hle] at ih
      rwa [Dictionary.forgetBackTo_of_le (by omega)]
    | some e =>
      rw [← Nat.add_assoc, Dictionary.forgetBackTo_succ he, Dictionary.unplaced_push]
      exact Dictionary.standard_push ih (hw _ e (Nat.le_add_right _ _) he).apart

/-- The lines of the entries from one on make the words again that begin there. -/
theorem exists_of_entries (ht : s.dictionary.Told (Dictionary.StandsAlone s nesting))
    (hg : s.dictionary.Named) (hn : s.dictionary.Capital) (hw : s.Writable) (hs : s.Unaliased)
    (entries : List Entry) (k : Nat)
    (he : s.dictionary.entries.toList.drop (builtins.size + k) = entries)
    (hk : builtins.size + k ≤ s.dictionary.size) : ∃ xs,
      Spells (String.join ((entries.filterMap (Entry.source? s.cells)).map (· ++ "\n"))).toList xs ∧
      Consumes (Restored s nesting (s.dictionary.forgetBackTo (builtins.size + k)).unplaced
        (builtins.size + k)) xs (Restored s nesting s.dictionary.unplaced s.dictionary.size) := by
  induction entries generalizing k with
  | nil =>
    have hle : s.dictionary.size ≤ builtins.size + k := by
      simpa [Dictionary.size] using List.drop_eq_nil_iff.1 he
    refine ⟨[], .nil, ?_⟩
    rw [Dictionary.forgetBackTo_of_le hle, Nat.le_antisymm hk hle]
    exact .nil _
  | cons e entries ih =>
    have hget : s.dictionary.get? (builtins.size + k) = some e := by
      have := congrArg List.head? he
      simpa [Dictionary.get?] using this
    have hlt := Dictionary.lt_size_of_get? hget
    have hsize : (s.dictionary.forgetBackTo (builtins.size + k)).size = builtins.size + k := by
      rw [Dictionary.size_forgetBackTo]
      omega
    have hpush := Dictionary.forgetBackTo_succ hget
    have hcount : ((s.dictionary.forgetBackTo (builtins.size + k)).push e).unplaced.variableCount ≤
        s.dictionary.variableCount := by
      rw [← hpush, Dictionary.variableCount_unplaced]
      exact Dictionary.variableCount_forgetBackTo_le _ _
    have hle := Nat.le_add_right builtins.size k
    obtain ⟨xs, ⟨text, htext, hspells⟩, hloads⟩ := loads_of_recorded (s := s)
      (ht.entries _ e hle hget) (standard_below ht hw k) (hw _ e hle hget)
      (hg _ e hget) (hn _ e hget) hs (by rw [hsize]; exact hget) hcount
    have htail : s.dictionary.entries.toList.drop (builtins.size + (k + 1)) = entries := by
      have := congrArg List.tail he
      simpa [Nat.add_assoc] using this
    obtain ⟨ys, hspells', hloads'⟩ := ih (k + 1) htail hlt
    rw [← Nat.add_assoc, hpush] at hloads'
    rw [hsize] at hloads
    refine ⟨xs ++ ys, ?_, hloads.append hloads'⟩
    rw [List.filterMap_cons, htext]
    simpa using hspells.append hspells'

/-- The source of a session makes its words again. -/
theorem exists_of_source (hf : s.Faithful (Dictionary.StandsAlone s nesting))
    (hd : s.definition? = none) (hg : s.dictionary.Named) (hn : s.dictionary.Capital)
    (hw : s.Writable) (hs : s.Unaliased) :
    ∃ xs, Spells s.source.toList xs ∧
      Consumes (Restored s nesting builtins.unplaced builtins.size) xs
        (Restored s nesting s.dictionary.unplaced s.dictionary.size) := by
  have ht := hf.tells.told hd
  obtain ⟨xs, hspells, hloads⟩ := exists_of_entries ht hg hn hw hs _ 0 rfl ht.size_le
  rw [Nat.add_zero, ht.base] at hloads
  refine ⟨xs, ?_, hloads⟩
  have hvisible : s.dictionary.visibleSince s.sessionMark =
      s.dictionary.entries.toList.drop builtins.size := by
    rw [Dictionary.visibleSince, hf.mark, List.filter_eq_self]
    intro e he
    obtain ⟨i, hi⟩ := List.mem_iff_getElem?.1 he
    rw [List.getElem?_drop] at hi
    exact (ht.entries _ e (Nat.le_add_right _ i) (by simpa [Dictionary.get?] using hi)).visible
  rw [source, savedWords, hvisible]
  exact hspells

theorem variableCount_builtins : builtins.unplaced.variableCount = 0 := by
  rw [Dictionary.variableCount_unplaced]
  decide +kernel

theorem loaded_ofConfig {config : Config} (s : Session) (hdepth : 0 < config.maxReturnDepth)
    (hroom : s.dictionary.variableCount ≤ config.maxCells)
    (haddress : config.maxCells ≤ UInt64.size) :
    Loaded s config.maxReturnDepth builtins.unplaced builtins.size [] (ofConfig config) where
  toReady := ⟨rfl, rfl, hdepth, Nat.le_of_eq (Nat.zero_add _), unaliased_builtins,
    fun i a _ hv => absurd (unaliased_builtins.allotted i a hv) (Nat.not_lt_zero a)⟩
  dictionary := rfl
  stack := rfl
  here := variableCount_builtins.symm
  room := hroom
  addresses := haddress

/-- A fresh session that evaluates a source is where its lexemes lead. -/
theorem exists_of_consumes {config : Config} {source : String} {xs : List Lexeme}
    {P Q : Session → Prop} (hmode : config.mode ≠ .step) (hx : Spells source.toList xs)
    (hc : Consumes P xs Q) (hp : P (ofConfig config)) (hq : ∀ t, Q t → t.frame = none) :
    ∃ fuel t u, evaluate fuel source (ofConfig config) = .ok () u ∧ Q t ∧
      (t.feeding [] none).Beside u := by
  obtain ⟨t, ht, hlead⟩ := hc _ (Token.ofSource inputPath source) [] hp (lexemes_ofSource hx _)
  rw [List.append_nil] at hlead
  obtain ⟨fuel, h⟩ := (leadsTo_feeding rfl rfl).trans hlead
  obtain ⟨u, hu, hb⟩ := h _ (.refl _)
  refine ⟨fuel, t, u, ?_, ht, hb⟩
  have hidle : u.hasPending = false := by
    rw [hasPending, hb.frame, hb.sources]
    simp [feeding, hq t ht]
  rw [evaluate_of_run hmode, ← Nat.add_zero fuel]
  show runPending (fuel + 0) ((ofConfig config).reading _ none []) = _
  rw [runPending_add, hu]
  exact runPending_of_idle hidle 0

/-- The other session has the same words in the same places of its dictionary: the same names, the
same of them immediate, colon definitions with the same instructions, constants with the same
values, and variables with cells that hold the same values.  Only the places in sources and in the
memory may be others. -/
structure Recreates (s t : Session) : Prop where
  words : t.dictionary.unplaced = s.dictionary.unplaced
  values : ∀ i a, t.dictionary.HasVariable i a → t.cells.fetch? a = s.held? i
  unaliased : t.Unaliased

theorem recreates_of_loaded {t u : Session}
    (h : Restored s nesting s.dictionary.unplaced s.dictionary.size t)
    (hb : (t.feeding [] none).Beside u) : s.Recreates u := by
  obtain ⟨builtin, calls, output, observers, rfl⟩ := hb
  obtain ⟨stack, h⟩ := h
  refine ⟨h.dictionary, fun i a hv => h.values i a ?_ hv, h.unaliased⟩
  have hlt : i < t.dictionary.size := Dictionary.lt_size_of_hasVariable hv
  rwa [h.size, Dictionary.size_unplaced] at hlt

/-- The source of a session makes its words again.  A word that ran inside of a definition runs
again when that is loaded, so it must have read no token, left the dictionary alone, and stand
alone.  All words must be `Writable`.  The fresh session needs cells for the variables. -/
theorem source_recreates {config config' : Config} {moves : List Move} (hm : .mark ∉ moves)
    (hm' : .resetDefinitions ∉ moves)
    (hk : ∀ t, Visits moves (ofConfig config) t →
      t.Tidy (Dictionary.StandsAlone s config'.maxReturnDepth))
    (hs : Visits moves (ofConfig config) s) (hd : s.definition? = none) (hw : s.Writable)
    (hmode : config'.mode ≠ .step) (hdepth : 0 < config'.maxReturnDepth)
    (hroom : s.dictionary.variableCount ≤ config'.maxCells)
    (haddress : config'.maxCells ≤ UInt64.size) :
    ∃ fuel t, evaluate fuel s.source (ofConfig config') = .ok () t ∧ t.hasPending = false ∧
      s.Recreates t := by
  have hfaithful {u : Session} (hu : Visits moves (ofConfig config) u) :
      u.Faithful (Dictionary.StandsAlone s config'.maxReturnDepth) :=
    faithful_of_visits hm hm' hk hu
  have hunaliased : s.Unaliased := by
    refine (keepsCells_of_visits (fun u hu => ?_) hs).1
    rw [(hfaithful hu).mark, ← (hfaithful hu).tells.base, Dictionary.size_forgetBackTo]
    exact Nat.min_le_right _ _
  obtain ⟨xs, hx, hc⟩ := exists_of_source (hfaithful hs) hd (named_of_visits hs)
    (capital_of_visits hs) hw hunaliased
  obtain ⟨fuel, t, u, hu, ht, hb⟩ := exists_of_consumes hmode hx hc
    ⟨[], loaded_ofConfig s hdepth hroom haddress⟩ fun t ⟨_, ht⟩ => ht.frame
  refine ⟨fuel, u, hu, ?_, recreates_of_loaded ht hb⟩
  obtain ⟨stack, ht⟩ := ht
  rw [hasPending, hb.frame, hb.sources]
  simp [feeding, ht.frame]

end Session

/-! ## Checking -/

/-- Is the value read back from its source, and no float? -/
def Value.isPlain : Value → Bool
  | int _ | flag _ => true
  | string s => decide ('"' ∉ s.toList)
  | float _ | address _ => false

/-- Can the entry be written so that it is read back, without floats? -/
def Entry.isPlain (e : Entry) (cells : CellStore) : Bool :=
  e.name != "(" && (Number.read? e.name).isNone &&
    Builtin.all.all (fun w => w.spec.name != e.name) &&
    (match e.body with
      | .builtin _ => true
      | .compiled code => code.toList.all fun x => match x.op.literal? with
        | some (.float _) => false
        | _ => true) &&
    match e.origin with
    | some (.constant v) => v.isPlain && !e.immediate
    | some (.variable a) => !e.immediate && (cells.fetch? a).all Value.isPlain
    | _ => true

theorem Value.writable_of_isPlain {v : Value} (h : v.isPlain = true) : v.Writable := by
  cases v with
  | int n | flag b => trivial
  | string s =>
    show '"' ∉ s.toList
    exact of_decide_eq_true h
  | float x | address a => cases h

theorem Entry.writable_of_isPlain {e : Entry} {cells : CellStore} (h : e.isPlain cells = true) :
    e.Writable cells := by
  simp only [isPlain, Bool.and_eq_true, List.all_eq_true, bne_iff_ne,
    Option.isNone_iff_eq_none] at h
  obtain ⟨⟨⟨⟨hname, hnumber⟩, hapart⟩, hfloats⟩, horigin⟩ := h
  refine ⟨hname, fun n hn => ?_, fun w => (hapart w (Builtin.mem_all w)).symm, ?_, ?_, ?_⟩
  · rw [hnumber] at hn
    cases hn
  · intro code i x hb hx
    obtain ⟨y, hy, hfloat⟩ := Option.bind_eq_some_iff.1 hx
    rw [← Array.getElem?_toList] at hy
    rw [hb] at hfloats
    have hnone := List.all_eq_true.1 hfloats y (List.mem_of_getElem? hy)
    rw [hfloat] at hnone
    cases hnone
  · intro v ho
    rw [ho] at horigin
    simp only [Bool.and_eq_true, Bool.not_eq_true'] at horigin
    exact ⟨Value.writable_of_isPlain horigin.1, horigin.2⟩
  · intro a ho
    rw [ho] at horigin
    simp only [Bool.and_eq_true, Bool.not_eq_true'] at horigin
    refine ⟨hnumber, horigin.1, fun v hv => Value.writable_of_isPlain ?_⟩
    simpa [hv] using horigin.2

/-- Does the word at the index only push values? -/
def Dictionary.onlyPushes (d : Dictionary) (i : Nat) : Bool :=
  match d.get? i with
  | none => false
  | some e => !e.isVariable && match e.body with
    | .builtin _ => false
    | .compiled code => decide (code.ops = (code.ops.filterMap Op.literal?).map .push ++ [.exit])

theorem Dictionary.standsAlone_of_onlyPushes {s : Session} {nesting i : Nat} {d : Dictionary}
    (h : d.onlyPushes i = true) : d.StandsAlone s nesting i := by
  unfold onlyPushes at h
  split at h
  · cases h
  · rename_i e he
    obtain ⟨hvariable, hbody⟩ := Bool.and_eq_true_iff.1 h
    split at hbody
    · cases hbody
    · rename_i code hcode
      refine standsAlone_of_pushes he (fun a ho => ?_) hcode (of_decide_eq_true hbody)
      rw [Entry.isVariable_eq_true_iff.2 ⟨a, ho⟩] at hvariable
      cases hvariable

namespace Session

variable {s : Session}

/-- Can all words that were defined be written so that they are read back, without floats? -/
def isPlain (s : Session) : Bool :=
  (s.dictionary.entries.toList.drop builtins.size).all (·.isPlain s.cells)

theorem writable_of_isPlain (h : s.isPlain = true) : s.Writable := by
  intro i e hi he
  refine Entry.writable_of_isPlain (List.all_eq_true.1 h e (List.mem_iff_getElem?.2 ?_))
  refine ⟨i - builtins.size, ?_⟩
  rw [List.getElem?_drop, Nat.add_sub_cancel' hi]
  simpa [Dictionary.get?] using he

/-- Is the next instruction of the word a push, or its end? -/
def pushesNext (f : CallFrame) : Bool :=
  match f.code[f.next]? with
  | some ⟨_, .push _⟩ | some ⟨_, .exit⟩ => true
  | _ => false

/-- Such an instruction reads no token and leaves the dictionary as it is. -/
theorem kept_of_pushesNext {t : Session} {f : CallFrame} {x : Definition}
    (hd : s.definition? = some x) (hf : s.frame = some f) (hnext : pushesNext f = true)
    (h : step s = .ok () t) : t.dictionary = s.dictionary ∧ t.sources = s.sources := by
  obtain ⟨u, hu, hdrop⟩ := exists_of_step_dropped h
  have kept (hb : u.dictionary = s.dictionary) (hs : u.sources = s.sources) :
      t.dictionary = s.dictionary ∧ t.sources = s.sources := by
    -- The source has an open definition, so it stays, whether or not the word is through.
    have hsame : t = u := by
      cases huf : u.frame with
      | none => exact eq_of_dropUsedSources huf (by rw [definition?, hs]; exact hd) hdrop
      | some g =>
        rw [dropUsedSources_of_frame huf] at hdrop
        cases hdrop
        rfl
    exact hsame ▸ ⟨hb, hs⟩
  unfold pushesNext at hnext
  split at hnext
  · rename_i hx
    have hb := ((yields_push hf hx).of_ok hu).2
    exact kept hb.dictionary hb.sources
  · rename_i hx
    cases hexit : s.returns.exitCall with
    | mk caller? returns =>
      cases caller? with
      | none =>
        have hlost := hu
        rw [operation_of_frame hf, runInstruction_eq hx] at hlost
        change leaveWord f _ = _ at hlost
        rw [leaveWord_eq] at hlost
        dsimp only at hlost
        rw [hexit] at hlost
        cases hlost
      | some caller =>
        have hb := ((yields_exit hf hx hexit).of_ok hu).2
        exact kept hb.dictionary hb.sources
  · cases hnext

/-- Is no definition open, or is what runs, and what may be run in its body, a word that only pushes
values? -/
def isTidy (s : Session) : Bool :=
  s.definition?.all fun x => s.frame.all pushesNext &&
    s.dictionary.entries.toList.zipIdx.all fun (e, i) =>
      e.isBuiltin || !e.immediate || !e.visible || (s.dictionary.forgetBackTo x.word).onlyPushes i

theorem tidy_of_isTidy {u : Session} {nesting : Nat} (h : s.isTidy = true) :
    s.Tidy (Dictionary.StandsAlone u nesting) := by
  refine ⟨fun t hc hf ht => ?_, fun token tokens x rest i _ hsources hi => ?_⟩
  · obtain ⟨x, hx⟩ := Option.isSome_iff_exists.1 hc
    obtain ⟨f, hf⟩ := Option.ne_none_iff_exists'.1 hf
    rw [isTidy, hx, Option.all_some, Bool.and_eq_true, hf] at h
    exact kept_of_pushesNext hx hf h.1 ht
  · rw [isTidy, definition?_of_sources hsources, Option.all_some, Bool.and_eq_true,
      List.all_eq_true] at h
    obtain ⟨name, e, code, -, he, himmediate, hb⟩ := Dictionary.interlude?_eq_some_iff.1 hi
    obtain ⟨-, hget, hanswers, -⟩ := Dictionary.find?_eq_some_iff.1 he
    have hmem : (e, i) ∈ s.dictionary.entries.toList.zipIdx :=
      List.mk_mem_zipIdx_iff_getElem?.2 (by simpa [Dictionary.get?] using hget)
    have hvisible : e.visible = true := (Bool.and_eq_true_iff.1 hanswers).1
    refine Dictionary.standsAlone_of_onlyPushes ?_
    simpa [Entry.isBuiltin, hb, himmediate, hvisible] using h.2 (e, i) hmem

/-- Where the moves lead, if the session is tidy on the whole way. -/
def tidyEnd? : List Move → Session → Option Session
  | [], s => if s.isTidy then some s else none
  | m :: moves, s =>
    if s.isTidy then
      match remains (m.run s) with
      | .ok t => tidyEnd? moves t
      | .error _ => none
    else none

theorem isTidy_of_tidyEnd? {moves : List Move} {t : Session} (h : tidyEnd? moves s = some t) :
    play moves s = .ok t ∧ ∀ u, Visits moves s u → u.isTidy = true := by
  induction moves generalizing s with
  | nil =>
    unfold tidyEnd? at h
    split at h
    · rename_i hs
      cases h
      exact ⟨rfl, fun u hu => eq_of_visits_nil hu ▸ hs⟩
    · cases h
  | cons m moves ih =>
    unfold tidyEnd? at h
    split at h
    · rename_i hs
      cases hr : remains (m.run s) with
      | error b =>
        rw [hr] at h
        cases h
      | ok u =>
        rw [hr] at h
        obtain ⟨hplay, htidy⟩ := ih h
        refine ⟨by rw [play, hr]; exact hplay, fun v hv => ?_⟩
        rcases visits_cons hr hv with rfl | hv
        · exact hs
        · exact htidy v hv
    · cases h

/-- Enough steps to define four words, the second of which runs the first one in its definition. -/
def fourWords : List Move :=
  .enqueue inputPath ": ONE 1 ; IMMEDIATE : SQ ONE DUP * ; 5 CONSTANT C VARIABLE V 7 V !" ::
    List.replicate 19 .step

/-- An immediate word, a square, a constant and a variable with a value are made again. -/
theorem source_recreates_fourWords : ∃ s, Visits fourWords (ofConfig .standard) s ∧
    s.dictionary.size = builtins.size + 4 ∧
    ∃ fuel t, evaluate fuel s.source (ofConfig .standard) = .ok () t ∧ t.hasPending = false ∧
      s.Recreates t := by
  have hend : (tidyEnd? fourWords (ofConfig .standard)).map (fun s =>
      (s.definition?.isNone, s.isPlain, s.dictionary.size, s.dictionary.variableCount)) =
        some (true, true, builtins.size + 4, 1) := by
    simp only [fourWords, tidyEnd?, Move.run, enqueue]
    rw [Pending.ofSource_eq 80 (by decide)]
    decide +kernel
  obtain ⟨s, hs, hview⟩ := Option.map_eq_some_iff.1 hend
  simp only [Prod.mk.injEq] at hview
  obtain ⟨hd, hplain, hsize, hcount⟩ := hview
  obtain ⟨hplay, htidy⟩ := isTidy_of_tidyEnd? hs
  have hv : Visits fourWords (ofConfig .standard) s := .ending hplay
  refine ⟨s, hv, hsize, source_recreates (by simp [fourWords]) (by simp [fourWords])
    (fun t ht => tidy_of_isTidy (htidy t ht)) hv
    (Option.isNone_iff_eq_none.1 hd) (writable_of_isPlain hplain) (by decide) (by decide) ?_
    (by decide)⟩
  rw [hcount]
  decide

/-- Is the entry at an index immediate? -/
def immediateAt (i : Nat) (s : Session) : Option Bool :=
  (s.dictionary.get? i).map (·.immediate)

theorem Recreates.immediateAt {t : Session} (h : s.Recreates t) (i : Nat) :
    t.immediateAt i = s.immediateAt i := by
  have he := congrArg (fun d => (d.get? i).map (·.immediate)) h.words
  simpa [Session.immediateAt, Function.comp_def, Entry.unplaced] using he

/-- Is the entry at an index immediate once a fresh session has evaluated the source? -/
def immediateAfter (source : String) (i : Nat) : Option Bool :=
  match evaluate 10 source (ofConfig .standard) with
  | .ok _ t => t.immediateAt i
  | .error _ _ => none

/-- An immediate constant is written without `IMMEDIATE`. -/
theorem perform_immediateConstant : ∃ s t,
    perform 10 [.evaluate "5 CONSTANT C IMMEDIATE"] (ofConfig .standard) = .ok s ∧
      evaluate 10 s.source (ofConfig .standard) = .ok () t ∧ ¬ s.Recreates t := by
  have hmade : (perform 10 [.evaluate "5 CONSTANT C IMMEDIATE"] (ofConfig .standard)).toOption.map
      (fun s => (s.source, s.immediateAt 96)) = some ("5 CONSTANT C\n", some true) := by
    simp only [perform, Request.run, evaluate, processSource, enqueue]
    rw [Pending.ofSource_eq 30 (by decide)]
    decide +kernel
  have hloaded : immediateAfter "5 CONSTANT C\n" 96 = some false := by
    simp only [immediateAfter, evaluate, processSource, enqueue]
    rw [Pending.ofSource_eq 30 (by decide)]
    decide +kernel
  obtain ⟨s, hs, hview⟩ := Option.map_eq_some_iff.1 hmade
  obtain ⟨hsource, hi⟩ := Prod.mk.inj hview
  cases ht : evaluate 10 "5 CONSTANT C\n" (ofConfig .standard) with
  | error f t =>
    rw [immediateAfter, ht] at hloaded
    cases hloaded
  | ok a t =>
    rw [immediateAfter, ht] at hloaded
    refine ⟨s, t, eq_ok_of_toOption hs, hsource ▸ ht, fun h => ?_⟩
    have hsame := h.immediateAt 96
    rw [show t.immediateAt 96 = some false from hloaded, hi] at hsame
    cases hsame

end Session

end StackLang
