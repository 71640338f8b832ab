import StackLang.Proofs.Saved.Consuming
import StackLang.Proofs.Words.Variables

/-!
# Words that run inside of definitions

An immediate word runs while a definition is open.  When the definition is read again the word runs
again, perhaps with other things on the stack, and with the variables as they were left in the end.
So it has to do its work there, too.

* `Session.Ready`: a session where words have been read again, with the values of their variables.
* `Dictionary.StandsAlone`: a word that comes to its end there and changes nothing but the stack.
* `leadsTo_interlude`: a token of a body that runs such a word.
* `Dictionary.standsAlone_of_pushes`: a word that only pushes values is one.
-/

namespace StackLang

open Session Action

/-- The value of the variable at an index. -/
def Session.held? (s : Session) (i : Nat) : Option Value :=
  (s.dictionary.get? i).bind fun e =>
    match e.origin with
    | some (.variable a) => s.cells.fetch? a
    | _ => none

/-- No word is running, and calls may be nested this much deeper.  Every variable has a cell of its
own, and those among the first `known` words have the values that they have in `s`. -/
structure Session.Ready (s : Session) (nesting known : Nat) (t : Session) : Prop where
  frame : t.frame = none
  running : t.cancelled = false
  callable : 0 < nesting
  nested : t.returns.depth + nesting ≤ t.returns.limit
  unaliased : t.Unaliased
  values : ∀ i a, i < known → t.dictionary.HasVariable i a → t.cells.fetch? a = s.held? i

/-- Behind the words of `d` a definition is open, and its source goes on. -/
def Session.Defines (d : Dictionary) (t : Session) : Prop :=
  (∃ e : Entry, e.Like (Entry.reserved .unspecified "") d.size ∧
    t.dictionary.unplaced = (d.push e).unplaced) ∧
  ∃ token tokens x, t.sources = [⟨token :: tokens, some x⟩]

/-- If the word at the index is run while a definition is open behind the words of `d`, and the
variables have the values that they have in `s`, it comes to its end, whatever is on the stack, and
leaves all as it was but the stack. -/
def Dictionary.StandsAlone (s : Session) (nesting : Nat) (d : Dictionary) (index : Nat) : Prop :=
  ∀ t e code returns, s.Ready nesting d.size t → t.Defines d → t.dictionary.get? index = some e →
    e.body = .compiled code → t.returns.push? (.call none) = some returns →
      ∃ stack l, (executing t ⟨index, e.name, code, 0⟩ returns).LeadsTo
        (({ t with stack } : Session).knowing l t.dictionary)

section

variable {s t : Session} {nesting index known : Nat} {d d' : Dictionary} {x : Definition}
  {xs : List Lexeme} {token : Token} {tokens : List Token}

/-- Places do not matter. -/
theorem Dictionary.StandsAlone.of_unplaced (h : d.StandsAlone s nesting index)
    (hd : d'.unplaced = d.unplaced) : d'.StandsAlone s nesting index := by
  have hsize : d'.size = d.size := by rw [← size_unplaced, hd, size_unplaced]
  rintro t e code returns ht ⟨⟨y, hy, hdict⟩, hsource⟩
  refine h t e code returns (hsize ▸ ht) ⟨⟨y, hsize ▸ hy, ?_⟩, hsource⟩
  rw [hdict, unplaced_push, unplaced_push, hd]

namespace Dictionary

theorem hasVariable_marking {i a : Nat} {marks : Bool}
    (h : (d.marking index marks).HasVariable i a) : d.HasVariable i a := by
  obtain ⟨e, he, ho⟩ := h
  rcases get?_modify he with hx | ⟨e, -, hx, rfl⟩ <;> exact ⟨e, hx, ho⟩

theorem Unaliased.marking {here : Nat} (h : d.Unaliased here) (index : Nat) (marks : Bool) :
    (d.marking index marks).Unaliased here := by
  refine h.of_variables fun i e a he ho => ?_
  rcases get?_modify he with he | ⟨e', -, he', rfl⟩
  · exact ⟨e, he, ho, rfl⟩
  · exact ⟨e', he', ho, rfl⟩

end Dictionary

namespace Session.Ready

/-- Another stack, another place in the source, and other words with the same variables. -/
theorem knowing (h : s.Ready nesting known t) (hd : d.Unaliased t.cells.here)
    (hv : ∀ i a, d.HasVariable i a → t.dictionary.HasVariable i a) (stack : DataStack)
    (l : Option Location) : s.Ready nesting known (({ t with stack } : Session).knowing l d) :=
  ⟨h.frame, h.running, h.callable, h.nested, hd, fun i a hi ha => h.values i a hi (hv i a ha)⟩

/-- Another stack, and another place in the source. -/
theorem moved (h : s.Ready nesting known t) (stack : DataStack) (l : Option Location) :
    s.Ready nesting known (({ t with stack } : Session).knowing l t.dictionary) :=
  h.knowing h.unaliased (fun _ _ ha => ha) stack l

/-- The entry of the definition becomes immediate, or not. -/
theorem marking (h : s.Ready nesting known t) (index : Nat) (marks : Bool) (l : Option Location) :
    s.Ready nesting known (t.knowing l (t.dictionary.marking index marks)) :=
  h.knowing (h.unaliased.marking index marks) (fun _ _ => Dictionary.hasVariable_marking) t.stack l

theorem reading (h : s.Ready nesting known t) (l : Option Location) (tokens : List Token)
    (definition : Option Definition) :
    s.Ready nesting known ((t.knowing l t.dictionary).reading tokens definition []) :=
  ⟨h.frame, h.running, h.callable, h.nested, h.unaliased, h.values⟩

theorem exists_push (h : s.Ready nesting known t) :
    ∃ returns, t.returns.push? (.call none) = some returns := by
  have hcallable := h.callable
  have hnested := h.nested
  unfold ReturnStack.push?
  rw [if_neg (by omega)]
  exact ⟨_, rfl⟩

end Session.Ready

/-- A token of a body that runs a word is recorded, and nothing else comes of it but what the word
leaves on the stack. -/
theorem leadsTo_interlude (ht : s.Ready nesting x.word t) (hx : x.Underway t.dictionary xs)
    (hi : token.lexeme.interlude? t.dictionary = some index)
    (ha : (t.dictionary.forgetBackTo x.word).StandsAlone s nesting index) (hne : tokens ≠ []) :
    ∃ stack l, (t.feeding (token :: tokens) (some x)).LeadsTo
      ((({ t with stack } : Session).knowing l t.dictionary).feeding tokens
        (some (x.record token.text))) := by
  obtain ⟨name, e, code, htoken, he, himmediate, hb⟩ := Dictionary.interlude?_eq_some_iff.1 hi
  obtain ⟨returns, hreturns⟩ := ht.exists_push
  obtain ⟨next, tokens, rfl⟩ := List.exists_cons_of_ne_nil hne
  obtain ⟨y, hdict, hy⟩ := hx.exists_push
  have hdefines : ((t.knowing (some token.location) t.dictionary).reading (next :: tokens)
      (some (x.record token.text)) []).Defines (t.dictionary.forgetBackTo x.word) := by
    refine ⟨⟨y, hx.size_below.symm ▸ hy, ?_⟩, next, tokens, _, rfl⟩
    rw [← hdict]
    rfl
  obtain ⟨stack, l, hlead⟩ := ha _ e code returns (hx.size_below.symm ▸
    ht.reading (some token.location) (next :: tokens) (some (x.record token.text))) hdefines
    (Dictionary.find?_eq_some_iff.1 he).2.1 hb hreturns
  refine ⟨stack, l, .trans (.of_step (by simp [hasPending, feeding]) ht.running
    (yields_interlude ht.frame htoken he himmediate hb hreturns)
    (yields_dropUsedSources_of_frame (Option.some_ne_none _))) hlead⟩

/-! ## Words that only push -/

theorem ReturnStack.exitCall_of_push? {r r' : ReturnStack} {caller : Option CallFrame}
    (h : r.push? (.call caller) = some r') : r'.exitCall = (some caller, r) := by
  unfold push? at h
  split at h
  · cases h
  · cases h
    simp [exitCall, unwind]

/-- Code that pushes values and ends leaves them on the stack, and goes on in the source. -/
theorem leadsTo_pushes {values : List Value} {f : CallFrame} {returns : ReturnStack}
    (tokens : List Token) (definition : Option Definition) (hf : t.frame = none)
    (hr : t.cancelled = false) (hpush : t.returns.push? (.call none) = some returns)
    (hcode : f.code.ops.drop f.next = values.map .push ++ [.exit])
    (hd : tokens = [] → definition = none) :
    ∃ l, (executing (t.reading tokens definition []) f returns).LeadsTo
      ((({ t with stack := values.reverse ++ t.stack } : Session).knowing l t.dictionary).feeding
        tokens definition) := by
  induction values generalizing t f with
  | nil =>
    obtain ⟨l, hx, -⟩ := Code.exists_of_drop hcode
    have hexit := yields_exit (s := executing (t.reading tokens definition []) f returns) rfl hx
      (ReturnStack.exitCall_of_push? hpush)
    refine ⟨l.or t.location, .of_step rfl hr hexit ?_⟩
    rw [← hf]
    exact yields_dropUsedSources (s := t.knowing (l.or t.location) t.dictionary) hf hd
  | cons v values ih =>
    obtain ⟨l, hx, hbehind⟩ := Code.exists_of_drop hcode
    have hvalue := yields_push (s := executing (t.reading tokens definition []) f returns) rfl hx
    obtain ⟨l', hlead⟩ := ih (f := { f with next := f.next + 1 })
      (t := ({ t with stack := v :: t.stack } : Session).knowing (l.or t.location) t.dictionary)
      hf hr hpush hbehind
    refine ⟨l', .trans (.of_step rfl hr hvalue
      (yields_dropUsedSources_of_frame (Option.some_ne_none _))) ?_⟩
    rw [List.reverse_cons, List.append_assoc]
    exact hlead

/-- A word that only pushes values stands alone. -/
theorem Dictionary.standsAlone_of_pushes {e : Entry} {code : Code} {values : List Value}
    (he : d.get? index = some e) (ho : ∀ a, e.origin ≠ some (.variable a))
    (hb : e.body = .compiled code)
    (hcode : code.ops = values.map .push ++ [.exit]) :
    d.StandsAlone s nesting index := by
  rintro t e' code' returns ht ⟨⟨y, -, hdict⟩, token, tokens, x, hsources⟩ he' hb' hpush
  -- The word is the one that was there, but for its places.
  have hsame : e'.unplaced = e.unplaced := by
    have hget := congrArg (·.get? index) hdict
    simp only [get?_unplaced, get?_push, he', Option.map_some] at hget
    rw [if_neg (Nat.ne_of_lt (lt_size_of_get? he)), he] at hget
    exact Option.some.inj hget
  have hcode' : code'.ops.drop 0 = values.map .push ++ [.exit] := by
    rw [List.drop_zero, Entry.ops_of_unplaced hsame ho hb hb', hcode]
  obtain ⟨l, hlead⟩ := leadsTo_pushes (f := ⟨index, e'.name, code', 0⟩) (token :: tokens) (some x)
    ht.frame ht.running hpush hcode' nofun
  refine ⟨values.reverse ++ t.stack, l, ?_⟩
  rw [reading_of_sources hsources]
  exact hlead

end

end StackLang
