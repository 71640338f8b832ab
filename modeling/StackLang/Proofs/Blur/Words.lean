import StackLang.Proofs.Blur.Sessions

/-!
# Built-in words in sessions that look alike

The built-in words see no difference between sessions that look alike, and bring about none that
does not look alike again.

* `tracks_builtin`: every built-in word does the same in both sessions.
-/

namespace StackLang.Blur

open Action

variable {b : Blur} {more : List Token}

/-! ## Memory and stacks -/

theorem tracks_fetchCell (address : UInt64) :
    b.Tracks more Eq (MemoryWord.fetchCell address) (MemoryWord.fetchCell address) := by
  intro s t h
  unfold MemoryWord.fetchCell MemoryWord.noCell
  rw [h.cells, h.currentWord]
  cases s.cells.fetch? address.toNat with
  | none => exact tracks_raise rfl s t h
  | some v => exact .ok rfl h

theorem tracks_storeCell (address : UInt64) (v : Value) :
    b.Tracks more Eq (MemoryWord.storeCell address v) (MemoryWord.storeCell address v) := by
  intro s t h
  unfold MemoryWord.storeCell MemoryWord.noCell
  rw [h.cells, h.currentWord]
  split
  · exact .ok rfl { h with cells := rfl }
  · exact tracks_raise rfl s t h

theorem tracks_memory (w : MemoryWord) : b.Tracks more Eq w.run w.run := by
  cases w with
  | fetch =>
    refine (tracks_operands _).bindSame fun address => ?_
    exact (tracks_fetchCell address).bindSame fun v => tracks_push v
  | store => exact (tracks_operands _).bindSame fun x => tracks_storeCell x.1 x.2
  | addTo =>
    refine (tracks_operands _).bindSame fun x => ?_
    refine (tracks_fetchCell x.1).bindSame fun current => ?_
    exact (tracks_operands _).bindSame fun n => tracks_storeCell x.1 _
  | cells => exact (tracks_operands _).bindSame fun n => tracks_push _
  | allot => exact (tracks_operands _).bindSame fun n => (tracks_allot n).discard
  | here =>
    refine Tracks.view fun s t h => ?_
    rw [h.cells]
    exact tracks_push _

theorem tracks_noValue : b.Tracks more Eq (ReturnWord.noValue : Action Unit) ReturnWord.noValue :=
  tracks_operands _

/-- The value on top of the return stack is the same, if there is one. -/
theorem popValue?_eq {s t : Session} (h : Near b more s t) :
    t.returns.popValue?.map (fun (v, rest) => (v, b.returns rest)) =
      s.returns.popValue?.map fun (v, rest) => (v, b.returns rest) := by
  rw [← b.popValue?_returns, ← b.popValue?_returns, h.returns]

theorem tracks_returns (w : ReturnWord) : b.Tracks more Eq w.run w.run := by
  cases w with
  | toReturn => exact (tracks_operands _).bindSame fun v => tracks_pushReturn rfl
  | fromReturn =>
    intro s t h
    unfold ReturnWord.run
    dsimp only
    rw [get_bind, get_bind]
    obtain ⟨hs, ht⟩ | ⟨x, x', hs, ht, hx⟩ := exists_of_map_eq (popValue?_eq h)
    · rw [hs, ht]
      exact tracks_noValue s t h
    · obtain ⟨hv, hr⟩ := Prod.mk.inj hx
      rw [hs, ht]
      dsimp only
      rw [hv]
      exact tracks_push x.1 _ _ { h with returns := hr }
  | copyReturn =>
    refine Tracks.view fun s t h => ?_
    rw [← b.peekValue?_returns t.returns, h.returns, b.peekValue?_returns]
    cases s.returns.peekValue? with
    | none => exact tracks_noValue
    | some v => exact tracks_push v

/-! ## Output -/

theorem tracks_see : b.Tracks more Eq OutputWord.see.run OutputWord.see.run := by
  refine tracks_nextName.bind fun x x' hx => (tracks_lookup hx.2).bind fun y y' hy => ?_
  refine Tracks.view fun s t h => ?_
  have he : b.entry y'.2 = b.entry y.2 := congrArg Prod.snd hy
  rw [← b.describe_dictionary t.dictionary, h.dictionary, he, b.describe_dictionary]
  exact tracks_print _

theorem tracks_output (w : OutputWord) : b.Tracks more Eq w.run w.run := by
  cases w with
  | print => exact (tracks_operands _).bindSame fun v => tracks_print _
  | printStack =>
    refine Tracks.view fun s t h => ?_
    rw [h.stack]
    exact tracks_print _
  | newLine | space => exact tracks_print _
  | spaces | type => exact (tracks_operands _).bindSame fun x => tracks_print _
  | emit =>
    refine (tracks_operands _).bindSame fun v => ?_
    cases v.int?.bind OutputWord.character? with
    | none => exact tracks_operands _
    | some c => exact tracks_print _
  | words =>
    refine Tracks.view fun s t h => ?_
    rw [← b.listing_dictionary t.dictionary, h.dictionary, b.listing_dictionary]
    exact tracks_print _
  | see => exact tracks_see

/-! ## Definitions -/

theorem tracks_control (w : ControlWord) : b.Tracks more Eq w.run w.run := by
  refine Tracks.view fun s t h => ?_
  have ht := goes_compileStep (b := b) t.location w
  rw [h.location] at ht
  exact tracks_edit (goes_compileStep s.location w) ht

/-- An entry for the same name, from a place that looks alike. -/
theorem entry_ofBody {x x' : Location × String} (hx : b.SameName x x') {c c' : Code}
    (hc : b.code c' = b.code c) :
    b.entry (.ofBody (some x'.1) x'.2 (.compiled c')) =
      b.entry (.ofBody (some x.1) x.2 (.compiled c)) := by
  simp [entry, Entry.ofBody, body, hx.1, hc, b.uppercase_eq hx.2]

theorem entry_valueEntry {x x' : Location × String} (hx : b.SameName x x') (v : Value)
    (signature : String) (origin : Origin) :
    b.entry (DefiningWord.valueEntry x'.1 x'.2 v signature origin) =
      b.entry (DefiningWord.valueEntry x.1 x.2 v signature origin) := by
  have hc : b.code #[⟨some x'.1, .push v⟩, ⟨none, .exit⟩] =
      b.code #[⟨some x.1, .push v⟩, ⟨none, .exit⟩] := by
    simp [code, instruction, hx.1]
  have he := entry_ofBody hx hc
  unfold DefiningWord.valueEntry
  exact congrArg (fun e : Entry => { e with signature, origin := some (b.origin origin) }) he

theorem tracks_openDefinition :
    b.Tracks more Eq DefiningWord.openDefinition DefiningWord.openDefinition := by
  refine Tracks.view fun s t h => ?_
  dsimp only
  rw [h.isCompiling]
  split
  · exact tracks_raise_bind rfl _ _
  · refine tracks_currentSource.bindSame fun _ => tracks_nextName.bind fun x x' hx => ?_
    have hcode : b.code #[] = b.code #[] := rfl
    have he := congrArg (fun e : Entry => { e with visible := false }) (entry_ofBody hx hcode)
    refine (tracks_define he).bindSame fun index => tracks_currentSource.bindSame fun _ => ?_
    refine tracks_keepDefinition ?_
    simp [definition, Definition.opened, Entry.ofBody, hx.1, b.uppercase_eq hx.2]

theorem entry_filled (c : Code) (source : String) (e : Entry) :
    b.entry (e.filled c source) = (b.entry e).filled (b.code c) (b.text source) := rfl

theorem tracks_closeDefinition :
    b.Tracks more Eq DefiningWord.closeDefinition DefiningWord.closeDefinition := by
  refine (tracks_edit goes_finish goes_finish).bind fun r r' hr => ?_
  cases r with
  | error x =>
    cases r' with
    | error x' =>
      cases hr
      exact tracks_breach x
    | ok c' => cases hr
  | ok c =>
    cases r' with
    | error x' => cases hr
    | ok c' =>
      have hc : b.code c' = b.code c := Except.ok.inj hr
      refine tracks_currentDefinition.bind fun d d' hd => ?_
      refine (tracks_setDefinition (d := none) rfl).bindSame fun _ => ?_
      have hw : d'.word = d.word := (congrArg Definition.word hd :)
      rw [hw]
      refine tracks_modifyEntry (fun e e' he => ?_) d.word
      show b.entry (e'.filled c' d'.source) = b.entry (e.filled c d.source)
      rw [entry_filled, entry_filled, he, hc, b.source_eq_of_definition hd]

theorem tracks_makeImmediate :
    b.Tracks more Eq DefiningWord.makeImmediate DefiningWord.makeImmediate := by
  refine Tracks.view fun s t h => ?_
  have hw : t.definition?.map (·.word) = s.definition?.map (·.word) := by
    have hd := congrArg (Option.map Definition.word) h.definition?
    rwa [Option.map_map, Option.map_map] at hd
  rw [hw, ← b.latestUserWord?_dictionary t.dictionary, h.dictionary,
    b.latestUserWord?_dictionary, h.currentWord]
  split
  · rename_i index _
    exact tracks_modifyEntry
      (fun e e' he => congrArg (fun x : Entry => { x with immediate := true }) he) index
  · exact tracks_raise rfl

theorem tracks_forgetWord :
    b.Tracks more Eq DefiningWord.forgetWord DefiningWord.forgetWord := by
  refine tracks_nextName.bind fun x x' hx => (tracks_lookup hx.2).bind fun y y' hy => ?_
  have hi : y'.1 = y.1 := (congrArg Prod.fst hy :)
  have he : b.entry y'.2 = b.entry y.2 := congrArg Prod.snd hy
  have hn : y'.2.name = y.2.name := (congrArg Entry.name he :)
  dsimp only
  rw [← b.isBuiltin_entry y'.2, he, b.isBuiltin_entry, hi, hn]
  split
  · refine Tracks.view fun s t h => ?_
    rw [h.currentWord]
    exact tracks_raise_bind rfl _ _
  · exact tracks_forgetBackTo _

theorem tracks_reset :
    b.Tracks more Eq (modify Session.resetDefinitions : Action Unit)
      (modify Session.resetDefinitions) := by
  refine Tracks.modify fun s t h => { h with stack := rfl, cells := ?_, dictionary := ?_ }
  · show t.cells.truncate t.cellMark = s.cells.truncate s.cellMark
    rw [h.cells, h.cellMark]
  · show b.dictionary (t.dictionary.forgetBackTo t.sessionMark) =
      b.dictionary (s.dictionary.forgetBackTo s.sessionMark)
    rw [← b.forgetBackTo_dictionary, ← b.forgetBackTo_dictionary, h.dictionary, h.sessionMark]

theorem tracks_defining (w : DefiningWord) : b.Tracks more Eq w.run w.run := by
  cases w with
  | colon => exact tracks_openDefinition
  | semicolon => exact tracks_closeDefinition
  | constant =>
    refine (tracks_operands _).bindSame fun _ => tracks_nextName.bind fun x x' hx => ?_
    exact (tracks_operands _).bindSame fun v => (tracks_define (entry_valueEntry hx v _ _)).discard
  | «variable» =>
    refine tracks_nextName.bind fun x x' hx => (tracks_allot 1).bindSame fun address => ?_
    exact (tracks_define (entry_valueEntry hx _ _ _)).discard
  | immediate => exact tracks_makeImmediate
  | forget => exact tracks_forgetWord
  | reset => exact tracks_reset

/-- A built-in word does the same in both sessions. -/
theorem tracks_builtin (w : Builtin) : b.Tracks more Eq w.run w.run := by
  cases w with
  | stack w => exact tracks_operands _
  | returns w => exact tracks_returns w
  | math w => exact tracks_operands _
  | memory w => exact tracks_memory w
  | defining w => exact tracks_defining w
  | control w => exact tracks_control w
  | output w => exact tracks_output w

end StackLang.Blur
