import StackLang.Proofs.Fault.Steps
import StackLang.Proofs.Framework.Lasting
import StackLang.Proofs.Session.Steps

/-!
# Sources that end inside a definition

A token can succeed and still be the last of a source that ends inside a definition.  Then the step
fails, but what the token has done is only to build that definition.

* `Settled`: a successful operation that an error wipes out if it comes now.
* `settled_operation`: every operation after which a source may end inside a definition.
-/

namespace StackLang

/-- Cutting back to an entry drops what was done to it. -/
theorem Dictionary.forgetBackTo_modify (d : Dictionary) (index : Nat) (f : Entry → Entry) :
    (d.modify index f).forgetBackTo index = d.forgetBackTo index := by
  refine congrArg Dictionary.mk (Array.ext_getElem? fun i => ?_)
  simp only [modify, Array.take_eq_extract, Array.getElem?_extract, Array.getElem?_modify]
  grind

theorem Dictionary.forgetBackTo_insert (d : Dictionary) (e : Entry) :
    (d.insert e).2.forgetBackTo d.size = d := by
  obtain ⟨entries⟩ := d
  refine congrArg Dictionary.mk (Array.ext_getElem? fun i => ?_)
  simp only [insert, size, Array.take_eq_extract, Array.getElem?_extract, Array.getElem?_push]
  grind

namespace Session

/-- In a consistent session, the first source is the only one with an open definition. -/
theorem Consistent.openWords {s : Session} (h : s.Consistent) :
    s.openWords = (s.definition?.map (·.word)).toList := by
  have hq := h.queued
  rw [openWords_eq, definition?]
  cases hs : s.sources with
  | nil => rfl
  | cons source rest =>
    rw [hs] at hq
    have hrest : (rest.map (·.definition)).filterMap (Option.map (·.word)) = [] := by
      rw [List.filterMap_map, List.filterMap_eq_nil_iff]
      intro p hp
      simp [hq p hp]
    cases hd : source.definition with
    | none => simp [hd, hrest]
    | some d => simp [hd, hrest]

theorem Consistent.cut_of_some {s : Session} (h : s.Consistent) {d : Definition}
    (hd : s.definition? = some d) : s.cut = s.dictionary.forgetBackTo d.word := by
  simp [cut, h.openWords, hd]

theorem Consistent.cut_of_none {s : Session} (h : s.Consistent) (hd : s.definition? = none) :
    s.cut = s.dictionary := by
  simp [cut, h.openWords, hd]

theorem Consistent.elsewhere {s : Session} (h : s.Consistent) (location : Option Location)
    (builtin : Option String) (calls : List CallItem) (observers : Observers) :
    Consistent { s with location, builtin, calls, observers } :=
  ⟨h.entries, h.definition, h.reserved, h.queued, h.linked⟩

/-- If the first source were to end now inside a definition, its error would wipe out the
operation. -/
def Settled (s t : Session) : Prop :=
  t.frame = none → t.isCompiling = true → s.Undone t

end Session

namespace Action

open Session

/-! ## Instructions -/

/-- A word is running. -/
def Busy (s : Session) : Prop :=
  s.frame ≠ none

theorem insensitive_busy : Insensitive Busy fun _ _ => True where
  fails := fun _ _ => trivial
  data := fun _ _ h => h
  prints := fun _ h => h
  observe := fun _ h => h
  token := fun _ _ h => h
  putAside := fun _ h => h
  takeBack := fun _ h => h

theorem lasting_busy : Lasting Busy where
  write := fun _ h => h
  record := fun _ h => h
  sources := fun _ h => h
  putAside := fun _ h => h
  takeBack := fun _ h => h

theorem busy_callCompiled (index : Nat) (name : String) (code : Code) :
    Triple (fun _ => True) (callCompiled index name code) (fun _ => Busy) fun _ _ => True := by
  intro s _
  rw [callCompiled_eq]
  cases s.returns.push? (.call s.frame) with
  | some returns => exact Option.some_ne_none _
  | none => trivial

theorem busy_call (index : Nat) :
    Triple Busy (call index) (fun _ => Busy) fun _ _ => True := by
  refine Triple.view fun s => ?_
  split
  · exact insensitive_busy.triple_raise _
  · refine (insensitive_busy.triple_notify _).bind fun _ => ?_
    split
    · intro t ht
      split
      · rename_i h
        exact lasting_busy.callBuiltin ht h
      · trivial
    · exact (busy_callCompiled _ _ _).mono (fun _ _ => trivial) fun _ _ h => h

theorem busy_jump (target : Target) :
    Triple Busy (jump target) (fun _ => Busy) fun _ _ => True := by
  intro s hs
  unfold jump
  cases hf : s.frame with
  | none => exact hs
  | some frame =>
    cases target with
    | none => trivial
    | some index =>
      dsimp only
      by_cases h : index < frame.code.size
      · rw [if_pos h]
        exact Option.some_ne_none _
      · rw [if_neg h]
        trivial

theorem busy_pushReturn (item : ReturnItem) :
    Triple Busy (pushReturn item) (fun _ => Busy) fun _ _ => True := by
  intro s hs
  unfold pushReturn
  cases s.returns.push? item with
  | some returns => exact hs
  | none => trivial

theorem busy_closeLoop (word : String) :
    Triple Busy (closeLoop word) (fun _ => Busy) fun _ _ => True := by
  refine Triple.view fun s => ?_
  split
  · exact Triple.modify fun _ h => h
  · exact insensitive_busy.triple_raise _

theorem busy_advanceLoop (step : Int64) (target : Target) :
    Triple Busy (advanceLoop step target) (fun _ => Busy) fun _ _ => True := by
  refine Triple.view fun s => ?_
  split
  · exact insensitive_busy.triple_raise _
  · dsimp only
    split
    · refine Triple.bind (Q := fun _ => Busy) (Triple.modify fun _ h => h) fun _ => ?_
      exact busy_jump target
    · exact Triple.modify fun _ h => h

theorem busy_runLoop (kind : LoopKind) (target : Target) :
    Triple Busy (runLoop kind target) (fun _ => Busy) fun _ _ => True := by
  cases kind with
  | start direction => exact (insensitive_busy.triple_operands _).bind fun _ => busy_pushReturn _
  | startUnlessEqual direction =>
    refine (insensitive_busy.triple_operands _).bind fun _ => ?_
    split
    · exact busy_jump target
    · exact busy_pushReturn _
  | next => exact busy_advanceLoop 1 target
  | nextBy => exact (insensitive_busy.triple_operands _).bind fun _ => busy_advanceLoop _ _
  | leave => exact (busy_closeLoop _).bind fun _ => busy_jump target
  | unloop => exact busy_closeLoop _

/-- Every instruction but an exit leaves a word running. -/
theorem busy_runOp (frame : CallFrame) {op : Op} (hop : op ≠ .exit) :
    Triple Busy (runOp frame op) (fun _ => Busy) fun _ _ => True := by
  cases op with
  | callBuiltin index | callWord index => exact busy_call index
  | push v => exact insensitive_busy.triple_push v
  | branch target => exact busy_jump target
  | branchIfFalse target =>
    refine (insensitive_busy.triple_operands _).bind fun b => ?_
    split
    · exact busy_jump target
    · exact Triple.pure fun _ h => h
  | loop kind target => exact busy_runLoop kind target
  | loopIndex depth =>
    refine Triple.view fun s => ?_
    split
    · exact insensitive_busy.triple_push _
    · exact insensitive_busy.triple_raise _
  | exit => exact (hop rfl).elim
  | recurse => exact busy_call frame.word

/-- Only an exit leaves no word running, and what that does is dropped by an error. -/
theorem settled_runInstruction {frame : CallFrame} {s t : Session}
    (h : runInstruction frame s = .ok () t) : s.Settled t := by
  intro hf _
  cases hx : frame.code[frame.next]? with
  | none =>
    unfold runInstruction at h
    rw [hx] at h
    cases h
  | some x =>
    rw [runInstruction_eq hx] at h
    by_cases hop : x.op = .exit
    · rw [hop] at h
      have hl : Undone { s with
          frame := some { frame with next := frame.next + 1 }
          location := x.location.or s.location } t := (sheds_leaveWord frame).of_ok h
      exact ⟨hl.stack, hl.cells, hl.cut⟩
    · have hb := busy_runOp frame hop { s with
        frame := some { frame with next := frame.next + 1 }
        location := x.location.or s.location } (Option.some_ne_none _)
      rw [h] at hb
      exact (hb hf).elim

/-! ## Built-in words -/

theorem insensitive_unopened : Insensitive (fun s => s.definition? = none) fun _ _ => True where
  fails := fun _ _ => trivial
  data := fun _ _ h => h
  prints := fun _ h => h
  observe := fun _ h => h
  token := by
    intro s source behind rest t hs ht h
    rw [definition?_of_sources hs] at h
    exact (Pending.definition_of_nextToken? ht).trans h
  putAside := fun _ h => h
  takeBack := fun _ h => h

theorem unopened_defining {w : DefiningWord} (hw : w ≠ .colon) :
    Triple (fun s => s.definition? = none) w.run (fun _ s => s.definition? = none)
      fun _ _ => True := by
  have hdefine (e : Entry) : Triple (fun s => s.definition? = none) (discard (define e))
      (fun _ s => s.definition? = none) fun _ _ => True :=
    Triple.discard fun s hs => hs
  cases w with
  | colon => exact (hw rfl).elim
  | semicolon =>
    refine Triple.bind (Q := fun _ _ => False) (fun s hs => ?_) fun _ _ h => h.elim
    rw [edit_of_none hs]
    trivial
  | constant =>
    refine (insensitive_unopened.triple_operands _).bind fun _ => ?_
    refine insensitive_unopened.triple_nextName.bind fun x => ?_
    exact (insensitive_unopened.triple_operands _).bind fun v => hdefine _
  | «variable» =>
    refine insensitive_unopened.triple_nextName.bind fun x => ?_
    exact (insensitive_unopened.triple_allot 1).bind fun address => hdefine _
  | immediate =>
    refine Triple.view fun s => ?_
    split
    · exact Triple.modify fun _ h => h
    · exact insensitive_unopened.triple_raise _
  | forget =>
    refine insensitive_unopened.triple_nextName.bind fun x => ?_
    refine (insensitive_unopened.triple_lookup _).bind fun y => ?_
    dsimp only
    split
    · exact Triple.view fun s => triple_raise_bind fun _ _ => trivial
    · exact Triple.modify fun _ h => h
  | reset => exact Triple.modify fun _ h => h

/-- Outside of a definition, only a colon opens one. -/
theorem unopened_builtin {w : Builtin} (hw : w ≠ .defining .colon) :
    Triple (fun s => s.definition? = none) w.run (fun _ s => s.definition? = none)
      fun _ _ => True := by
  cases w with
  | stack w | math w => exact insensitive_unopened.triple_operands _
  | returns w => exact insensitive_unopened.triple_returns w
  | memory w => exact insensitive_unopened.triple_memory w
  | defining w => exact unopened_defining fun h => hw (h ▸ rfl)
  | control w =>
    refine Triple.view fun t s hs => ?_
    rw [edit_of_none hs]
    trivial
  | output w => exact insensitive_unopened.triple_output w

/-- A definition that was opened just now is wiped out with its entry. -/
theorem undone_opening {x : Location × String} {s : Session} {source : Pending}
    {rest : List Pending} (hs : s.sources = source :: rest) (ho : s.openWords = []) :
    s.Undone (opening x s) where
  stack := List.suffix_refl _
  cells := rfl
  cut := by
    have hrest : rest.filterMap (fun p => p.definition.map (·.word)) = [] := by
      rw [Session.openWords, hs, List.filterMap_cons] at ho
      split at ho
      · exact ho
      · cases ho
    have hcut : s.cut = s.dictionary := by simp [cut, ho]
    have hopen : (opening x s).openWords = [s.dictionary.size] := by
      simp [Session.openWords, opening, hs, hrest, Definition.opened]
    rw [hcut, cut, hopen]
    exact s.dictionary.forgetBackTo_insert _

theorem undone_openDefinition {s t : Session} (hs : s.Consistent) (hc : s.isCompiling = false)
    (h : DefiningWord.openDefinition s = .ok () t) : s.Undone t := by
  have ho : s.openWords = [] := by
    rw [hs.openWords, definition?_eq_none hc]
    rfl
  cases hsrc : s.sources with
  | nil =>
    rw [openDefinition_of_nil hsrc] at h
    cases h
  | cons source rest =>
    rw [openDefinition_of_source hc hsrc] at h
    cases hn : nextName s with
    | error e u =>
      rw [hn] at h
      cases h
    | ok x u =>
      rw [hn] at h
      cases h
      have ha := sheds_nextName_ahead.of_ok hn
      obtain ⟨source', rest', hu⟩ := sources_nextName hsrc hn
      exact ha.undone.trans (undone_opening hu (ha.openWords.trans ho))

/-- The end of a definition leaves none open. -/
theorem unopened_closeDefinition {s t : Session} (h : DefiningWord.closeDefinition s = .ok () t) :
    t.definition? = none := by
  have closed : Triple (fun _ => True) DefiningWord.closeDefinition
      (fun _ t => t.definition? = none) fun _ _ => True := by
    refine Triple.bind (Q := fun _ _ => True) (fun s _ => ?_) fun r => ?_
    · cases edit Definition.finish s <;> trivial
    · cases r with
      | error b => exact fun _ _ => trivial
      | ok code =>
        refine Triple.bind (Q := fun _ _ => True) (fun s _ => ?_) fun d => ?_
        · cases currentDefinition s <;> trivial
        · refine Triple.bind (Q := fun _ (t : Session) => t.definition? = none)
            (Triple.modify fun s _ => ?_) fun _ => Triple.modify fun s hs => hs
          unfold Session.definition?
          cases hs : s.sources with
          | nil => simp [hs]
          | cons source rest => rfl
  have := closed s trivial
  rwa [h] at this

/-- A word that is made immediate while it is being defined is wiped out with its entry. -/
theorem undone_makeImmediate {s t : Session} (hs : s.Consistent) (hc : s.isCompiling = true)
    (h : DefiningWord.makeImmediate s = .ok () t) : s.Undone t := by
  obtain ⟨d, hd⟩ := exists_definition hc
  have he : DefiningWord.makeImmediate s = .ok () { s with
      dictionary := s.dictionary.modify d.word fun e => { e with immediate := true } } := by
    unfold DefiningWord.makeImmediate
    rw [StackLang.get_bind, hd]
    rfl
  rw [he] at h
  cases h
  refine ⟨List.suffix_refl _, rfl, ?_⟩
  rw [hs.cut_of_some hd]
  have ho (dictionary : Dictionary) : openWords { s with dictionary } = [d.word] := by
    show s.openWords = _
    rw [hs.openWords, hd]
    rfl
  unfold cut
  rw [ho]
  exact s.dictionary.forgetBackTo_modify _ _

/-- Inside of a definition only those built-in words run that are meant to. -/
theorem settled_builtin {w : Builtin} {s t : Session} (h : w.run s = .ok () t) (hs : s.Consistent)
    (hrole : s.isCompiling = true → w.spec.role ≠ .plain) (ht : t.isCompiling = true) :
    s.Undone t := by
  have closed (hd : t.definition? = none) : s.Undone t := by
    rw [Session.isCompiling, hd] at ht
    cases ht
  cases hc : s.isCompiling with
  | true =>
    have hp := hrole hc
    cases w with
    | stack w | returns w | math w | memory w | output w => exact (hp (by cases w <;> rfl)).elim
    | control w => exact (sheds_control w).of_ok h
    | defining w =>
      cases w with
      | colon =>
        rw [show Builtin.run (.defining .colon) s = _ from openDefinition_of_compiling hc] at h
        cases h
      | semicolon => exact closed (unopened_closeDefinition h)
      | immediate => exact undone_makeImmediate hs hc h
      | _ => exact (hp rfl).elim
  | false =>
    by_cases hw : w = .defining .colon
    · subst hw
      exact undone_openDefinition hs hc h
    · have := unopened_builtin hw s (definition?_eq_none hc)
      rw [h] at this
      exact closed this

/-! ## Tokens -/

theorem mild_finishWord (name : String) : Sheds Mild (finishWord name) := by
  refine Sheds.view fun s => ?_
  refine mild_bind (fun _ => ⟨rfl, fun _ => ⟨List.suffix_refl _, rfl, rfl⟩⟩) fun _ => ?_
  split
  · exact fun _ => ⟨rfl, fun _ => ⟨List.suffix_refl _, rfl, rfl⟩⟩
  · exact Sheds.pure Mild.refl ()

theorem settled_callBuiltin {name : String} {w : Builtin} {s t : Session}
    (h : callBuiltin name w s = .ok () t) (hs : s.Consistent)
    (hrole : s.isCompiling = true → w.spec.role ≠ .plain) (ht : t.isCompiling = true) :
    s.Undone t := by
  unfold callBuiltin at h
  rw [modify_bind, bind_apply] at h
  cases hr : w.run { s with
      calls := ⟨name, s.location.getD .unspecified⟩ :: s.calls
      builtin := some name } with
  | error e u =>
    rw [hr] at h
    cases h
  | ok a u =>
    rw [hr] at h
    dsimp only at h
    rw [modify_bind] at h
    have hm := (mild_finishWord name).of_ok h
    have hf := (sheds_finishWord name).of_ok h
    have hu := settled_builtin hr (hs.elsewhere _ _ _ _) hrole (hm.isCompiling.symm.trans ht)
    exact ⟨hf.stack.trans hu.stack, hf.cells.trans hu.cells, hf.cut.trans hu.cut⟩

/-- A compiled word is only started; a built-in one runs at once. -/
theorem settled_call {index : Nat} {entry : Entry} {s t : Session} (hs : s.Consistent)
    (he : s.dictionary.get? index = some entry)
    (himm : s.isCompiling = true → entry.immediate = true) (h : call index s = .ok () t) :
    s.Settled t := by
  intro hf ht
  cases hb : entry.body with
  | compiled code =>
    rw [call_of_compiled he hb] at h
    have := busy_callCompiled index entry.name code { s with
      observers := s.observers.record (.starting entry.name entry.signature) } trivial
    rw [h] at this
    exact (this hf).elim
  | builtin w =>
    have hc : call index s = callBuiltin entry.name w { s with
        observers := s.observers.record (.starting entry.name entry.signature) } := by
      unfold call
      rw [StackLang.get_bind, he]
      dsimp only
      rw [hb]
      rfl
    rw [hc] at h
    have hu := settled_callBuiltin h (hs.elsewhere _ _ _ _)
      (fun hc => (hs.entries index entry he).role w hb (himm hc)) ht
    exact ⟨hu.stack, hu.cells, hu.cut⟩

theorem Mild.settled {s t : Session} (h : Mild s t) : s.Settled t :=
  fun _ ht => h.undone (h.isCompiling.symm.trans ht)

/-- A word that is found is refused, compiled or called. -/
theorem word_of_find? {s : Session} {name : String} {index : Nat} {entry : Entry}
    (hfind : s.dictionary.find? name = some (index, entry)) (location : Location) :
    word location name s =
      if (entry.compileOnly && !s.isCompiling) = true then
        .error (.script (s.error (.compileOnly entry.name))) s
      else if (s.isCompiling && !entry.immediate) = true then
        compile (some location) (if entry.isBuiltin then .callBuiltin index else .callWord index) s
      else call index s := by
  unfold word
  rw [bind_apply]
  unfold lookup
  rw [hfind]
  dsimp only
  rw [StackLang.get_bind]
  split
  · rfl
  · split <;> rfl

theorem settled_word {location : Location} {name : String} {s t : Session} (hs : s.Consistent)
    (h : word location name s = .ok () t) : s.Settled t := by
  cases hfind : s.dictionary.find? name with
  | none =>
    unfold word at h
    rw [bind_apply] at h
    unfold lookup at h
    rw [hfind] at h
    cases h
  | some found =>
    obtain ⟨index, entry⟩ := found
    rw [word_of_find? hfind] at h
    split at h
    · cases h
    · split at h
      · exact ((mild_compile _ _).of_ok h).settled
      · rename_i hcompile
        refine settled_call hs (Dictionary.find?_eq_some_iff.1 hfind).2.1 (fun hc => ?_) h
        simpa [hc] using hcompile

theorem settled_runLexeme {location : Location} {lexeme : Lexeme} {s t : Session}
    (h : runLexeme location lexeme s = .ok () t) (hs : s.Consistent) : s.Settled t := by
  cases lexeme with
  | number value => exact ((mild_literal _ _).of_ok h).settled
  | string form text => exact ((mild_stringLiteral _ _ _).of_ok h).settled
  | word name => exact settled_word hs h

/-- Keeping a token in the definition leaves it to be the open one. -/
theorem recordToken_ok {token : Token} {s t : Session} (h : recordToken token s = .ok () t) :
    t.frame = s.frame ∧ Mild s t := by
  unfold recordToken at h
  rw [StackLang.get_bind] at h
  cases hd : s.definition? with
  | none =>
    rw [hd] at h
    cases h
    exact ⟨rfl, Mild.refl s⟩
  | some d =>
    rw [hd] at h
    obtain ⟨source, rest, hs, hsd⟩ := definition?_eq_some hd
    obtain ⟨t', ht', hu⟩ := undone_setDefinition hd (d.record token.text) rfl
    rw [show setDefinition (some (d.record token.text)) s = _ from h] at ht'
    cases ht'
    cases h
    simp only [hs] at hu ⊢
    exact ⟨trivial, by simp [Session.isCompiling, Session.definition?, hs, hsd], fun _ => hu⟩

theorem settled_runToken {token : Token} {s t : Session} (hs : s.Consistent)
    (h : runToken token s = .ok () t) : s.Settled t := by
  unfold runToken at h
  rw [StackLang.get_bind, modify_bind, bind_apply] at h
  cases hr : runLexeme token.location token.lexeme { s with location := some token.location } with
  | error e u =>
    rw [hr] at h
    cases h
  | ok a u =>
    rw [hr] at h
    have hu := settled_runLexeme hr (hs.elsewhere _ _ _ _)
    have behind : t.frame = u.frame ∧ Mild u t := by
      dsimp only at h
      split at h
      · exact recordToken_ok h
      · cases h
        exact ⟨rfl, Mild.refl _⟩
    intro hf ht
    have hc := behind.2.isCompiling.symm.trans ht
    have hsu := hu (behind.1.symm.trans hf) hc
    have hut := behind.2.undone hc
    exact ⟨hut.stack.trans hsu.stack, hut.cells.trans hsu.cells, hut.cut.trans hsu.cut⟩

theorem settled_operation {s t : Session} (hs : s.Consistent) (h : operation s = .ok () t) :
    s.Settled t := by
  cases hframe : s.frame with
  | some frame =>
    rw [operation_of_frame hframe] at h
    exact settled_runInstruction h
  | none =>
    unfold operation at h
    rw [StackLang.get_bind, hframe] at h
    dsimp only at h
    rw [bind_apply] at h
    cases hn : nextToken? s with
    | error e u =>
      rw [hn] at h
      cases h
    | ok found u =>
      have ha := sheds_nextToken?.of_ok hn
      rw [hn] at h
      intro hf ht
      cases found with
      | none =>
        cases h
        exact ha.undone
      | some token =>
        have hv := (insensitive_valid fun _ => True).triple_nextToken? s ⟨hs, trivial⟩
        rw [hn] at hv
        exact ha.undone.trans (settled_runToken hv.toConsistent h hf ht)

end Action

end StackLang
