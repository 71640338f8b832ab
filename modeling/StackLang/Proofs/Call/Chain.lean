import StackLang.Proofs.Call.Failures
import StackLang.Proofs.Framework.InWord

/-!
# The words that are running

The running words are kept in three places: the frame of the innermost one, the frames of its
callers on the return stack, and the list of calls that errors carry.  Every operation that succeeds
leaves the three in step, and the list that an error carries is the one from before the operation
that fails, with the built-in word in front that the operation runs.

* `Session.active`: the frames of the running words.
* `Tracked`: the list of calls has one item for each of them, and the return stack is within its
  limit.
* `Raised`: which words a failure names.
* `triple_operation_tracked`: what an operation keeps, and what it blames if it fails.
-/

namespace StackLang

/-- The words that the error says were running, the innermost first. -/
def ScriptError.words? (e : ScriptError) : Option (List String) :=
  e.calls.map (·.map (·.word))

/-- The name of the built-in word at an index. -/
def Dictionary.builtinName? (d : Dictionary) (index : Nat) : Option String :=
  (d.get? index).bind fun e => if e.isBuiltin then some e.name else none

namespace Session

open ReturnStack
open StackLang.Action

/-- The frames of the compiled words that are running, the innermost first. -/
def active (s : Session) : List CallFrame :=
  s.frame.toList ++ callers s.returns.items

/-- The built-in word that the next operation runs. -/
def nextBuiltinName? (s : Session) : Option String :=
  s.nextCallee?.bind s.dictionary.builtinName?

/-- The list of calls is that of the running words, none of which is built in, and the return stack
has not grown beyond its limit. -/
structure Tracked (depth : Nat) (s : Session) : Prop where
  words : s.calls.map (·.word) = s.active.map (·.name)
  idle : s.builtin = none
  room : s.returns.items.length ≤ s.returns.limit
  limit : s.returns.limit = depth

/-- A failure while the built-in word `b` runs, of which the error says that `words` were running.
It is not that the marker of a call is missing, and no step runs out of fuel. -/
structure Raised (depth : Nat) (b : Option String) (words : List String) (fault : Fault)
    (t : Session) : Prop where
  builtin : t.builtin = b
  words : ∀ e, fault = .script e → e.words? = some words
  marker : ∀ word, fault ≠ .breach (.lostMarker word)
  fuel : fault ≠ .outOfFuel
  limit : t.returns.limit = depth

/-- The same words are running. -/
structure SameWords (s t : Session) : Prop where
  names : t.active.map (·.name) = s.active.map (·.name)
  calls : t.calls = s.calls
  builtin : t.builtin = s.builtin
  room : s.returns.items.length ≤ s.returns.limit → t.returns.items.length ≤ t.returns.limit
  limit : t.returns.limit = s.returns.limit

/-- What a failure blames while the words of `s` are running. -/
abbrev Blames (s : Session) : Fault → Session → Prop :=
  Raised s.returns.limit s.builtin (s.calls.map (·.word))

variable {α : Type} {depth : Nat} {s t u : Session} {f : CallFrame}

theorem SameWords.refl (s : Session) : SameWords s s :=
  ⟨rfl, rfl, rfl, id, rfl⟩

theorem SameWords.raised (h : SameWords s t) (cause : Cause) :
    Blames s (.script (t.error cause)) t where
  builtin := h.builtin
  words := by
    rintro e ⟨⟩
    rw [← h.calls]
    rfl
  marker := nofun
  fuel := nofun
  limit := h.limit

theorem Tracked.blames (hs : s.Tracked depth) :
    Blames s = Raised depth none (s.calls.map (·.word)) := by
  rw [Blames, hs.idle, hs.limit]

theorem SameWords.tracked (h : SameWords s t) (hs : s.Tracked depth) : t.Tracked depth where
  words := by rw [h.calls, h.names, hs.words]
  idle := h.builtin.trans hs.idle
  room := h.room hs.room
  limit := h.limit.trans hs.limit

/-- Another return stack with the same markers. -/
theorem SameWords.setReturns (h : SameWords s t) {returns : ReturnStack}
    (hb : SameBelow t.returns returns)
    (hr : t.returns.items.length ≤ t.returns.limit → returns.items.length ≤ t.returns.limit) :
    SameWords s { t with returns } where
  names := by
    have hn := h.names
    unfold active at hn ⊢
    rwa [hb.callers]
  calls := h.calls
  builtin := h.builtin
  room := fun hs => hb.limit.symm ▸ hr (h.room hs)
  limit := hb.limit.trans h.limit

/-- The running word goes on at another of its instructions. -/
theorem SameWords.setFrame (h : SameWords s t) {g : CallFrame} (hf : t.frame = some f)
    (hg : g.name = f.name) : SameWords s { t with frame := some g } where
  names := by
    rw [← h.names]
    simp [active, hf, hg]
  calls := h.calls
  builtin := h.builtin
  room := h.room
  limit := h.limit

theorem length_of_push? {r r' : ReturnStack} {item : ReturnItem} (h : r.push? item = some r') :
    r'.items.length ≤ r.limit := by
  have hs := isSome_push? r item
  rw [h] at hs
  rw [items_of_push? h, List.length_cons]
  exact of_decide_eq_true hs.symm

/-- No word changes which words are running while it runs. -/
theorem indifferent_sameWords (s : Session) : Indifferent (SameWords s) (Blames s) where
  fails := fun cause h => h.raised cause
  data := fun _ _ h => ⟨h.names, h.calls, h.builtin, h.room, h.limit⟩
  prints := fun _ h => ⟨h.names, h.calls, h.builtin, h.room, h.limit⟩
  observe := fun _ h => ⟨h.names, h.calls, h.builtin, h.room, h.limit⟩
  token := fun _ _ h => ⟨h.names, h.calls, h.builtin, h.room, h.limit⟩
  putAside := fun hr h =>
    h.setReturns (sameBelow_of_pushValue hr).1 fun _ => length_of_push? hr
  takeBack := by
    intro t v returns hr h
    refine h.setReturns (sameBelow_of_popValue? hr).1 fun hroom => ?_
    rw [items_of_popValue? hr, List.length_cons] at hroom
    exact Nat.le_of_succ_le hroom
  apart := fun _ _ _ _ _ h => ⟨h.names, h.calls, h.builtin, h.room, h.limit⟩
  stray := fun _ _ _ h => ⟨h.builtin, nofun, nofun, nofun, h.limit⟩

/-! ## Calls -/

theorem triple_finishWord_tracked (name : String) {E : Fault → Session → Prop} :
    Triple (Tracked depth) (finishWord name) (fun _ => Tracked depth) E := by
  intro t ht
  obtain ⟨observers, hw⟩ := exists_finishWord name t
  rw [hw]
  exact ⟨ht.words, ht.idle, ht.room, ht.limit⟩

/-- While a built-in word runs it comes first in the list of calls. -/
theorem triple_callBuiltin_tracked (hs : s.Tracked depth) (name : String) (word : Builtin) :
    Triple (· = s) (callBuiltin name word) (fun _ => Tracked depth)
      (Raised depth (some name) (name :: s.calls.map (·.word))) := by
  rw [← hs.limit]
  refine Triple.bind (Q := fun _ => SameWords { s with
    calls := ⟨name, s.location.getD .unspecified⟩ :: s.calls
    builtin := some name }) (Triple.modify ?_) fun _ => ?_
  · rintro t rfl
    exact ⟨rfl, rfl, rfl, id, rfl⟩
  refine ((indifferent_sameWords _).triple_builtin word).bind fun _ => ?_
  refine Triple.bind (Q := fun _ => Tracked s.returns.limit) (Triple.modify fun t ht => ?_)
    fun _ => triple_finishWord_tracked name
  refine ⟨?_, rfl, ht.room hs.room, ht.limit⟩
  have hn := ht.names
  rw [show t.calls.tail = s.calls by rw [ht.calls]; rfl, hs.words]
  exact hn.symm

theorem triple_callCompiled_tracked (hs : s.Tracked depth) (index : Nat) (name : String)
    (code : Code) :
    Triple (· = s) (callCompiled index name code) (fun _ => Tracked depth) (Blames s) := by
  rintro t rfl
  rw [callCompiled_eq]
  cases hr : t.returns.push? (.call t.frame) with
  | none => exact ⟨rfl, fun e he => by cases he; rfl, nofun, nofun, rfl⟩
  | some returns =>
    refine ⟨?_, hs.idle, ?_, (limit_of_push? hr).trans hs.limit⟩
    · have hactive : callers returns.items = t.active := by
        rw [items_of_push? hr, callers_call]
        rfl
      simp [active, hactive, hs.words]
    · rw [limit_of_push? hr]
      exact length_of_push? hr

/-- The call of a word puts it in front of the running words, unless it is built in and has come to
its end. -/
theorem triple_call_tracked (hs : s.Tracked depth) (index : Nat) :
    Triple (· = s) (call index) (fun _ => Tracked depth)
      (Raised depth (s.dictionary.builtinName? index)
        ((s.dictionary.builtinName? index).toList ++ s.calls.map (·.word))) := by
  refine Triple.get_bind ?_
  rintro u rfl
  unfold Dictionary.builtinName?
  cases he : u.dictionary.get? index with
  | none =>
    rintro t rfl
    exact hs.blames ▸ (SameWords.refl _).raised _
  | some entry =>
    have hn : Tracked depth { u with
        observers := u.observers.record (.starting entry.name entry.signature) } :=
      ⟨hs.words, hs.idle, hs.room, hs.limit⟩
    refine Triple.bind (Q := fun _ t => t = { u with
      observers := u.observers.record (.starting entry.name entry.signature) })
      (Triple.modify fun t ht => by rw [ht]) fun _ => ?_
    cases hb : entry.body with
    | builtin word =>
      have hbuiltin : entry.isBuiltin = true := by rw [Entry.isBuiltin, hb]
      simp only [Option.bind_some, hbuiltin, if_true]
      exact triple_callBuiltin_tracked hn entry.name word
    | compiled code =>
      have hbuiltin : entry.isBuiltin = false := by rw [Entry.isBuiltin, hb]
      simp only [Option.bind_some, hbuiltin, Bool.false_eq_true, if_false]
      have hc := triple_callCompiled_tracked hn index entry.name code
      rw [hn.blames] at hc
      exact hc

/-- Leaving a word drops it from the running words. -/
theorem triple_leaveWord_tracked (hs : s.Tracked depth) (hl : Linked s.frame s.returns.items)
    (hf : s.frame = some f) (g : CallFrame) :
    Triple (· = s) (leaveWord g) (fun _ => Tracked depth) (Blames s) := by
  rintro u rfl
  rw [leaveWord_eq]
  obtain ⟨caller, hcaller, -, -⟩ := linked_exitCall (hf ▸ hl)
  cases he : u.returns.exitCall with
  | mk found returns =>
    rw [he] at hcaller
    cases hcaller
    obtain ⟨hm, hlimit⟩ := fromMarker_exitCall he
    have hcallers : callers u.returns.items = caller.toList ++ callers returns.items := by
      rw [← callers_fromMarker, hm, callers_call]
    refine triple_finishWord_tracked g.name _ ⟨?_, hs.idle, ?_, hlimit.trans hs.limit⟩
    · have hw := congrArg List.tail hs.words
      rw [active, hf, hcallers] at hw
      rw [List.map_tail]
      exact hw
    · have hlength := length_fromMarker_le u.returns.items
      rw [hm, List.length_cons] at hlength
      show returns.items.length ≤ returns.limit
      rw [hlimit]
      exact Nat.le_trans (Nat.le_of_succ_le hlength) hs.room

/-! ## Instructions -/

theorem SameWords.popLoop (h : SameWords s t) {x : LoopFrame} {returns : ReturnStack}
    (hr : t.returns.popLoop? = some (x, returns)) : SameWords s { t with returns } := by
  refine h.setReturns (sameBelow_of_popLoop? hr).1 fun hroom => ?_
  rw [length_takeLoop? (takeLoop?_of_popLoop? hr).1] at hroom
  exact Nat.le_of_succ_le hroom

theorem SameWords.replaceLoop (h : SameWords s t) {x : LoopFrame}
    (hx : t.returns.loop? 0 = some x) (x' : LoopFrame) :
    SameWords s { t with returns := t.returns.replaceLoop x' } := by
  refine h.setReturns (sameBelow_replaceLoop hx _).1 fun hroom => ?_
  rwa [ReturnStack.replaceLoop, length_setLoop]

/-- The same words are running while the running word goes on. -/
theorem inWord_sameWords (s : Session) : InWord (SameWords s) (Blames s) where
  toDetached := (indifferent_sameWords s).toDetached
  goTo := fun _ hf h => h.setFrame hf rfl
  opens := fun hr h => h.setReturns (sameBelow_of_pushLoop hr).1 fun _ => length_of_push? hr
  advances := fun x' hx h => h.replaceLoop hx x'
  closes := fun hr h => h.popLoop hr
  outside := fun _ _ h => ⟨h.builtin, (fun _ he => by cases he), (fun _ he => by cases he),
    (fun he => by cases he), h.limit⟩
  ranOff := fun _ _ h => ⟨h.builtin, (fun _ he => by cases he), (fun _ he => by cases he),
    (fun he => by cases he), h.limit⟩

theorem quiet_sameWords (s : Session) : Quiet s (SameWords s) (Blames s) :=
  (inWord_sameWords s).quiet (.refl s)

/-! ## Operations -/

/-- An operation keeps the running words in step, and an error names those from before it with the
built-in word that it runs. -/
theorem triple_operation_tracked (hs : s.Tracked depth) (hl : Linked s.frame s.returns.items) :
    Triple (· = s) operation (fun _ => Tracked depth)
      (Raised depth s.nextBuiltinName? (s.nextBuiltinName?.toList ++ s.calls.map (·.word))) := by
  refine (quiet_sameWords s).triple_operation (fun t ht => ht.tracked hs) ?_ ?_
    (fun t _ ht => ⟨ht.words, ht.idle, ht.room, ht.limit⟩) ?_
  · rintro index hindex t ⟨ht, hd⟩
    have hcall := triple_call_tracked (ht.tracked hs) index t rfl
    rwa [hd, ht.calls, ← show s.nextBuiltinName? = s.dictionary.builtinName? index by
      rw [nextBuiltinName?, hindex, Option.bind_some]] at hcall
  · intro hn e t he
    rw [hs.blames] at he
    rw [nextBuiltinName?, hn]
    exact he
  · intro f hf hn location
    have hu := ((quiet_sameWords s).advance location hf).tracked hs
    have hlinked : Linked (some { f with next := f.next + 1 }) s.returns.items := by
      rwa [hf, linked_congr (g := { f with next := f.next + 1 })] at hl
    have hleave := triple_leaveWord_tracked hu hlinked rfl f
    rw [hu.blames] at hleave
    rw [nextBuiltinName?, hn]
    exact hleave

end Session

end StackLang
