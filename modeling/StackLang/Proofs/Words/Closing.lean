import StackLang.Proofs.Termination.Steps
import StackLang.Proofs.Text.Uppercase

/-!
# Where a definition is installed

A colon reserves the entry at the end of the dictionary and remembers its index.  While the
definition is open the words that run inside of it can put further entries behind that one, and the
semicolon fills in the one that was reserved.

* `did_of_step`: what a step does that runs a built-in word is what that word does.
* `Outline.Reserves`: a definition is open, and its entry is the one that was reserved for it.
* `KeepsOpen`: moves behind which the same definition is open, with its entry still there.
* `installed_of_closed`: what the semicolon does then, and what the name means behind it.
-/

namespace StackLang.Session

open StackLang.Action

variable {s t u v : Session}

/-! ## Steps that run a built-in word -/

/-- The built-in word was run in a session like `s`, with this name behind it in the source, and `t`
is like the session that it led to. -/
def Did (x : Builtin × Option String) (s t : Session) : Prop :=
  ∃ u v, x.1.run u = .ok () v ∧ u.outline = s.outline ∧ u.definition? = s.definition? ∧
    nextName? u.sources = x.2 ∧ t.outline = v.outline

variable {x : Builtin × Option String}

theorem did_of_callBuiltin {name : String} {w : Builtin} (h : callBuiltin name w s = .ok () t) :
    Did (w, nextName? s.sources) s t := by
  unfold callBuiltin at h
  rw [modify_bind] at h
  obtain ⟨_, v, hv, h⟩ := exists_of_bind h
  rw [modify_bind] at h
  obtain ⟨observers, ho⟩ := exists_finishWord name { v with
    calls := v.calls.tail
    builtin := none }
  rw [ho] at h
  cases h
  exact ⟨_, v, hv, rfl, rfl, rfl, rfl⟩

theorem did_of_call {index : Nat} (hx : s.builtinAt? index = some x) (h : call index s = .ok () t) :
    Did x s t := by
  obtain ⟨e, he, hb⟩ := Option.bind_eq_some_iff.1 hx
  unfold call at h
  rw [StackLang.get_bind, he] at h
  obtain ⟨_, u, hu, h⟩ := exists_of_bind h
  cases hu
  split at hb
  · rename_i w hw
    cases hb
    rw [hw] at h
    have hd := did_of_callBuiltin h
    exact hd
  · cases hb

/-- What was done in a session like this one was done in this one. -/
theorem Did.congr (h : Did x u t) (ho : u.outline = s.outline)
    (hd : u.definition? = s.definition?) : Did x s t := by
  obtain ⟨u', v, hv, ho', hd', hn, ht⟩ := h
  exact ⟨u', v, hv, ho'.trans ho, hd'.trans hd, hn, ht⟩

theorem did_of_word {location : Location} {token : Token} {index : Nat}
    {name : String} (hl : token.lexeme = .word name) (hi : s.namedCallee? token = some index)
    (hx : s.builtinAt? index = some x) (h : word location name s = .ok () t) : Did x s t := by
  rw [namedCallee?, hl] at hi
  obtain ⟨⟨i, e⟩, hfind, hi⟩ := Option.bind_eq_some_iff.1 hi
  obtain ⟨_, u, hu, h⟩ := exists_of_bind h
  unfold lookup at hu
  rw [hfind] at hu
  cases hu
  dsimp only at hi h
  rw [StackLang.get_bind] at h
  split at hi
  · cases hi
  · rename_i hc
    cases hi
    split at h
    · cases h
    · exact did_of_call hx h

theorem did_of_token {token : Token} {index : Nat} (hi : s.namedCallee? token = some index)
    (hx : s.builtinAt? index = some x) (h : runToken token s = .ok () t) : Did x s t := by
  cases hl : token.lexeme with
  | number value =>
    rw [namedCallee?, hl] at hi
    cases hi
  | string form text =>
    rw [namedCallee?, hl] at hi
    cases hi
  | word name =>
    unfold runToken at h
    rw [StackLang.get_bind, modify_bind, hl] at h
    obtain ⟨_, u, hu, h⟩ := exists_of_bind h
    have hr := did_of_word (s := { s with location := some token.location }) hl hi hx hu
    replace hr : Did x s u := hr.congr rfl rfl
    split at h
    · obtain ⟨u', v, hv, ho, hd, hn, ht⟩ := hr
      exact ⟨u', v, hv, ho, hd, hn, (outline_recordToken h).trans ht⟩
    · cases h
      exact hr

theorem did_of_operation (hx : s.nextBuiltin? = some x) (h : operation s = .ok () t) :
    Did x s t := by
  unfold nextBuiltin? at hx
  cases hf : s.frame with
  | some f =>
    rw [hf] at hx
    obtain ⟨index, hi, hx⟩ := Option.bind_eq_some_iff.1 hx
    rw [callee?, hf, Option.bind_some] at hi
    obtain ⟨y, hy, hi⟩ := Option.bind_eq_some_iff.1 hi
    rw [operation_of_frame hf, runInstruction_eq hy, runOp_of_callee? hi] at h
    have hr := did_of_call (s := { s with
      frame := some { f with next := f.next + 1 }
      location := y.location.or s.location }) hx h
    exact hr.congr (by simp [outline, hf, definition?]) rfl
  | none =>
    rw [hf] at hx
    dsimp only at hx
    split at hx
    · cases hx
    · rename_i source rest hs
      split at hx
      · cases hx
      · rename_i token behind ht
        obtain ⟨index, hi, hx⟩ := Option.bind_eq_some_iff.1 hx
        have hd : (behind :: rest).head?.bind (·.definition) = s.definition? := by
          rw [definition?_of_sources hs, ← Pending.definition_of_nextToken? ht]
          rfl
        have hn : namedCallee? { s with sources := behind :: rest } token =
            s.namedCallee? token := by
          have hc : isCompiling { s with sources := behind :: rest } = s.isCompiling :=
            congrArg Option.isSome hd
          unfold namedCallee?
          rw [hc]
        unfold operation at h
        rw [StackLang.get_bind, hf] at h
        obtain ⟨found, u, hu, h⟩ := exists_of_bind h
        unfold nextToken? at hu
        rw [hs] at hu
        dsimp only at hu
        rw [ht] at hu
        cases hu
        have hr := did_of_token (s := { s with sources := behind :: rest }) (hn.trans hi) hx h
        exact hr.congr (outline_ahead hd s.stack s.cells s.dictionary) hd

/-- What a step does that runs a built-in word is what the word does. -/
theorem did_of_step (hs : s.Valid AbleOrBlank) (hx : s.nextBuiltin? = some x)
    (h : step s = .ok () t) : Did x s t := by
  obtain ⟨u, hu, h⟩ := exists_of_step_dropped h
  obtain ⟨u', v, hv, ho, hd, hn, ht⟩ := did_of_operation hx hu
  exact ⟨u', v, hv, ho, hd, hn, (outline_dropUsedSources (consistent_operation hs hu) h).trans ht⟩

/-- Where a built-in word is next, something is in flight. -/
theorem hasPending_of_nextBuiltin? (hx : s.nextBuiltin? = some x) : s.hasPending = true := by
  rw [hasPending_iff]
  refine Decidable.byContradiction fun h => ?_
  rw [not_or, not_not, not_not] at h
  unfold nextBuiltin? at hx
  rw [h.1, h.2] at hx
  cases hx

/-! ## The two words -/

/-- A colon that succeeds reserves the entry at the end of the dictionary. -/
theorem outline_of_openDefinition (h : DefiningWord.openDefinition s = .ok () t) :
    ∃ location name, nextName? s.sources = some name ∧ t.outline = { s.outline with
      dictionary := (s.dictionary.insert (Entry.reserved location name)).2
      definition := some (s.dictionary.size, #[]) } := by
  cases hc : s.isCompiling with
  | true =>
    rw [openDefinition_of_compiling hc] at h
    cases h
  | false =>
    cases hsrc : s.sources with
    | nil =>
      rw [openDefinition_of_nil hsrc] at h
      cases h
    | cons source rest =>
      rw [openDefinition_of_source hc hsrc] at h
      cases hn : nextName s with
      | error e u =>
        rw [hn] at h
        cases h
      | ok found u =>
        rw [hn] at h
        cases h
        obtain ⟨source', rest', hu⟩ := sources_nextName hsrc hn
        obtain ⟨hname, sources, rfl, -⟩ := exists_of_nextName hn
        obtain rfl : sources = source' :: rest' := hu
        exact ⟨found.1, found.2, hsrc ▸ hname, rfl⟩

/-- A semicolon that succeeds fills in the entry of the open definition. -/
theorem outline_of_closeDefinition (h : DefiningWord.closeDefinition s = .ok () t) :
    ∃ d, s.definition? = some d ∧ t.outline = { s.outline with
      dictionary := s.dictionary.modify d.word (Entry.filled (d.code.push ⟨none, .exit⟩) d.source)
      definition := none } := by
  unfold DefiningWord.closeDefinition at h
  obtain ⟨r, u, hu, h⟩ := exists_of_bind h
  obtain ⟨source, rest, d, d', hs, hd, hf, rfl⟩ := exists_of_edit hu
  rw [Definition.finish_eq] at hf
  split at hf
  · cases hf
  · split at hf
    · cases hf
      cases h
    · cases hf
      cases h
      exact ⟨d, (definition?_of_sources hs).trans hd, rfl⟩

/-! ## While the definition is open -/

/-- The definition with this entry is open.  The entry is the one that was reserved, but the word
may have been made immediate. -/
structure Outline.Reserves (o : Outline) (index : Nat) (slot : Entry) : Prop where
  definition : ∃ code, o.definition = some (index, code)
  entry : ∃ immediate, o.dictionary.get? index = some { slot with immediate }

namespace Outline.Reserves

variable {o o' : Outline} {index : Nat} {slot : Entry}

/-- The entry stays where it is when others are put behind it. -/
theorem insert (h : o.Reserves index slot) (e : Entry) :
    ∃ immediate, (o.dictionary.insert e).2.get? index = some { slot with immediate } := by
  obtain ⟨immediate, he⟩ := h.entry
  refine ⟨immediate, ?_⟩
  rw [Dictionary.get?_insert_eq, if_neg (Nat.ne_of_lt (Dictionary.lt_size_of_get? he))]
  exact he

/-- It stays as it is when entries are dropped, unless it is one of them. -/
theorem forgetBackTo (h : o.Reserves index slot) {mark : Nat}
    (hk : (o.dictionary.forgetBackTo mark).get? index ≠ none) :
    ∃ immediate, (o.dictionary.forgetBackTo mark).get? index = some { slot with immediate } := by
  rw [Dictionary.get?_forgetBackTo_eq] at hk ⊢
  split at hk
  · rename_i hi
    rw [if_pos hi]
    exact h.entry
  · exact (hk rfl).elim

theorem makeImmediate (h : o.Reserves index slot) (i : Nat) :
    ∃ immediate, (o.dictionary.modify i fun e => { e with immediate := true }).get? index =
      some { slot with immediate } := by
  obtain ⟨immediate, he⟩ := h.entry
  rw [Dictionary.get?_modify_eq, he]
  split
  · exact ⟨true, rfl⟩
  · exact ⟨immediate, rfl⟩

/-- What an operation does inside of the definition. -/
theorem of_turn {b : Option (Builtin × Option String)} {name? : Option String}
    (h : o.Reserves index slot) (ht : Turn b name? o o') (hd : o'.definition ≠ none)
    (hk : o'.dictionary.get? index ≠ none) : o'.Reserves index slot := by
  obtain ⟨code, hcode⟩ := h.definition
  cases b with
  | none =>
    cases (ht : Passage _ o o') with
    | stays => exact h
    | enters | leaves => exact ⟨h.definition, h.entry⟩
    | compiles hd' =>
      rw [hcode] at hd'
      cases hd'
      exact ⟨⟨_, rfl⟩, h.entry⟩
  | some found =>
    obtain ⟨w, next?⟩ := found
    cases (ht : Revision next? o w o') with
    | keeps => exact ⟨h.definition, h.entry⟩
    | opens location name hd' =>
      rw [hcode] at hd'
      cases hd'
    | closes => exact (hd rfl).elim
    | constant | «variable» => exact ⟨h.definition, h.insert _⟩
    | makesImmediate => exact ⟨h.definition, h.makeImmediate _⟩
    | forgets | resets => exact ⟨h.definition, h.forgetBackTo hk⟩
    | builds hd' =>
      rw [hcode] at hd'
      cases hd'
      exact ⟨⟨_, rfl⟩, h.entry⟩

theorem of_trimmed (h : o.Reserves index slot) (ht : o.Trimmed o') (hd : o'.definition ≠ none)
    (hk : o'.dictionary.get? index ≠ none) : o'.Reserves index slot := by
  obtain ⟨⟨mark, hdict⟩, hdef, -⟩ := ht
  obtain ⟨⟨index', code'⟩, hd'⟩ := Option.ne_none_iff_exists'.1 hd
  obtain ⟨code, hcode⟩ := h.definition
  rw [hcode] at hdef
  cases hdef _ _ hd'
  rw [hdict] at hk
  exact ⟨⟨_, hd'⟩, hdict ▸ h.forgetBackTo hk⟩

/-- The definition has a hidden entry. -/
theorem reserved (h : o.Reserves index slot) (hv : slot.visible = false) : o.Reserved := by
  intro i code e hd he
  obtain ⟨code', hd'⟩ := h.definition
  obtain ⟨immediate, he'⟩ := h.entry
  rw [hd'] at hd
  cases hd
  rw [he'] at he
  cases he
  exact hv

end Outline.Reserves

/-! ## Runs -/

/-- The moves lead from `s` to `t`, a definition is open all along, and the entry at the index is
never removed. -/
structure KeepsOpen (index : Nat) (during : List Move) (s t : Session) : Prop where
  run : play during s = .ok t
  compiling : ∀ u, Visits during s u → u.isCompiling = true
  kept : ∀ u, Visits during s u → u.dictionary.get? index ≠ none

/-- One of the moves from `s` puts a word of this name into the dictionary, at this index. -/
def DefinesAt (moves : List Move) (s : Session) (index : Nat) (name : String) : Prop :=
  ∃ m u v e, Passes moves s m u v ∧ u.dictionary.size = index ∧
    v.dictionary = (u.dictionary.insert e).2 ∧ Text.uppercase e.name = name

variable {index : Nat} {slot : Entry} {during : List Move}

/-- The same definition is open all along, and its entry is the one that was reserved. -/
theorem KeepsOpen.reserves (h : KeepsOpen index during s t) (hs : s.Valid AbleOrBlank)
    (hr : s.outline.Reserves index slot) (hu : Visits during s u) :
    u.outline.Reserves index slot := by
  refine hu.induct (P := fun u => u.outline.Reserves index slot) hr fun m v w hp hv => ?_
  obtain ⟨-, -, -, -, hm⟩ := id hp
  have hd : w.outline.definition ≠ none := fun hn => by
    have hc := h.compiling w hp.after
    rw [isCompiling, Option.map_eq_none_iff.1 hn] at hc
    cases hc
  have hk := h.kept w hp.after
  rcases Outline.turn_or_trimmed_of_changed (changed_of_move (hp.before.valid hs) hm) with ht | ht
  · exact hv.of_turn ht hd hk
  · exact hv.of_trimmed ht hd hk

/-- The entries behind the reserved one were put there while the definition was open. -/
theorem KeepsOpen.defines (h : KeepsOpen index during s t) (hs : s.Valid AbleOrBlank)
    (hr : s.outline.Reserves index slot) (hhidden : slot.visible = false)
    (hsize : s.dictionary.size = index + 1) {i : Nat} {e : Entry} (hi : index < i)
    (he : t.dictionary.get? i = some e) : DefinesAt during s i e.name := by
  refine (Visits.ending h.run).induct (P := fun u => ∀ i e, index < i →
    u.dictionary.get? i = some e → DefinesAt during s i e.name) (fun i e hi he => ?_)
    (fun m u v hp hu i e hi he => ?_) i e hi he
  · have hlt := Dictionary.lt_size_of_get? he
    omega
  obtain ⟨-, -, -, -, hm⟩ := id hp
  have hc := changed_of_move (hp.before.valid hs) hm
  cases hprev : u.dictionary.get? i with
  | some e' =>
    have hreserved := (h.reserves hs hr hp.before).reserved hhidden
    rcases Outline.entry_of_changed hreserved hc hprev with hnone | ⟨x, hx, hsame⟩
    · rw [hnone] at he
      cases he
    · rw [hx] at he
      cases he
      exact hsame.name ▸ hu i e' hi hprev
  | none =>
    -- The index is new, so that the move has defined a word there.
    have hlt := Dictionary.lt_size_of_get? he
    have hge := Dictionary.get?_eq_none_iff.1 hprev
    obtain ⟨⟨x, hdict⟩, -⟩ := (Outline.size_of_changed hc).resolve_left (by omega)
    rw [hdict, Dictionary.size_insert] at hlt
    obtain rfl : u.dictionary.size = i := by omega
    rw [hdict, Dictionary.get?_insert_eq, if_pos rfl] at he
    cases he
    exact ⟨m, u, v, x, hp, rfl, hdict, rfl⟩

/-- The last entry with a property is this one that has it, or one behind it. -/
theorem exists_lastBelow {d : Dictionary} {p : Entry → Bool} {e : Entry} {bound : Nat}
    (he : d.get? index = some e) (hp : p e = true) (hb : index < bound) :
    ∃ i x, index ≤ i ∧ d.lastBelow p bound = some (i, x) := by
  induction bound with
  | zero => cases hb
  | succ n ih =>
    unfold Dictionary.lastBelow
    rcases Nat.lt_succ_iff_lt_or_eq.1 hb with hlt | rfl
    · split
      · split
        · exact ⟨n, _, Nat.le_of_lt hlt, rfl⟩
        · exact ih hlt
      · exact ih hlt
    · rw [show d.entries[index]? = some e from he]
      dsimp only
      rw [if_pos hp]
      exact ⟨index, e, Nat.le_refl _, rfl⟩

/-- A name means the visible entry that carries it, or one behind that. -/
theorem find?_of_get? {d : Dictionary} {name : String} {e : Entry} (he : d.get? index = some e)
    (hvisible : e.visible = true) (hname : e.name = Text.uppercase name) :
    d.find? name = some (index, e) ∨ ∃ i x, index < i ∧ d.find? name = some (i, x) := by
  have hanswers : Dictionary.answers (Text.uppercase name) e = true := by
    simp [Dictionary.answers, hvisible, hname]
  obtain ⟨i, x, hi, hf⟩ := exists_lastBelow he hanswers (Dictionary.lt_size_of_get? he)
  rcases Nat.lt_or_eq_of_le hi with hlt | rfl
  · exact .inr ⟨i, x, hlt, hf⟩
  · obtain ⟨-, hx, -⟩ := Dictionary.find?_eq_some_iff.1 hf
    rw [he] at hx
    cases hx
    exact .inl hf

/-- A colon that succeeds leaves a definition open, with a hidden entry at the end of the
dictionary. -/
theorem reserves_of_colon {name : String} (hs : s.Valid AbleOrBlank)
    (hcolon : s.nextBuiltin? = some (.defining .colon, some name)) (hu : step s = .ok () u) :
    ∃ slot, u.outline.Reserves s.dictionary.size slot ∧
      u.dictionary.get? s.dictionary.size = some slot ∧ slot.visible = false ∧
      slot.name = Text.uppercase name ∧ u.dictionary.size = s.dictionary.size + 1 := by
  obtain ⟨a, b, hrun, ha, -, hnext, hb⟩ := did_of_step hs hcolon hu
  obtain ⟨location, name', hname, ho⟩ := outline_of_openDefinition hrun
  obtain rfl : name' = name := Option.some.inj (hname.symm.trans hnext)
  have hdict : a.dictionary = s.dictionary := congrArg Outline.dictionary ha
  rw [hdict] at ho
  have hu : u.outline = { s.outline with
      dictionary := (s.dictionary.insert (Entry.reserved location name')).2
      definition := some (s.dictionary.size, #[]) } := by
    rw [hb, ho, ha]
  have hinsert : u.dictionary = (s.dictionary.insert (Entry.reserved location name')).2 :=
    congrArg Outline.dictionary hu
  have hdefinition : u.outline.definition = some (s.dictionary.size, #[]) :=
    congrArg Outline.definition hu
  obtain ⟨slot, hslot⟩ : ∃ slot, slot = { Entry.reserved location name' with
      name := Text.uppercase (Text.uppercase name')
      mark := s.dictionary.size } := ⟨_, rfl⟩
  have hget : u.dictionary.get? s.dictionary.size = some slot := by
    rw [hinsert, Dictionary.get?_insert_eq, if_pos rfl, hslot]
    rfl
  have hhidden : slot.visible = false := by rw [hslot]; rfl
  have hentry : { slot with immediate := false } = slot := by rw [hslot]; rfl
  refine ⟨slot, ⟨⟨_, hdefinition⟩, false, hentry ▸ hget⟩, hget, hhidden, ?_, ?_⟩
  · rw [hslot]
    exact Text.uppercase_uppercase name'
  · rw [hinsert, Dictionary.size_insert]

/-- A semicolon that succeeds fills in the entry of the open definition and closes it. -/
theorem closed_of_semicolon {next? : Option String} (hs : s.Valid AbleOrBlank)
    (hsemicolon : s.nextBuiltin? = some (.defining .semicolon, next?)) (ht : step s = .ok () t) :
    ∃ d, s.definition? = some d ∧ t.isCompiling = false ∧
      t.dictionary =
        s.dictionary.modify d.word (Entry.filled (d.code.push ⟨none, .exit⟩) d.source) := by
  obtain ⟨a, b, hrun, ha, hd, -, hb⟩ := did_of_step hs hsemicolon ht
  obtain ⟨d, hdef, ho⟩ := outline_of_closeDefinition hrun
  have hdict : a.dictionary = s.dictionary := congrArg Outline.dictionary ha
  rw [ho, hdict] at hb
  have hnone : t.definition? = none :=
    Option.map_eq_none_iff.1 (congrArg Outline.definition hb)
  exact ⟨d, hd.symm.trans hdef, by rw [isCompiling, hnone]; rfl, congrArg Outline.dictionary hb⟩

/-! ## Runs that can be computed -/

def behindStep? (s : Session) : Option Session :=
  match step s with
  | .ok _ t => some t
  | .error _ _ => none

/-- The session behind so many moves that make one step each, if a definition and the entry at the
index are there all along. -/
def underway? (index : Nat) : (count : Nat) → Session → Option Session
  | 0, s => if s.isCompiling && (s.dictionary.get? index).isSome then some s else none
  | n + 1, s =>
    if s.isCompiling && (s.dictionary.get? index).isSome then
      match remains (Move.step.run s) with
      | .ok t => underway? index n t
      | .error _ => none
    else none

/-- The sessions before and behind the first colon behind the moves, and before and behind the
semicolon after so many further steps. -/
def closing? (before : List Move) (count : Nat) :
    Option (Session × Session × Session × Session) := do
  let s ← (play before (ofConfig .standard)).toOption
  let u ← behindStep? s
  let v ← underway? s.dictionary.size count u
  let t ← behindStep? v
  return (s, u, v, t)

theorem eq_of_visits_nil (h : Visits [] s t) : t = s := by
  obtain ⟨before, after, hnil, ht⟩ := h
  obtain ⟨rfl, -⟩ := List.append_eq_nil_iff.1 hnil.symm
  cases ht
  rfl

/-- A first move leads on to what the others visit. -/
theorem visits_cons {m : Move} {moves : List Move} (hm : remains (m.run s) = .ok t)
    (h : Visits (m :: moves) s u) : u = s ∨ Visits moves t u := by
  obtain ⟨before, after, hmoves, hu⟩ := h
  cases before with
  | nil =>
    cases hu
    exact .inl rfl
  | cons m' before =>
    cases hmoves
    rw [play, hm] at hu
    exact .inr ⟨before, after, rfl, hu⟩

theorem KeepsOpen.nil (hc : s.isCompiling = true) (hk : s.dictionary.get? index ≠ none) :
    KeepsOpen index [] s s :=
  ⟨rfl, fun _ hu => eq_of_visits_nil hu ▸ hc, fun _ hu => eq_of_visits_nil hu ▸ hk⟩

theorem KeepsOpen.cons {m : Move} {moves : List Move} (hc : s.isCompiling = true)
    (hk : s.dictionary.get? index ≠ none) (hm : remains (m.run s) = .ok t)
    (h : KeepsOpen index moves t u) : KeepsOpen index (m :: moves) s u := by
  refine ⟨?_, fun w hw => ?_, fun w hw => ?_⟩
  · rw [play, hm]
    exact h.run
  · rcases visits_cons hm hw with rfl | hw
    · exact hc
    · exact h.compiling w hw
  · rcases visits_cons hm hw with rfl | hw
    · exact hk
    · exact h.kept w hw

theorem keepsOpen_of_underway? {count : Nat} (h : underway? index count s = some t) :
    KeepsOpen index (List.replicate count .step) s t := by
  induction count generalizing s with
  | zero =>
    unfold underway? at h
    split at h
    · rename_i hopen
      rw [Bool.and_eq_true] at hopen
      cases h
      exact .nil hopen.1 (Option.isSome_iff_ne_none.1 hopen.2)
    · cases h
  | succ n ih =>
    unfold underway? at h
    split at h
    · rename_i hopen
      rw [Bool.and_eq_true] at hopen
      split at h
      · rename_i u hu
        exact .cons hopen.1 (Option.isSome_iff_ne_none.1 hopen.2) hu (ih h)
      · cases h
    · cases h

theorem of_behindStep? (h : s.behindStep? = some t) : step s = .ok () t := by
  unfold behindStep? at h
  split at h
  · rename_i hs
    cases h
    exact hs
  · cases h

theorem of_closing? {before : List Move} {count : Nat}
    (h : closing? before count = some (s, u, v, t)) :
    play before (ofConfig .standard) = .ok s ∧ step s = .ok () u ∧
      KeepsOpen s.dictionary.size (List.replicate count .step) u v ∧ step v = .ok () t := by
  unfold closing? at h
  obtain ⟨s', hs, h⟩ := Option.bind_eq_some_iff.1 h
  obtain ⟨u', hu, h⟩ := Option.bind_eq_some_iff.1 h
  obtain ⟨v', hv, h⟩ := Option.bind_eq_some_iff.1 h
  obtain ⟨t', ht, h⟩ := Option.bind_eq_some_iff.1 h
  cases h
  exact ⟨eq_ok_of_toOption hs, of_behindStep? hu, keepsOpen_of_underway? hv, of_behindStep? ht⟩

/-- What is next before the two steps, which entry is reserved, and what the name means behind
them. -/
structure ClosingView where
  colon : Option (Builtin × Option String)
  semicolon : Option (Builtin × Option String)
  reserved : Nat
  meaning : Option (Nat × Option Origin)
deriving DecidableEq

def closingView (name : String) : Session × Session × Session × Session → ClosingView
  | (s, _, v, t) => ⟨s.nextBuiltin?, v.nextBuiltin?, s.dictionary.size,
      (t.dictionary.find? name).map fun (i, e) => (i, e.origin)⟩

/-! ## What is installed -/

/-- A definition that a colon has opened and a semicolon closes is installed in the entry that the
colon reserved, if no move has removed that from the dictionary meanwhile, whatever words ran inside
of the definition.  The entry gets the code and the recorded tokens of the definition and becomes
visible, and no other entry is changed.  The name of the definition then means that entry, unless a
word of the same name was defined inside of the definition: then it means the newest of those.
Every sequence of requests is a run, by `exists_play_eq_perform`. -/
theorem installed_of_closed {config : Config} {before : List Move} {name : String}
    {next? : Option String} (hs : play before (ofConfig config) = .ok s)
    (hcolon : s.nextBuiltin? = some (.defining .colon, some name)) (hu : step s = .ok () u)
    (hopen : KeepsOpen s.dictionary.size during u v)
    (hsemicolon : v.nextBuiltin? = some (.defining .semicolon, next?))
    (ht : step v = .ok () t) :
    ∃ slot d immediate, u.dictionary.get? s.dictionary.size = some slot ∧
      slot.visible = false ∧ slot.name = Text.uppercase name ∧
      v.definition? = some d ∧ d.word = s.dictionary.size ∧
      v.dictionary.get? d.word = some { slot with immediate } ∧
      t.isCompiling = false ∧ t.dictionary.size = v.dictionary.size ∧
      (∀ i, i ≠ d.word → t.dictionary.get? i = v.dictionary.get? i) ∧
      ∃ e, e = Entry.filled (d.code.push ⟨none, .exit⟩) d.source { slot with immediate } ∧
        t.dictionary.get? d.word = some e ∧
        ∀ n, Text.uppercase n = Text.uppercase name →
          t.dictionary.find? n = some (d.word, e) ∨
            ∃ i x, d.word < i ∧ t.dictionary.find? n = some (i, x) ∧
              DefinesAt during u i (Text.uppercase name) := by
  have hvalid : s.Valid AbleOrBlank := valid_play (valid_ofConfig config fun _ h => by cases h) hs
  have huvalid := valid_step hvalid (hasPending_of_nextBuiltin? hcolon) hu
  have hv := Visits.ending hopen.run
  obtain ⟨slot, hreserves, hslot, hhidden, hname, hsize⟩ := reserves_of_colon hvalid hcolon hu
  obtain ⟨d, hd, hclosed, hdict⟩ := closed_of_semicolon (hv.valid huvalid) hsemicolon ht
  obtain ⟨⟨code, hcode⟩, immediate, hentry⟩ := hopen.reserves huvalid hreserves hv
  have hword : d.word = s.dictionary.size := by
    have houtline : v.outline.definition = some (d.word, d.code) := by simp [outline, hd]
    exact congrArg Prod.fst (Option.some.inj (houtline.symm.trans hcode))
  have hother (i : Nat) (hi : i ≠ d.word) : t.dictionary.get? i = v.dictionary.get? i := by
    rw [hdict, Dictionary.get?_modify_eq, if_neg (Ne.symm hi)]
  have hfilled : t.dictionary.get? d.word =
      some (Entry.filled (d.code.push ⟨none, .exit⟩) d.source { slot with immediate }) := by
    rw [hdict, Dictionary.get?_modify_eq, if_pos rfl, hword]
    exact congrArg (Option.map _) hentry
  refine ⟨slot, d, immediate, hslot, hhidden, hname, hd, hword, hword ▸ hentry, hclosed,
    hdict ▸ Dictionary.size_modify .., hother, _, rfl, hfilled, fun n hn => ?_⟩
  refine (find?_of_get? hfilled rfl (hname.trans hn.symm)).imp_right ?_
  rintro ⟨i, x, hi, hf⟩
  obtain ⟨-, hx, ha, -⟩ := Dictionary.find?_eq_some_iff.1 hf
  rw [hother i (Nat.ne_of_gt hi)] at hx
  have hxname : x.name = Text.uppercase name := by
    rw [Dictionary.answers, Bool.and_eq_true, beq_iff_eq] at ha
    exact ha.2.trans hn
  exact ⟨i, x, hi, hf, hxname ▸ hopen.defines huvalid hreserves hhidden hsize (hword ▸ hi) hx⟩

/-- `V` is defined inside of `W`, behind its entry, and `W` means its own entry. -/
theorem installed_of_closed_around_variable :
    let before := Move.enqueue inputPath ": MK VARIABLE ; IMMEDIATE : W MK V 42 ;" ::
      List.replicate 4 .step
    ∃ s u v t, play before (ofConfig .standard) = .ok s ∧
      s.nextBuiltin? = some (.defining .colon, some "W") ∧ step s = .ok () u ∧
      KeepsOpen s.dictionary.size (List.replicate 4 .step) u v ∧
      v.nextBuiltin? = some (.defining .semicolon, none) ∧ step v = .ok () t ∧
      ∃ e, t.dictionary.get? 97 = some e ∧ e.origin = some (.colon "MK 42") ∧
        t.dictionary.find? "w" = some (97, e) ∧
        ∀ i, i ≠ 97 → t.dictionary.get? i = v.dictionary.get? i := by
  intro before
  have hrun : (closing? before 4).map (closingView "w") =
      some ⟨some (.defining .colon, some "W"), some (.defining .semicolon, none), 97,
        some (97, some (.colon "MK 42"))⟩ := by
    unfold closing?
    rw [play, show Move.run (.enqueue inputPath ": MK VARIABLE ; IMMEDIATE : W MK V 42 ;")
      (ofConfig .standard) = .ok () { ofConfig .standard with
        sources := [] ++ [.ofSource inputPath ": MK VARIABLE ; IMMEDIATE : W MK V 42 ;"] } from rfl]
    rw [Pending.ofSource_eq 50 (by decide)]
    decide +kernel
  obtain ⟨⟨s, u, v, t⟩, hclosing, hview⟩ := Option.map_eq_some_iff.1 hrun
  obtain ⟨hs, hu, hopen, ht⟩ := of_closing? hclosing
  simp only [closingView, ClosingView.mk.injEq] at hview
  obtain ⟨hcolon, hsemicolon, hsize, hfind⟩ := hview
  obtain ⟨⟨i, e⟩, hfind, hmeaning⟩ := Option.map_eq_some_iff.1 hfind
  obtain ⟨rfl, horigin⟩ := Prod.mk.inj hmeaning
  obtain ⟨slot, d, immediate, -, -, -, -, hword, -, -, -, hother, e', -, he, hmeans⟩ :=
    installed_of_closed hs hcolon hu hopen hsemicolon ht
  rw [hword, hsize] at he hother hmeans
  refine ⟨s, u, v, t, hs, hcolon, hu, hopen, hsemicolon, ht, e, ?_, horigin, hfind, hother⟩
  rcases hmeans "w" (by decide +kernel) with h | ⟨j, x, hj, h, -⟩
  · rw [hfind] at h
    cases h
    exact he
  · rw [hfind] at h
    cases h
    exact (Nat.lt_irrefl _ hj).elim

/-- The immediate `MK` defines a variable `W` inside of `W`, and that is what the name means behind
the semicolon. -/
theorem closed_around_namesake : ¬ ∀ before during s u v t name next?,
    play before (ofConfig .standard) = .ok s →
    s.nextBuiltin? = some (.defining .colon, some name) → step s = .ok () u →
    KeepsOpen s.dictionary.size during u v →
    v.nextBuiltin? = some (.defining .semicolon, next?) → step v = .ok () t →
    ∃ e, t.dictionary.find? name = some (s.dictionary.size, e) := by
  intro h
  have hrun : (closing? (.enqueue inputPath ": MK VARIABLE ; IMMEDIATE : W MK W ;" ::
      List.replicate 4 .step) 3).map (closingView "W") =
      some ⟨some (.defining .colon, some "W"), some (.defining .semicolon, none), 97,
        some (98, some (.variable 0))⟩ := by
    unfold closing?
    rw [play, show Move.run (.enqueue inputPath ": MK VARIABLE ; IMMEDIATE : W MK W ;")
      (ofConfig .standard) = .ok () { ofConfig .standard with
        sources := [] ++ [.ofSource inputPath ": MK VARIABLE ; IMMEDIATE : W MK W ;"] } from rfl]
    rw [Pending.ofSource_eq 50 (by decide)]
    decide +kernel
  obtain ⟨⟨s, u, v, t⟩, hclosing, hview⟩ := Option.map_eq_some_iff.1 hrun
  obtain ⟨hs, hu, hopen, ht⟩ := of_closing? hclosing
  simp only [closingView, ClosingView.mk.injEq] at hview
  obtain ⟨hcolon, hsemicolon, hsize, hfind⟩ := hview
  obtain ⟨e, he⟩ := h _ _ s u v t "W" none hs hcolon hu hopen hsemicolon ht
  rw [he, hsize] at hfind
  cases hfind

end StackLang.Session
