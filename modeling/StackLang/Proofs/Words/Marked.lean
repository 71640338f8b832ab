import StackLang.Proofs.Token.Bounded
import StackLang.Proofs.Words.Moves

/-!
# Back to the session mark

A reset goes back to the words and the memory of the session mark, as long as the words from before
the mark are still there and still the same.  Two words can reach below the mark: `FORGET`, with the
name of a word from before it, and `IMMEDIATE`, when no word was defined since.

* `Session.ReachesBelow`: the next operation does so.
* `reset_restores_iff`: a reset goes back to the mark exactly if none of the steps does.
-/

namespace StackLang

namespace Dictionary

variable {d : Dictionary} {mark : Nat}

theorem forgetBackTo_insert_of_le (h : mark ≤ d.size) (e : Entry) :
    (d.insert e).2.forgetBackTo mark = d.forgetBackTo mark := by
  ext1 i
  simp only [get?_forgetBackTo_eq, get?_insert_eq]
  grind

theorem forgetBackTo_modify_of_le {index : Nat} (h : mark ≤ index) (f : Entry → Entry) :
    (d.modify index f).forgetBackTo mark = d.forgetBackTo mark := by
  ext1 i
  simp only [get?_forgetBackTo_eq, get?_modify_eq]
  grind

theorem size_le_of_forgetBackTo {d' : Dictionary} (h : d.forgetBackTo d'.size = d') :
    d'.size ≤ d.size := by
  have hs := congrArg Dictionary.size h
  rw [size_forgetBackTo] at hs
  omega

theorem get?_of_forgetBackTo {d' : Dictionary} (h : d.forgetBackTo d'.size = d') {i : Nat}
    (hi : i < d'.size) : d.get? i = d'.get? i := by
  have hd := get?_forgetBackTo_eq d d'.size i
  rw [h, if_pos hi] at hd
  exact hd.symm

theorem forgetBackTo_of_le_forgetBackTo {mark' : Nat} (h : mark ≤ mark') :
    (d.forgetBackTo mark').forgetBackTo mark = d.forgetBackTo mark := by
  rw [forgetBackTo_forgetBackTo, Nat.min_eq_right h]

end Dictionary

namespace Session

open StackLang.Action

/-- The next operation changes or drops a word that lies before the mark: it runs `FORGET` in front
of the name of such a word, or `IMMEDIATE` for such a word that is not immediate yet. -/
def ReachesBelow (mark : Nat) (s : Session) : Prop :=
  (∃ name i e, s.nextBuiltin? = some (.defining .forget, some name) ∧
    s.dictionary.find? name = some (i, e) ∧ i < mark) ∨
  (∃ next? i e, s.nextBuiltin? = some (.defining .immediate, next?) ∧
    s.outline.latest? = some i ∧ s.dictionary.get? i = some e ∧ e.immediate = false ∧ i < mark)

/-- The words from before the mark are the same, and no definition is open among them. -/
structure Outline.Intact (mark : Session) (o : Outline) : Prop where
  dictionary : o.dictionary.forgetBackTo mark.dictionary.size = mark.dictionary
  definition : ∀ index code, o.definition = some (index, code) → mark.dictionary.size ≤ index

/-- The marks are those of this session, and none of its memory was given back. -/
structure Outline.Marked (mark : Session) (o : Outline) : Prop where
  sessionMark : o.sessionMark = mark.dictionary.size
  cellMark : o.cellMark = mark.cells.here
  here : mark.cells.here ≤ o.here

variable {mark s t : Session} {o o' : Outline} {name? : Option String}

namespace Outline

theorem Intact.rolledBack (h : o.Intact mark) : o.rolledBack.Intact mark := by
  refine ⟨?_, nofun⟩
  unfold Outline.rolledBack
  dsimp only
  split
  · rename_i index code hd
    rw [Dictionary.forgetBackTo_of_le_forgetBackTo (h.definition index code hd), h.dictionary]
  · exact h.dictionary

theorem Intact.restored (h : o.Intact mark) (hm : mark.dictionary.size ≤ o.sessionMark) :
    o.restored.Intact mark := by
  refine ⟨?_, h.definition⟩
  show (o.dictionary.forgetBackTo o.sessionMark).forgetBackTo mark.dictionary.size = _
  rw [Dictionary.forgetBackTo_of_le_forgetBackTo hm, h.dictionary]

/-- A built-in word that defines or drops words does so behind the mark, unless it reaches below
it. -/
theorem Intact.of_revision {next? : Option String} {w : Builtin} (h : o.Intact mark)
    (hm : mark.dictionary.size ≤ o.sessionMark) (hr : Revision next? o w o')
    (hforget : ∀ name i e, w = .defining .forget → next? = some name →
      o.dictionary.find? name = some (i, e) → mark.dictionary.size ≤ i)
    (himmediate : ∀ i e, w = .defining .immediate → o.latest? = some i →
      o.dictionary.get? i = some e → e.immediate = false → mark.dictionary.size ≤ i) :
    o'.Intact mark := by
  have hsize := Dictionary.size_le_of_forgetBackTo h.dictionary
  cases hr with
  | keeps => exact ⟨h.dictionary, h.definition⟩
  | opens =>
    refine ⟨(Dictionary.forgetBackTo_insert_of_le hsize _).trans h.dictionary, fun i c hd => ?_⟩
    cases hd
    exact hsize
  | @closes index code source hd =>
    have hi := h.definition index code hd
    exact ⟨(Dictionary.forgetBackTo_modify_of_le hi _).trans h.dictionary, nofun⟩
  | constant | «variable» =>
    exact ⟨(Dictionary.forgetBackTo_insert_of_le hsize _).trans h.dictionary, h.definition⟩
  | @makesImmediate index hl =>
    refine ⟨?_, h.definition⟩
    by_cases hi : mark.dictionary.size ≤ index
    · exact (Dictionary.forgetBackTo_modify_of_le hi _).trans h.dictionary
    · -- The word was immediate before.
      have same : (o.dictionary.modify index fun e => { e with immediate := true }) =
          o.dictionary := by
        ext1 i
        rw [Dictionary.get?_modify_eq]
        split
        · rename_i hii
          subst hii
          cases he : o.dictionary.get? index with
          | none => rfl
          | some e =>
            cases him : e.immediate with
            | false => exact (hi (himmediate index e rfl hl he him)).elim
            | true => exact congrArg some (by cases e; simp_all)
        · rfl
      exact (congrArg (Dictionary.forgetBackTo · _) same).trans h.dictionary
  | @forgets name index e hn hf hb =>
    refine ⟨?_, h.definition⟩
    exact (Dictionary.forgetBackTo_of_le_forgetBackTo (hforget name index e rfl hn hf)).trans
      h.dictionary
  | resets => exact h.restored hm
  | builds hd =>
    refine ⟨h.dictionary, fun i c hc => ?_⟩
    cases hc
    exact h.definition _ _ hd

theorem Intact.of_passage (h : o.Intact mark) (hp : Passage name? o o') : o'.Intact mark := by
  cases hp with
  | stays => exact h
  | compiles hd =>
    refine ⟨h.dictionary, fun i c hc => ?_⟩
    cases hc
    exact h.definition _ _ hd
  | enters | leaves => exact ⟨h.dictionary, h.definition⟩

theorem Marked.size_le (h : o.Marked mark) : mark.dictionary.size ≤ o.sessionMark :=
  Nat.le_of_eq h.sessionMark.symm

theorem Marked.restored (h : o.Marked mark) : o.restored.Marked mark :=
  ⟨h.sessionMark, h.cellMark, Nat.le_min.2 ⟨Nat.le_of_eq h.cellMark.symm, h.here⟩⟩

theorem Marked.of_turn {b : Option (Builtin × Option String)} (h : o.Marked mark)
    (ht : Turn b name? o o') : o'.Marked mark := by
  cases b with
  | none => cases (ht : Passage _ o o') <;> exact ⟨h.sessionMark, h.cellMark, h.here⟩
  | some found =>
    obtain ⟨w, next?⟩ := found
    cases (ht : Revision next? o w o') with
    | keeps here hw hh => exact ⟨h.sessionMark, h.cellMark, Nat.le_trans h.here hh⟩
    | resets => exact h.restored
    | «variable» => exact ⟨h.sessionMark, h.cellMark, Nat.le_succ_of_le h.here⟩
    | _ => exact ⟨h.sessionMark, h.cellMark, h.here⟩

theorem Marked.of_changed {m : Move} (h : s.outline.Marked mark) (hm : m ≠ .mark)
    (hc : Changed s m t) : t.outline.Marked mark := by
  cases hc with
  | steps _ ht => exact h.of_turn ht
  | stays _ ht => exact ht ▸ h
  | fails _ ht => exact ht ▸ ⟨h.sessionMark, h.cellMark, h.here⟩
  | marks => exact (hm rfl).elim
  | resets =>
    rw [outline_reset]
    exact ⟨h.restored.sessionMark, h.restored.cellMark, h.restored.here⟩
  | restores => exact s.outline_resetDefinitions ▸ h.restored

end Outline

theorem intact_of_turn (h : s.outline.Intact mark) (hm : s.outline.Marked mark)
    (hn : ¬ s.ReachesBelow mark.dictionary.size) (ht : Turn s.nextBuiltin? name? s.outline o) :
    o.Intact mark := by
  cases hb : s.nextBuiltin? with
  | none =>
    rw [hb] at ht
    exact h.of_passage ht
  | some found =>
    obtain ⟨w, next?⟩ := found
    rw [hb] at ht
    refine h.of_revision hm.size_le ht (fun name i e hw hname hf => ?_) fun i e hw hl he him => ?_
    · refine Nat.le_of_not_lt fun hi => hn (.inl ⟨name, i, e, ?_, hf, hi⟩)
      rw [hb, hw, hname]
    · refine Nat.le_of_not_lt fun hi => hn (.inr ⟨next?, i, e, ?_, hl, he, him, hi⟩)
      rw [hb, hw]

/-- A step that reaches below the mark is not undone by a reset. -/
theorem not_reachesBelow_of_turn
    (hs : s.dictionary.forgetBackTo mark.dictionary.size = mark.dictionary)
    (ho : o.dictionary.forgetBackTo mark.dictionary.size = mark.dictionary)
    (ht : Turn s.nextBuiltin? name? s.outline o) : ¬ s.ReachesBelow mark.dictionary.size := by
  rintro (⟨name, i, e, hb, hf, hi⟩ | ⟨next?, i, e, hb, hl, he, him, hi⟩)
  · rw [hb] at ht
    cases (ht : Revision (some name) s.outline (.defining .forget) o) with
    | keeps here hw => exact hw _ rfl
    | forgets hname hf' =>
      cases hname
      obtain ⟨rfl, -⟩ := Prod.mk.inj (Option.some.inj (hf.symm.trans hf'))
      have hsize := Dictionary.size_le_of_forgetBackTo ho
      rw [Dictionary.size_forgetBackTo] at hsize
      omega
  · rw [hb] at ht
    cases (ht : Revision next? s.outline (.defining .immediate) o) with
    | keeps here hw => exact hw _ rfl
    | makesImmediate hl' =>
      obtain rfl := Option.some.inj (hl.symm.trans hl')
      have hg := (Dictionary.get?_of_forgetBackTo ho hi).trans
        (Dictionary.get?_of_forgetBackTo hs hi).symm
      rw [he, Dictionary.get?_modify_eq, if_pos rfl,
        show s.outline.dictionary.get? i = some e from he] at hg
      have him' := congrArg Entry.immediate (Option.some.inj hg)
      rw [him] at him'
      cases him'

theorem Outline.Intact.of_changed {m : Move} (h : s.outline.Intact mark)
    (hm : s.outline.Marked mark) (hmark : m ≠ .mark)
    (hn : m = .step → step s = .ok () t → ¬ s.ReachesBelow mark.dictionary.size)
    (hc : Changed s m t) : t.outline.Intact mark := by
  cases hc with
  | steps hstep ht => exact intact_of_turn h hm (hn rfl hstep) ht
  | stays _ ht => exact ht ▸ h
  | fails _ ht => exact ht ▸ h.rolledBack
  | marks => exact (hmark rfl).elim
  | resets => exact s.outline_reset ▸ ⟨(h.restored hm.size_le).dictionary, nofun⟩
  | restores => exact s.outline_resetDefinitions ▸ h.restored hm.size_le

/-! ## Runs -/

section

variable {config : Config} {moves more : List Move}

theorem valid_mark (hs : play moves (ofConfig config) = .ok s) : s.mark.Valid AbleOrBlank :=
  valid_move (m := .mark) (valid_play (valid_ofConfig config nofun) hs) rfl

theorem marked_of_visits (hs : play moves (ofConfig config) = .ok s) (hmore : .mark ∉ more)
    (ht : Visits more s.mark t) : t.outline.Marked s := by
  refine ht.induct (P := fun t => t.outline.Marked s) ⟨rfl, rfl, Nat.le_refl _⟩
    fun m u v hp hu => ?_
  obtain ⟨before, after, rfl, -, hm⟩ := id hp
  exact hu.of_changed (fun h => hmore (by simp [h]))
    (changed_of_move (hp.before.valid (valid_mark hs)) hm)

theorem dictionary_reset_of_visits (hs : play moves (ofConfig config) = .ok s)
    (hmore : .mark ∉ more) (ht : Visits more s.mark t) :
    t.reset.dictionary = t.dictionary.forgetBackTo s.dictionary.size := by
  rw [← show t.sessionMark = s.dictionary.size from (marked_of_visits hs hmore ht).sessionMark]
  rfl

theorem intact_of_visits (hs : play moves (ofConfig config) = .ok s)
    (hidle : s.hasPending = false) (hmore : .mark ∉ more)
    (h : ∀ t u, Passes more s.mark .step t u → step t = .ok () u →
      ¬ t.ReachesBelow s.dictionary.size)
    (ht : Visits more s.mark t) : t.outline.Intact s := by
  have hsources : s.sources = [] := by
    simpa [hasPending] using (Bool.or_eq_false_iff.1 hidle).2
  have hstart : s.mark.outline.Intact s := by
    refine ⟨Dictionary.forgetBackTo_of_le (Nat.le_refl _), fun index code hd => ?_⟩
    simp [outline, definition?, mark, hsources] at hd
  refine ht.induct (P := fun t => t.outline.Intact s) hstart fun m u v hp hu => ?_
  obtain ⟨before, after, rfl, -, hm⟩ := id hp
  refine hu.of_changed (marked_of_visits hs hmore hp.before) (fun h => hmore (by simp [h]))
    (fun hstep hok => ?_) (changed_of_move (hp.before.valid (valid_mark hs)) hm)
  subst hstep
  exact h u v hp hok

end

/-- After a mark with nothing in flight, and any moves without another mark, a reset always goes
back to the memory of the mark.  It always goes back to its dictionary, too, exactly if no step on
the way that succeeds changes or drops a word from before the mark.  Every sequence of requests
without a mark is such a run. -/
theorem reset_restores_iff (config : Config) :
    (∀ moves s, play moves (ofConfig config) = .ok s → s.hasPending = false →
      ∀ more, .mark ∉ more →
        (∀ t, Visits more s.mark t → t.reset.cells.here = s.cells.here) ∧
        ((∀ t, Visits more s.mark t → t.reset.dictionary = s.dictionary) ↔
          ∀ t u, Passes more s.mark .step t u → step t = .ok () u →
            ¬ t.ReachesBelow s.dictionary.size)) ∧
    ∀ fuel requests s, .move .mark ∉ requests →
      ∃ more, .mark ∉ more ∧ play more s = perform fuel requests s := by
  refine ⟨fun moves s hs hidle more hmore => ⟨fun t ht => ?_, fun h t u hp hok => ?_,
    fun h t ht => ?_⟩, fun fuel requests s hr => ?_⟩
  · have hm := marked_of_visits hs hmore ht
    show (t.cells.truncate t.cellMark).here = _
    rw [CellStore.here_truncate, show t.cellMark = s.cells.here from hm.cellMark]
    exact Nat.min_eq_left hm.here
  · have intact {v : Session} (hv : Visits more s.mark v) :=
      (dictionary_reset_of_visits hs hmore hv).symm.trans (h v hv)
    exact not_reachesBelow_of_turn (intact hp.before) (intact hp.after)
      (turn_of_step (hp.before.valid (valid_mark hs)) hok)
  · rw [dictionary_reset_of_visits hs hmore ht]
    exact (intact_of_visits hs hidle hmore h ht).dictionary
  · have hok : Move.Evaluating (· ≠ .mark) := ⟨nofun, nofun, nofun⟩
    obtain ⟨more, hm, hp⟩ := exists_play_of_perform hok fuel requests
      (fun m hm h => hr (h ▸ hm)) s
    exact ⟨more, fun h => hm _ h rfl, hp⟩

/-- Is the session at rest, and is the entry at an index immediate? -/
def restingImmediate (i : Nat) (s : Session) : Bool × Option Bool :=
  (s.hasPending, (s.dictionary.get? i).map (·.immediate))

/-- `DOUBLE` was defined before the mark, `IMMEDIATE` makes it immediate behind it, and a reset
leaves it so. -/
theorem perform_immediate_below_mark : ∃ s t,
    perform 30 [.evaluate ": DOUBLE 2* ;"] (ofConfig .standard) = .ok s ∧
      s.hasPending = false ∧
      perform 30 [.evaluate "IMMEDIATE", .move .reset] s.mark = .ok t ∧
      t.dictionary ≠ s.dictionary := by
  have hrun : (perform 30 [.evaluate ": DOUBLE 2* ;"] (ofConfig .standard)).toOption.bind
      (fun s => (perform 30 [.evaluate "IMMEDIATE", .move .reset] s.mark).toOption.map
        fun t => (restingImmediate 96 s, restingImmediate 96 t)) =
      some ((false, some false), (false, some true)) := by
    simp only [perform, Request.run, evaluate, processSource, enqueue]
    rw [Pending.ofSource_eq 20 (by decide), Pending.ofSource_eq 20 (by decide)]
    decide +kernel
  obtain ⟨s, hs, hrun⟩ := Option.bind_eq_some_iff.1 hrun
  obtain ⟨t, ht, hview⟩ := Option.map_eq_some_iff.1 hrun
  obtain ⟨h, ht'⟩ := Prod.mk.inj hview
  obtain ⟨hp, hi⟩ := Prod.mk.inj h
  refine ⟨s, t, eq_ok_of_toOption hs, hp, eq_ok_of_toOption ht, fun hd => ?_⟩
  have hi' := congrArg Prod.snd ht'
  dsimp only [restingImmediate] at hi'
  rw [hd, hi] at hi'
  cases hi'

end Session

end StackLang
