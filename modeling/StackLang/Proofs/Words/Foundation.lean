import StackLang.Proofs.Saved.Standard
import StackLang.Proofs.Words.Binding
import StackLang.Proofs.Words.Marked
import StackLang.Proofs.Words.Roles

/-!
# Built-in words in a run

No built-in word is made, renamed, changed or dropped while a session runs.  Those that are for
definitions run while they are read, so no call of one is ever compiled, and only a token can run
one.

* `get?_of_isBuiltin`: what is built in behind a move was there before it, as it is.
* `get?_builtins_of_visits`, `get?_of_builtins`: what is built in stays where it is, as it is.
* `name_of_visits`, `finds_of_find?`: built-in words have the names of their specifications
  everywhere in a run.
* `Outline.CallsPlain`: no code in use calls a word that is for definitions.
* `frame_of_visits`: only a token runs such a word.
-/

namespace StackLang.Session

open StackLang.Action

variable {s t : Session} {o o' : Outline} {i : Nat} {e : Entry} {w : Builtin} {config : Config}
  {moves : List Move}

/-! ## Entries of built-in words -/

theorem get?_of_revision {next? : Option String} (h : Revision next? o w o') (hr : o.OwnWord)
    (he : o'.dictionary.get? i = some e) (hb : e.isBuiltin = true) :
    o.dictionary.get? i = some e := by
  -- A changed entry is that of no built-in word.
  have changed {index : Nat} {f : Entry → Entry}
      (hf : ∀ x, o.dictionary.get? index = some x → (f x).isBuiltin = false)
      (he : (o.dictionary.modify index f).get? i = some e) : o.dictionary.get? i = some e := by
    rcases Dictionary.get?_modify he with he | ⟨x, rfl, hx, rfl⟩
    · exact he
    · rw [hf x hx] at hb
      cases hb
  cases h with
  | keeps | builds => exact he
  | opens | constant | «variable» =>
    rcases Dictionary.get?_insert he with he | rfl
    · exact he
    · cases hb
  | closes => exact changed (fun _ _ => rfl) he
  | makesImmediate h =>
    exact changed (f := fun e => { e with immediate := true })
      (fun _ => hr.isBuiltin_of_latest? h) he
  | forgets | resets => exact Dictionary.get?_forgetBackTo he

theorem dictionary_of_passage {name? : Option String} (h : Passage name? o o') :
    o'.dictionary = o.dictionary := by
  cases h <;> rfl

/-- What is built in behind a move was there before it, as it is. -/
theorem get?_of_isBuiltin {m : Move} (h : Changed s m t) (hs : s.Consistent)
    (he : t.dictionary.get? i = some e) (hb : e.isBuiltin = true) :
    s.dictionary.get? i = some e := by
  rcases Outline.turn_or_trimmed_of_changed h with h | h
  · cases hn : s.nextBuiltin? with
    | some found =>
      rw [hn] at h
      exact get?_of_revision h hs.ownWord he hb
    | none =>
      rw [hn] at h
      exact (congrArg (·.get? i) (dictionary_of_passage h)).symm.trans he
  · obtain ⟨mark, hd⟩ := h.dictionary
    exact Dictionary.get?_forgetBackTo ((congrArg (·.get? i) hd).symm.trans he)

theorem isBuiltin_of_builtins (h : builtins.get? i = some e) : e.isBuiltin = true := by
  refine builtins_induct (P := fun d => ∀ i e, d.get? i = some e → e.isBuiltin = true)
    (fun _ _ he => by simp [Dictionary.get?, Dictionary.empty] at he)
    (fun d w hd i e he => ?_) i e h
  rcases Dictionary.get?_insert he with he | rfl
  · exact hd i e he
  · rfl

/-- An entry of no built-in word lies behind those of the built-in words. -/
theorem Outline.Intact.size_le (h : o.Intact (ofConfig config)) (he : o.dictionary.get? i = some e)
    (hb : e.isBuiltin = false) : builtins.size ≤ i := by
  refine Nat.le_of_not_lt fun hi => ?_
  rw [Dictionary.get?_of_forgetBackTo h.dictionary hi] at he
  rw [isBuiltin_of_builtins he] at hb
  cases hb

theorem intact_of_turn_builtins {name? : Option String} (h : s.outline.Intact (ofConfig config))
    (hm : builtins.size ≤ s.sessionMark) (hs : s.Consistent)
    (ht : Turn s.nextBuiltin? name? s.outline o) : o.Intact (ofConfig config) := by
  cases hb : s.nextBuiltin? with
  | none =>
    rw [hb] at ht
    exact h.of_passage ht
  | some found =>
    obtain ⟨w, next?⟩ := found
    rw [hb] at ht
    refine h.of_revision hm ht (fun name i e hw hname hf => ?_) fun i e hw hl he _ => ?_
    · subst hw
      cases (ht : Revision next? s.outline (.defining .forget) o) with
      | keeps here hw => exact (hw _ rfl).elim
      | forgets hname' hf' hbuiltin =>
        obtain rfl : name = _ := Option.some.inj (hname.symm.trans hname')
        obtain ⟨rfl, rfl⟩ := Prod.mk.inj (Option.some.inj (hf.symm.trans hf'))
        exact h.size_le (Dictionary.find?_eq_some_iff.1 hf).2.1 hbuiltin
    · exact h.size_le he (hs.ownWord.isBuiltin_of_latest? hl he)

/-- The built-in words are the first ones everywhere in a run, and neither the session mark nor an
open definition is ever among them. -/
theorem intact_builtins (hs : Visits moves (ofConfig config) s) :
    s.outline.Intact (ofConfig config) ∧ builtins.size ≤ s.sessionMark := by
  refine hs.induct
    (P := fun s => s.outline.Intact (ofConfig config) ∧ builtins.size ≤ s.sessionMark)
    ⟨⟨Dictionary.forgetBackTo_of_le (Nat.le_refl _), nofun⟩, Nat.le_refl _⟩
    fun m u v hp ⟨hu, hm⟩ => ?_
  have marks (h : v.outline.sessionMark = u.outline.sessionMark) : builtins.size ≤ v.sessionMark :=
    Nat.le_trans hm (Nat.le_of_eq h.symm)
  cases changed_of_passes hp with
  | steps _ ht =>
    exact ⟨intact_of_turn_builtins hu hm (valid_of_visits hp.before).toConsistent ht,
      marks (marks_of_turn ht).1⟩
  | stays _ h => exact ⟨h ▸ hu, marks (congrArg Outline.sessionMark h)⟩
  | fails _ h => exact ⟨h ▸ hu.rolledBack, marks (by rw [h]; rfl)⟩
  | marks =>
    exact ⟨⟨hu.dictionary, hu.definition⟩, Dictionary.size_le_of_forgetBackTo hu.dictionary⟩
  | resets =>
    refine ⟨?_, hm⟩
    rw [outline_reset]
    exact ⟨(hu.restored hm).dictionary, nofun⟩
  | restores =>
    refine ⟨?_, hm⟩
    rw [outline_resetDefinitions]
    exact hu.restored hm

/-- What is built in anywhere in a run has been so from the start. -/
theorem get?_builtins_of_visits (hs : Visits moves (ofConfig config) s)
    (he : s.dictionary.get? i = some e) (hb : e.isBuiltin = true) : builtins.get? i = some e := by
  refine hs.induct (P := fun s => ∀ i e, s.dictionary.get? i = some e → e.isBuiltin = true →
    builtins.get? i = some e) (fun _ _ he _ => he) (fun m u v hp hu i e he hb => ?_) i e he hb
  have hconsistent := (valid_of_visits hp.before).toConsistent
  exact hu i e (get?_of_isBuiltin (changed_of_passes hp) hconsistent he hb) hb

/-- What has been so from the start is so everywhere in a run. -/
theorem get?_of_builtins (hs : Visits moves (ofConfig config) s) (he : builtins.get? i = some e) :
    s.dictionary.get? i = some e :=
  (Dictionary.get?_of_forgetBackTo (intact_builtins hs).1.dictionary
    (Dictionary.lt_size_of_get? he)).trans he

/-- A built-in word has the name of its specification everywhere in a run. -/
theorem name_of_visits (hs : Visits moves (ofConfig config) s)
    (he : s.dictionary.get? i = some e) (hb : e.body = .builtin w) : e.name = w.spec.name := by
  have hbuiltin : e.isBuiltin = true := by rw [Entry.isBuiltin, hb]
  refine builtins_induct (P := fun d => ∀ i e w, d.get? i = some e → e.body = .builtin w →
    e.name = w.spec.name) (fun _ _ _ he => by simp [Dictionary.get?, Dictionary.empty] at he)
    (fun d w' hd i e w he hb => ?_) i e w (get?_builtins_of_visits hs he hbuiltin) hb
  rcases Dictionary.get?_insert he with he | rfl
  · exact hd i e w he hb
  · obtain rfl : w' = w := Body.builtin.inj hb
    exact (Text.uppercase_uppercase _).trans (Dictionary.uppercase_specName w')

/-- A name that means a built-in word is the name of that word, perhaps in another case. -/
theorem finds_of_find? {word : String} (hs : Visits moves (ofConfig config) s)
    (hf : s.dictionary.find? word = some (i, e)) (hb : e.body = .builtin w) :
    s.dictionary.Finds w := by
  obtain ⟨-, hget, hanswers, -⟩ := Dictionary.find?_eq_some_iff.1 hf
  rw [Dictionary.answers, Bool.and_eq_true, beq_iff_eq] at hanswers
  have hname : Text.uppercase w.spec.name = Text.uppercase word := by
    rw [Dictionary.uppercase_specName, ← name_of_visits hs hget hb, hanswers.2]
  refine ⟨i, e, ?_, hb, (roles_of_visits hs i e hget).spec w hb⟩
  rw [Dictionary.find?, hname]
  exact hf

/-! ## Calls -/

/-- No code in use calls a built-in word that runs inside of definitions. -/
def Outline.CallsPlain (o : Outline) : Prop :=
  ∀ i e w, o.Names i → o.dictionary.get? i = some e → e.body = .builtin w → w.spec.role = .plain

/-- A name that is compiled as a call of a built-in word stands for a plain one, since any other is
run. -/
theorem role_of_compiledName? {name : String} (hr : e.Role) (hname : e.name = w.spec.name)
    (hn : s.nextBuiltin? = none) (hc : s.compiledName? = some name)
    (hf : s.dictionary.find? name = some (i, e)) (hb : e.body = .builtin w) :
    w.spec.role = .plain := by
  obtain ⟨-, hget, hanswers, -⟩ := Dictionary.find?_eq_some_iff.1 hf
  unfold compiledName? at hc
  split at hc
  · cases hc
  · rename_i hframe
    obtain ⟨⟨token, behind⟩, htoken, hc⟩ := Option.bind_eq_some_iff.1 hc
    obtain ⟨source, hsource, htoken⟩ := Option.bind_eq_some_iff.1 htoken
    obtain ⟨rest, hs⟩ := List.head?_eq_some_iff.1 hsource
    cases hx : token.lexeme with
    | number n =>
      rw [hx] at hc
      cases hc
    | string form text =>
      rw [hx] at hc
      cases form with
      | push | display => cases hc
      | print =>
        cases hc
        have htype : ∀ w ∈ Builtin.all, w.spec.name = "TYPE" → w.spec.role = .plain := by decide
        refine htype w (Builtin.mem_all w) (hname.symm.trans ?_)
        rw [Dictionary.answers, Bool.and_eq_true, beq_iff_eq] at hanswers
        exact hanswers.2.trans (Dictionary.uppercase_specName (.output .type))
    | word word =>
      rw [hx] at hc
      cases hc
      refine Decidable.byContradiction fun hrole => ?_
      have hi : e.immediate = true := by
        rw [(hr.spec w hb).1]
        simpa using hrole
      have hcallee : s.namedCallee? token = some i := by
        simp [namedCallee?, hx, hf, hi]
      unfold nextBuiltin? at hn
      rw [hframe, hs] at hn
      simp [htoken, hcallee, builtinAt?, hget, hb] at hn

theorem callsPlain_of_changed {m : Move} (h : Changed s m t) (hs : s.Consistent)
    (ht : t.Consistent) (hr : s.dictionary.Roles)
    (hname : ∀ i e w, s.dictionary.get? i = some e → e.body = .builtin w → e.name = w.spec.name)
    (hp : s.outline.CallsPlain) : t.outline.CallsPlain := by
  intro i e w hn he hb
  have hbuiltin : e.isBuiltin = true := by rw [Entry.isBuiltin, hb]
  have hget := get?_of_isBuiltin h hs he hbuiltin
  have before (hn : s.outline.Names i) : w.spec.role = .plain := hp i e w hn hget hb
  -- The definition that is being built is no built-in word.
  have own {code : Code} (hd : t.outline.definition = some (i, code)) : w.spec.role = .plain := by
    rw [ht.ownWord i code e hd he] at hbuiltin
    cases hbuiltin
  rcases Outline.turn_or_trimmed_of_changed h with h | h
  · cases hnext : s.nextBuiltin? with
    | some found =>
      rw [hnext] at h
      have hnamed : _ ∨ ∃ x, t.outline.Resolves none i x := Outline.names_of_revision h hn
      rcases hnamed with hn | ⟨x, -, hn | ⟨code, hd⟩⟩
      · exact before hn
      · obtain ⟨name, hnone, -⟩ := hn
        cases hnone
      · exact own hd
    | none =>
      rw [hnext] at h
      rcases Outline.names_of_turn h hn with hn | ⟨x, hx, hn | ⟨code, hd⟩⟩
      · exact before hn
      · obtain ⟨name, hc, hf⟩ := hn
        obtain rfl : e = x := Option.some.inj (he.symm.trans hx)
        rw [dictionary_of_passage h] at hf
        exact role_of_compiledName? (hr i e hget) (hname i e w hget hb) hnext hc hf hb
      · exact own hd
  · exact before (h.names hn)

/-- No code in use calls a word that is for definitions, anywhere in a run. -/
theorem callsPlain_of_visits (hs : Visits moves (ofConfig config) s) : s.outline.CallsPlain := by
  refine hs.induct (P := fun s => s.outline.CallsPlain)
    (fun i _ _ hn => (not_names_ofConfig config hn).elim) fun m u v hp hu => ?_
  have hv := valid_of_visits hp.before
  obtain ⟨-, -, -, -, hm⟩ := id hp
  exact callsPlain_of_changed (changed_of_move hv hm) hv.toConsistent
    (valid_of_visits hp.after).toConsistent
    (roles_of_visits hp.before) (fun _ _ _ => name_of_visits hp.before) hu

/-- Only a token runs a built-in word that is for definitions. -/
theorem frame_of_visits {next? : Option String} (hs : Visits moves (ofConfig config) s)
    (hn : s.nextBuiltin? = some (w, next?)) (hw : w.spec.role ≠ .plain) : s.frame = none := by
  cases hf : s.frame with
  | none => rfl
  | some f =>
    unfold nextBuiltin? at hn
    rw [hf] at hn
    obtain ⟨i, hi, hn⟩ := Option.bind_eq_some_iff.1 hn
    obtain ⟨e, he, hb⟩ := Option.bind_eq_some_iff.1 hn
    split at hb
    · rename_i w' hbody
      cases hb
      exact (hw (callsPlain_of_visits hs i e _ (names_of_callee? hi) he hbody)).elim
    · cases hb

end StackLang.Session
