import StackLang.Proofs.Termination.Sources
import StackLang.Proofs.Words.Binding

/-!
# Words that are never reached

A call is compiled for the word that a name stands for, and an index is never given to a built-in
word again.  So where no name is that of a word which makes endless loops, no code has the index of
such a word, and none is run.

* `Outline.Mild`: no index in use is that of such a word.
* `Outline.Mild.of_turn`: a step keeps it so, and so does what drops entries.
* `Outline.Entered`: the code of a running word is that of an entry, or it was running before.
-/

namespace StackLang

namespace Session

open StackLang.Action

namespace Outline

/-- No index in use is that of a word that makes endless loops. -/
def Mild (o : Outline) : Prop :=
  ∀ i e, o.Names i → o.dictionary.get? i = some e → e.Mild

variable {o o' : Outline} {i : Nat} {e : Entry} {w : Builtin}
  {b : Option (Builtin × Option String)} {name? : Option String}

/-- No entry becomes that of a built-in word. -/
theorem builtin_of_turn (h : Turn b name? o o') (he : o'.dictionary.get? i = some e)
    (hb : e.body = .builtin w) : ∃ x, o.dictionary.get? i = some x ∧ x.body = .builtin w := by
  have insert {x : Entry} (hx : ∀ w, x.body ≠ .builtin w)
      (he : (o.dictionary.insert x).2.get? i = some e) :
      ∃ x, o.dictionary.get? i = some x ∧ x.body = .builtin w := by
    rcases Dictionary.get?_insert he with he | rfl
    · exact ⟨e, he, hb⟩
    · exact (hx w hb).elim
  cases b with
  | none => cases (h : Passage _ o o') <;> exact ⟨e, he, hb⟩
  | some found =>
    obtain ⟨w', next?⟩ := found
    cases (h : Revision next? o w' o') with
    | keeps | builds => exact ⟨e, he, hb⟩
    | opens | constant | «variable» => exact insert (fun _ h => by cases h) he
    | forgets | resets => exact ⟨e, Dictionary.get?_forgetBackTo he, hb⟩
    | closes =>
      rcases Dictionary.get?_modify he with he | ⟨x, -, hx, rfl⟩
      · exact ⟨e, he, hb⟩
      · cases hb
    | makesImmediate =>
      rcases Dictionary.get?_modify he with he | ⟨x, -, hx, rfl⟩
      · exact ⟨e, he, hb⟩
      · exact ⟨x, hx, hb⟩

theorem Mild.of_turn (ho : o.Mild) (h : Turn b name? o o')
    (hr : ∀ i e, o'.Resolves name? i e → e.Mild) : o'.Mild := by
  intro i e hn he w hw
  rcases names_of_turn h hn with hn | ⟨x, hx⟩
  · obtain ⟨y, hy, hb⟩ := builtin_of_turn h he hw
    exact ho i y hn hy w hb
  · have hget := hx.1
    rw [he] at hget
    cases hget
    exact hr i e hx w hw

theorem Mild.of_trimmed (ho : o.Mild) (h : o.Trimmed o') : o'.Mild := by
  intro i e hn he
  obtain ⟨mark, hd⟩ := h.dictionary
  rw [hd] at he
  exact ho i e (h.names hn) (Dictionary.get?_forgetBackTo he)

/-- The code of a word that is running is that of an entry, or the word was running before. -/
theorem running_of_turn (h : Turn b name? o o') {f : Nat × Code} (hf : f ∈ o'.running) :
    f ∈ o.running ∨ ∃ e, o.dictionary.get? f.1 = some e ∧ e.body = .compiled f.2 := by
  cases b with
  | none =>
    cases (h : Passage _ o o') with
    | stays | compiles => exact .inl hf
    | enters he hb =>
      rcases List.mem_cons.1 hf with rfl | hf
      · exact .inr ⟨_, he, hb⟩
      · exact .inl hf
    | leaves hrun => exact .inl (hrun ▸ List.mem_cons_of_mem _ hf)
  | some found =>
    obtain ⟨w, next?⟩ := found
    cases (h : Revision next? o w o') <;> exact .inl hf

end Outline

variable {s t : Session} {k : Nat}

theorem mild_ofConfig (config : Config) : (ofConfig config).outline.Mild :=
  fun _ _ hn => (not_names_ofConfig config hn).elim

/-- What a name means that is compiled does not make endless loops. -/
theorem Counting.compiledName? (hs : s.Counting k) {name : String}
    (h : s.compiledName? = some name) : (Lexeme.word name).isEndless = false := by
  unfold Session.compiledName? at h
  cases hf : s.frame with
  | some f =>
    rw [hf] at h
    cases h
  | none =>
    rw [hf] at h
    obtain ⟨⟨token, behind⟩, htoken, hname⟩ := Option.bind_eq_some_iff.1 h
    obtain ⟨p, hp, hnext⟩ := Option.bind_eq_some_iff.1 htoken
    have hmem : token ∈ p.tokens := by
      unfold Pending.nextToken? at hnext
      split at hnext
      · cases hnext
      · rename_i ht
        cases hnext
        exact ht ▸ List.mem_cons_self
    cases hl : token.lexeme with
    | number value =>
      rw [hl] at hname
      cases hname
    | string form text =>
      rw [hl] at hname
      cases form <;> cases hname
      decide +kernel
    | word text =>
      rw [hl] at hname
      cases hname
      exact hl ▸ hs.sources p (List.mem_of_head? hp) token hmem

/-- A step keeps the words that make endless loops out of reach. -/
theorem mild_of_turn {k' : Nat} (ho : s.outline.Mild) (hs : s.Counting k)
    (h : Turn s.nextBuiltin? s.compiledName? s.outline t.outline) (ht : t.Consistent)
    (hc : t.Counting k') : t.outline.Mild := by
  refine ho.of_turn h fun i e hr w hw => ?_
  obtain ⟨hget, ⟨name, hname, hf⟩ | ⟨code, hd⟩⟩ := hr
  · exact (hc.entries i e hget).mild_of_find? hf (hs.compiledName? hname) w hw
  · obtain ⟨d, hd, hw'⟩ := Option.map_eq_some_iff.1 hd
    have hb := ht.reserved d e hd (by
      rw [(Prod.mk.inj hw').1]
      exact hget)
    rw [Entry.isBuiltin, hw] at hb
    cases hb

theorem Outline.Mild.callee? (ho : s.outline.Mild) {i : Nat} (hi : s.callee? = some i) {e : Entry}
    (he : s.dictionary.get? i = some e) : e.Mild :=
  ho i e (names_of_callee? hi) he

end Session

end StackLang
