import StackLang.Proofs.Termination.Frames
import StackLang.Proofs.Termination.Words

/-!
# Steps come to an end

While no word runs, a step uses up a token or a source.  While a word runs, no token is added, and
the words in flight become lighter.  So as long as no source has a word that makes endless loops,
the tokens to come and the weight of the words in flight decrease with every step.

* `Session.Winding`: what holds of a session that comes to an end.
* `Winding.step`: what a step makes of it.
-/

namespace StackLang

namespace Session

open ReturnStack
open StackLang.Action
open Multiset (IsDershowitzMannaLT)

variable {α : Type} {k : ℕ} {s t u : Session} {f : CallFrame}

theorem of_triple {P Q : Session → Prop} {p : Action α} {a : α}
    (h : Triple P p (fun _ => Q) Anything) (hs : P s) (hp : p s = .ok a t) : Q t := by
  have := h s hs
  rwa [hp] at this

/-! ## The tokens to come -/

/-- Only calls change the dictionary or the sources. -/
theorem kept_of_runOp {op : Op} (hf : s.frame = some { f with next := f.next + 1 })
    (hop : op.callee? f.word = none) (h : runOp f op s = .ok () t) :
    t.sources = s.sources ∧ t.dictionary = s.dictionary := by
  have goesOn {s t : Session} (h : GoesOn { f with next := f.next + 1 } s t) :
      t.sources = s.sources ∧ t.dictionary = s.dictionary := by
    obtain ⟨stack, returns, j, rfl, -⟩ := h
    exact ⟨rfl, rfl⟩
  cases op with
  | callBuiltin index | callWord index | recurse => cases hop
  | push v =>
    obtain ⟨stack, rfl⟩ := exists_of_operands (show operands (.push v) s = .ok () t from h)
    exact ⟨rfl, rfl⟩
  | branch target => exact goesOn (goesOn_jump hf h)
  | branchIfFalse target =>
    obtain ⟨flag, u, hu, h⟩ := exists_of_bind h
    obtain ⟨stack, rfl⟩ := exists_of_operands hu
    split at h
    · exact goesOn (goesOn_jump (s := { s with stack }) hf h)
    · cases h
      exact ⟨rfl, rfl⟩
  | loop kind target => exact goesOn (goesOn_runLoop hf h)
  | loopIndex depth =>
    unfold runOp at h
    dsimp only at h
    rw [StackLang.get_bind] at h
    cases hx : s.returns.loop? depth with
    | none =>
      rw [hx] at h
      cases h
    | some x =>
      rw [hx] at h
      unfold push at h
      obtain ⟨stack, rfl⟩ := exists_of_operands h
      exact ⟨rfl, rfl⟩
  | exit =>
    change leaveWord f s = .ok () t at h
    rw [leaveWord_eq] at h
    split at h
    · cases h
    · rename_i caller returns he
      obtain ⟨observers, hw⟩ := exists_finishWord f.name { s with
        frame := caller
        returns
        calls := s.calls.tail }
      rw [hw] at h
      cases h
      exact ⟨rfl, rfl⟩

theorem Counting.congr (hs : s.Counting k) (hsources : t.sources = s.sources)
    (hd : t.dictionary = s.dictionary) : t.Counting k where
  supply := hsources ▸ hs.supply
  sources := hsources ▸ hs.sources
  entries := hd ▸ hs.entries
  definition := by
    unfold definition?
    rw [hsources]
    exact hs.definition

/-- While a word runs, no token is added. -/
theorem Counting.operation (hs : s.Counting k) (ho : s.outline.Mild) (hf : s.frame = some f)
    (h : Action.operation s = .ok () t) : t.Counting k := by
  rw [operation_of_frame hf] at h
  cases hx : f.code[f.next]? with
  | none =>
    unfold runInstruction at h
    rw [hx] at h
    cases h
  | some x =>
    rw [runInstruction_eq hx] at h
    have hahead : Counting k { s with
        frame := some { f with next := f.next + 1 }
        location := x.location.or s.location } :=
      hs.elsewhere _ s.builtin s.calls _ s.returns
    cases hop : x.op.callee? f.word with
    | none =>
      obtain ⟨hsources, hd⟩ := kept_of_runOp (f := f) rfl hop h
      exact hahead.congr hsources hd
    | some index =>
      rw [runOp_of_callee? hop] at h
      refine of_triple (triple_call_counting index) ⟨hahead, fun e he => ?_⟩ h
      have hcallee : s.callee? = some index := by simp [callee?, hf, hx, hop]
      exact ho.callee? hcallee he

/-- While no word runs, a token is used up, unless the source is at its end. -/
theorem Counting.token (hs : s.Counting k) (hf : s.frame = none)
    (h : Action.operation s = .ok () t) :
    (∃ k' < k, t.Counting k') ∨ t = s ∧ ∀ p rest, s.sources = p :: rest → p.isExhausted = true := by
  unfold Action.operation at h
  rw [StackLang.get_bind, hf] at h
  obtain ⟨found, u, hu, h⟩ := exists_of_bind h
  unfold nextToken? at hu
  cases hsrc : s.sources with
  | nil =>
    rw [hsrc] at hu
    cases hu
    cases h
    exact .inr ⟨rfl, fun _ _ h => by cases h⟩
  | cons p rest =>
    rw [hsrc] at hu
    cases hp : p.tokens with
    | nil =>
      have hnone : p.nextToken? = none := by rw [Pending.nextToken?, hp]
      simp only [hnone] at hu
      cases hu
      cases h
      refine .inr ⟨rfl, fun q rest hq => ?_⟩
      cases hq
      rw [Pending.isExhausted, hp]
      rfl
    | cons token tokens =>
      have hsome : p.nextToken? = some (token, { p with tokens }) := by
        rw [Pending.nextToken?, hp]
      simp only [hsome] at hu
      cases hu
      have hsupply := hs.supply
      rw [hsrc, Pending.supply, hp, List.length_cons] at hsupply
      have hahead := (insensitive_counting k).token hsrc hsome hs
      have hless : Counting (k - 1) { s with sources := { p with tokens } :: rest } := by
        refine ⟨?_, hahead.sources, hahead.entries, hahead.definition⟩
        simp only [Pending.supply]
        omega
      have hn := hs.sources p (hsrc ▸ List.mem_cons_self) token (hp ▸ List.mem_cons_self)
      exact .inl ⟨k - 1, by omega, of_triple (triple_runToken_counting hn) hless h⟩

theorem suffix_of_unusedSources {sources rest : List Pending}
    (h : unusedSources sources = .ok rest) : rest <:+ sources := by
  induction sources with
  | nil =>
    cases h
    exact List.suffix_rfl
  | cons source sources ih =>
    unfold unusedSources at h
    split at h
    · split at h
      · cases h
      · exact (ih h).trans (List.suffix_cons _ _)
    · cases h
      exact List.suffix_rfl

theorem supply_le_of_suffix {sources rest : List Pending} (h : rest <:+ sources) :
    Pending.supply rest ≤ Pending.supply sources := by
  obtain ⟨front, rfl⟩ := h
  induction front with
  | nil => exact Nat.le_refl _
  | cons p front ih => exact ih.trans (Nat.le_add_left _ _)

/-- The end of a source. -/
theorem Counting.dropUsedSources (hs : s.Counting k) (hc : s.Consistent)
    (h : Action.dropUsedSources s = .ok () t) : t.Counting k := by
  obtain hf | ⟨f, hf⟩ := Option.eq_none_or_eq_some s.frame
  · rw [dropUsedSources_of_idle hf] at h
    cases hu : unusedSources s.sources with
    | error d =>
      rw [hu] at h
      cases h
    | ok sources =>
      rw [hu] at h
      cases h
      have hsuffix := suffix_of_unusedSources hu
      exact ⟨(supply_le_of_suffix hsuffix).trans hs.supply,
        fun p hp => hs.sources p (hsuffix.subset hp), hs.entries,
        fun d hd => hs.definition d (hc.definition?_unusedSources hu hd)⟩
  · rw [dropUsedSources_of_frame hf] at h
    cases h
    exact hs

/-- A source that is at its end when no word runs is used up. -/
theorem Counting.dropExhausted (hs : s.Counting k) (hc : s.Consistent) (hf : s.frame = none)
    {p : Pending} {rest : List Pending} (hsrc : s.sources = p :: rest) (hp : p.isExhausted = true)
    (h : Action.dropUsedSources s = .ok () t) : ∃ k' < k, t.Counting k' := by
  have ht := hs.dropUsedSources hc h
  rw [dropUsedSources_of_idle hf, hsrc, unusedSources, if_pos hp] at h
  split at h
  · rename_i sources hu
    cases h
    split at hu
    · cases hu
    · have hle := supply_le_of_suffix (suffix_of_unusedSources hu)
      have hsupply := hs.supply
      rw [hsrc, Pending.supply] at hsupply
      exact ⟨k - 1, by omega, ⟨by dsimp only; omega, ht.sources, ht.entries,
        ht.definition⟩⟩
  · cases h

/-! ## Steps -/

/-- A session that comes to an end: how many tokens are to come, and what the words in flight
weigh. -/
structure Winding (k : ℕ) (M : Multiset Weight) (s : Session) : Prop where
  valid : s.Valid AbleOrBlank
  counting : s.Counting k
  mild : s.outline.Mild
  running : ∀ c ∈ s.outline.running, c.2.Counting
  weighs : Weighs s.returns.limit s.frame s.returns.items M

/-- Less is to come: tokens, or else what the words in flight have to do. -/
def Less (x y : ℕ × Multiset Weight) : Prop :=
  Prod.Lex (· < ·) IsDershowitzMannaLT x y

theorem wellFounded_less : WellFounded Less :=
  WellFounded.prod_lex Nat.lt_wfRel.wf Multiset.wellFounded_isDershowitzMannaLT

/-- A step of a running word adds no token. -/
theorem Counting.step (hs : s.Counting k) (hv : s.Valid AbleOrBlank) (ho : s.outline.Mild)
    (hf : s.frame = some f) (h : Action.step s = .ok () t) : t.Counting k := by
  obtain ⟨u, hu, h⟩ := exists_of_step_dropped h
  exact (hs.operation ho hf hu).dropUsedSources (consistent_operation hv hu) h

/-- A step without a running word uses up a token or a source. -/
theorem Counting.stepIdle (hs : s.Counting k) (hv : s.Valid AbleOrBlank) (hf : s.frame = none)
    (hp : s.hasPending = true) (h : Action.step s = .ok () t) : ∃ k' < k, t.Counting k' := by
  obtain ⟨u, hu, hdrop⟩ := exists_of_step_dropped h
  rcases hs.token hf hu with ⟨k', hk, hu'⟩ | ⟨rfl, hexhausted⟩
  · exact ⟨k', hk, hu'.dropUsedSources (consistent_operation hv hu) hdrop⟩
  · cases hsrc : u.sources with
    | nil => simp [hasPending, hf, hsrc] at hp
    | cons p rest =>
      exact hs.dropExhausted hv.toConsistent hf hsrc (hexhausted p rest hsrc) hdrop

theorem mem_running_of_frame {g : CallFrame} (hg : s.frame = some g) :
    (g.word, g.code) ∈ s.outline.running := by
  simp [outline, hg]

namespace Winding

variable {M : Multiset Weight}

/-- Behind a step only words run whose code goes back to step a counted loop. -/
theorem running_of_step (h : s.Winding k M) (ht : Action.step s = .ok () t) :
    ∀ c ∈ t.outline.running, c.2.Counting := by
  intro c hmem
  rcases Outline.running_of_turn (turn_of_step h.valid ht) hmem with hmem | ⟨e, he, hb⟩
  · exact h.running c hmem
  · exact (h.counting.entries _ e he).code _ hb

theorem of_step {k' : ℕ} {M' : Multiset Weight} (h : s.Winding k M) (hp : s.hasPending = true)
    (ht : Action.step s = .ok () t) (hc : t.Counting k')
    (hw : Weighs t.returns.limit t.frame t.returns.items M') : t.Winding k' M' := by
  have hv := valid_step h.valid hp ht
  have hmild := mild_of_turn h.mild h.counting (turn_of_step h.valid ht) hv.toConsistent hc
  exact ⟨hv, hc, hmild, h.running_of_step ht, hw⟩

/-- Every step brings the session nearer to its end. -/
theorem step (h : s.Winding k M) (hp : s.hasPending = true) (ht : Action.step s = .ok () t) :
    ∃ k' M', t.Winding k' M' ∧ Less (k', M') (k, M) := by
  have hrunning {g : CallFrame} (hg : t.frame = some g) : g.code.Counting :=
    h.running_of_step ht _ (mem_running_of_frame hg)
  obtain hf | ⟨f, hf⟩ := Option.eq_none_or_eq_some s.frame
  · obtain ⟨k', hk, hc⟩ := h.counting.stepIdle h.valid hf hp ht
    rcases tokenEffect_step hf ht with he | he
    · refine ⟨k', 0, h.of_step hp ht hc ?_, .left _ _ hk⟩
      rw [he.frame, hf]
      exact .idle
    · obtain ⟨g, hg, hnext⟩ := he.frame
      have hidle : Weighs t.returns.limit none s.returns.items 0 := .idle
      obtain ⟨K, hK, -⟩ := hidle.called (hrunning hg) hnext
      refine ⟨k', K + 0, h.of_step hp ht hc ?_, .left _ _ hk⟩
      rw [hg, he.items]
      exact hK
  · have hc := h.counting.step h.valid h.mild hf ht
    obtain ⟨x, hx, hproceeds⟩ := proceeds_step hf ht
    have hw := h.weighs
    rw [hf] at hw
    obtain ⟨M', hw', hlighter⟩ := hw.step hx rfl rfl hproceeds fun g hg _ => hrunning hg
    rw [← hproceeds.limit] at hw'
    exact ⟨k, M', h.of_step hp ht hc hw', .right _ hlighter⟩

end Winding

end Session

end StackLang
