import StackLang.Proofs.Evaluation.Modes
import StackLang.Proofs.Saved.Defining

/-!
# Sessions that read lexemes

A source is read one lexeme after the other, so what some lexemes make of a session, and what others
make of that, is what the source makes of it that consists of both.

* `Session.LeadsTo`: some steps lead from one session to another.
* `Consumes P xs Q`: outside of a definition the lexemes lead from `P` to `Q`, whatever follows.
* `Consumes.append`: lexemes that are read after others.
-/

namespace StackLang

open Action

namespace Action

theorem takeSteps_add (steps more : Nat) :
    takeSteps (steps + more) = (do takeSteps steps; takeSteps more) := by
  induction steps with
  | zero =>
    rw [Nat.zero_add]
    rfl
  | succ steps ih =>
    rw [Nat.succ_add, takeSteps, ih]
    funext s
    simp only [takeSteps, bind_apply]
    cases discard stepOnce s <;> rfl

end Action

namespace Session

variable {s t u : Session} {tokens tokens' : List Token} {token : Token}
  {definition definition' : Option Definition}

/-- Some steps lead to the other session, whatever has been told. -/
def LeadsTo (s t : Session) : Prop :=
  ∃ steps, Yields (takeSteps steps) s () t

theorem LeadsTo.refl (s : Session) : s.LeadsTo s :=
  ⟨0, Yields.pure s ()⟩

theorem LeadsTo.trans (h : s.LeadsTo t) (h' : t.LeadsTo u) : s.LeadsTo u := by
  obtain ⟨steps, h⟩ := h
  obtain ⟨more, h'⟩ := h'
  exact ⟨steps + more, takeSteps_add steps more ▸ h.bind h'⟩

/-- One step leads on. -/
theorem LeadsTo.of_step (hp : s.hasPending = true) (hc : s.cancelled = false)
    (h : Yields operation s () t) (hd : Yields dropUsedSources t () u) : s.LeadsTo u := by
  refine ⟨1, fun s' hs => ?_⟩
  have hp' : s'.hasPending = true := by rwa [hasPending, hs.frame, hs.sources]
  have hc' : s'.cancelled = false := by
    obtain ⟨_, _, _, _, rfl⟩ := hs
    exact hc
  obtain ⟨u', hu, hb⟩ := h.bind (q := fun _ => dropUsedSources) hd s' hs
  refine ⟨u', ?_, hb⟩
  rw [takeSteps_succ, if_pos hp', checked_ok ((step_of_running hc').trans hu)]
  rfl

/-! ## One source -/

/-- The session with one source, from which these tokens come.  Without any it has been dropped. -/
def feeding (s : Session) (tokens : List Token) (definition : Option Definition) : Session :=
  { s with sources := match tokens with
    | [] => []
    | _ :: _ => [⟨tokens, definition⟩] }

theorem yields_dropUsedSources (hf : s.frame = none) (hd : tokens = [] → definition = none) :
    Yields dropUsedSources (s.reading tokens definition []) () (s.feeding tokens definition) := by
  intro s' hs
  have hframe : s'.frame.isNone = true := by rw [show s'.frame = none from hs.frame.trans hf]; rfl
  have hsources : s'.sources = [⟨tokens, definition⟩] := hs.sources
  unfold dropUsedSources
  rw [StackLang.get_bind, if_pos hframe, hsources]
  obtain ⟨builtin, calls, output, observers, rfl⟩ := hs
  cases tokens with
  | nil =>
    cases hd rfl
    exact ⟨_, rfl, builtin, calls, output, observers, rfl⟩
  | cons token tokens => exact ⟨_, rfl, builtin, calls, output, observers, rfl⟩

/-- A source without tokens takes one step, which drops it. -/
theorem leadsTo_feeding (hf : s.frame = none) (hc : s.cancelled = false) :
    (s.reading tokens none []).LeadsTo (s.feeding tokens none) := by
  cases tokens with
  | cons token tokens => exact .refl _
  | nil =>
    refine .of_step (by simp [hasPending, reading]) hc (fun s' hs => ⟨s', ?_, hs⟩)
      (yields_dropUsedSources hf fun _ => rfl)
    exact operation_of_exhausted (hs.frame.trans hf) hs.sources rfl

/-- While a word runs, no source is dropped. -/
theorem yields_dropUsedSources_of_frame (hf : s.frame ≠ none) :
    Yields dropUsedSources s () s := by
  intro s' hs
  have hframe : s'.frame ≠ none := by rwa [hs.frame]
  refine ⟨s', ?_, hs⟩
  unfold dropUsedSources
  rw [StackLang.get_bind, if_neg (by simpa using hframe)]
  rfl

theorem leadsTo_of_operation (hc : s.cancelled = false)
    (h : Yields operation (s.reading (token :: tokens) definition []) ()
      (t.reading tokens' definition' []))
    (ht : t.frame = none) (hd : tokens' = [] → definition' = none) :
    (s.feeding (token :: tokens) definition).LeadsTo (t.feeding tokens' definition') :=
  LeadsTo.of_step (by simp [hasPending, feeding]) hc h (yields_dropUsedSources ht hd)

end Session

/-! ## Lexemes -/

/-- Outside of a definition, reading the lexemes leads from a session with `P` to one with `Q`. -/
def Consumes (P : Session → Prop) (xs : List Lexeme) (Q : Session → Prop) : Prop :=
  ∀ s tokens more, P s → tokens.map Token.lexeme = xs →
    ∃ t, Q t ∧ (s.feeding (tokens ++ more) none).LeadsTo (t.feeding more none)

namespace Consumes

variable {P Q R : Session → Prop} {xs ys : List Lexeme}

theorem nil (P : Session → Prop) : Consumes P [] P := by
  intro s tokens more hs hx
  obtain rfl := List.map_eq_nil_iff.1 hx
  exact ⟨s, hs, .refl _⟩

theorem append (h : Consumes P xs Q) (h' : Consumes Q ys R) : Consumes P (xs ++ ys) R := by
  intro s tokens more hs hx
  obtain ⟨before, after, rfl, rfl, rfl⟩ := List.map_eq_append_iff.1 hx
  obtain ⟨t, ht, hst⟩ := h s before (after ++ more) hs rfl
  obtain ⟨u, hu, htu⟩ := h' t after more ht rfl
  exact ⟨u, hu, List.append_assoc before after more ▸ hst.trans htu⟩

/-- A lexeme that is read on its own. -/
theorem token {x : Lexeme} (h : ∀ s token tokens, P s → token.lexeme = x →
      s.cancelled = false ∧ ∃ t,
        Yields operation (s.reading (token :: tokens) none []) () (t.reading tokens none []) ∧
          Q t ∧ t.frame = none) :
    Consumes P [x] Q := by
  intro s tokens more hs hx
  obtain ⟨token, tokens, rfl, htoken, hnil⟩ := List.map_eq_cons_iff.1 hx
  obtain rfl := List.map_eq_nil_iff.1 hnil
  obtain ⟨hc, t, hop, ht, hft⟩ := h s token more hs htoken
  exact ⟨t, ht, Session.leadsTo_of_operation hc hop hft fun _ => rfl⟩

/-- A lexeme that is read with the name behind it. -/
theorem named {x y : Lexeme} (h : ∀ s token named tokens, P s → token.lexeme = x →
      named.lexeme = y → s.cancelled = false ∧ ∃ t,
        Yields operation (s.reading (token :: named :: tokens) none []) ()
          (t.reading tokens none []) ∧ Q t ∧ t.frame = none) :
    Consumes P [x, y] Q := by
  intro s tokens more hs hx
  obtain ⟨token, tokens, rfl, htoken, hrest⟩ := List.map_eq_cons_iff.1 hx
  obtain ⟨named, tokens, rfl, hnamed, hnil⟩ := List.map_eq_cons_iff.1 hrest
  obtain rfl := List.map_eq_nil_iff.1 hnil
  obtain ⟨hc, t, hop, ht, hft⟩ := h s token named more hs htoken hnamed
  exact ⟨t, ht, Session.leadsTo_of_operation hc hop hft fun _ => rfl⟩

end Consumes

end StackLang
