import StackLang.Proofs.Saved.Reading
import StackLang.Proofs.Words.Moves

/-!
# Where the tokens of a session come from

A session only uses tokens up, from the front of the sources that were queued, so at any time the
tokens of its sources are what is left of some texts.  Those were taken from a text by the reader,
and can be printed so that it takes them again.

* `leftOver_of_operation`, `leftOver_of_move`: tokens are used up.
* `Pending.OfText`: a source whose tokens are the rest of a text.
* `ofText_of_visits`: every source is one, everywhere in a run.
* `Lexeme.Read`: what the reader takes from a text.
-/

namespace StackLang

open Session Action

/-! ## Tokens that are left -/

namespace Pending.LeftOver

variable {ps qs rs : List Pending}

theorem of_subset (h : ps ⊆ qs) : LeftOver ps qs := fun p hp => ⟨p, h hp, List.suffix_refl _⟩

theorem trans (h : LeftOver ps qs) (h' : LeftOver qs rs) : LeftOver ps rs := by
  intro p hp
  obtain ⟨q, hq, hpq⟩ := h p hp
  obtain ⟨r, hr, hqr⟩ := h' q hq
  exact ⟨r, hr, hpq.trans hqr⟩

end Pending.LeftOver

namespace Session

variable {s t : Session}

theorem lasting_leftOver (sources : List Pending) :
    Lasting fun s => Pending.LeftOver s.sources sources where
  write := fun _ h => h
  record := fun _ h => h
  sources := fun hl h => hl.trans h
  putAside := fun _ h => h
  takeBack := fun _ h => h

/-- An operation only uses tokens up. -/
theorem leftOver_of_operation (h : operation s = .ok () t) :
    Pending.LeftOver t.sources s.sources := by
  have ha := (lasting_leftOver s.sources).congruence.alike_operation (fun _ _ h => h)
    (fun _ _ h => h) (Pending.LeftOver.of_subset fun _ h => h)
  rw [h] at ha
  cases ha with
  | ok _ h => exact h.2

theorem leftOver_of_dropUsedSources (h : dropUsedSources s = .ok () t) :
    Pending.LeftOver t.sources s.sources := by
  obtain ⟨sources, rfl, hleft⟩ := exists_of_dropUsedSources h
  exact .of_subset hleft

theorem leftOver_of_step (h : step s = .ok () t) : Pending.LeftOver t.sources s.sources := by
  obtain ⟨u, hu, h⟩ := exists_of_step_dropped h
  exact (leftOver_of_dropUsedSources h).trans (leftOver_of_operation hu)

/-- So does a move that queues no source. -/
theorem leftOver_of_move {m : Move} (hs : s.Valid AbleOrBlank)
    (hm : ∀ path source, m ≠ .enqueue path source) (ht : remains (m.run s) = .ok t) :
    Pending.LeftOver t.sources s.sources := by
  cases hr : m.run s with
  | error f u =>
    rw [hr] at ht
    cases f with
    | script e =>
      cases ht
      rw [(outline_of_error hs hr).2]
      exact nofun
    | breach b => cases ht
    | outOfFuel => exact (ne_outOfFuel_of_move hs hr).elim
  | ok a u =>
    rw [hr] at ht
    cases ht
    cases m with
    | enqueue path source => exact (hm path source rfl).elim
    | dropUsedSources => exact leftOver_of_dropUsedSources (eq_ok_of_checked hr)
    | step =>
      rcases step_of_run_step hr with ⟨-, h⟩ | ⟨-, rfl⟩
      · exact leftOver_of_step h
      · exact .of_subset fun _ h => h
    | setMode | setCancelled | observe | takeOutput | mark | resetDefinitions =>
      cases hr
      exact .of_subset fun _ h => h
    | reset =>
      cases hr
      exact nofun

end Session

/-! ## Texts -/

/-- The tokens of the source are the rest of a text. -/
def Pending.OfText (p : Pending) : Prop :=
  ∃ c : Cursor, p.tokens = c.tokens.map (·.1)

/-- What the reader takes from a text, but for the end of the text. -/
structure Lexeme.Read (x : Lexeme) : Prop where
  written : x.Written
  number : ∀ n, x = .number n → ∃ w, Number.read? w = some n

theorem Cursor.read_of_nextToken? {c d : Cursor} {t : Token} (h : c.nextToken? = some (t, d))
    (hd : d.rest ≠ []) : t.lexeme.Read where
  written := written_of_nextToken? h hd
  number := by
    unfold nextToken? at h
    dsimp only at h
    split at h
    · cases h
    · obtain ⟨rfl, -⟩ := Prod.mk.inj (Option.some.inj h)
      intro n hn
      unfold lexeme at hn
      split at hn
      · cases hn
      · split at hn
        · rename_i hread
          cases hn
          exact ⟨_, hread⟩
        · cases hn

namespace Pending.OfText

variable {p q : Pending} {token : Token} {tokens : List Token} {definition : Option Definition}

theorem ofSource (path source : String) : (Pending.ofSource path source).OfText :=
  ⟨Cursor.ofSource path source, rfl⟩

/-- Behind the first token is the rest of a text again. -/
theorem exists_of_cons (h : OfText ⟨token :: tokens, definition⟩) : ∃ c d : Cursor,
    c.nextToken? = some (token, d) ∧ tokens = d.tokens.map (·.1) := by
  obtain ⟨c, hc⟩ := h
  rw [Cursor.tokens_of_nextToken?] at hc
  split at hc
  · cases hc
  · rename_i t d hnext
    obtain ⟨rfl, rfl⟩ := List.cons.inj hc
    exact ⟨c, d, hnext, rfl⟩

theorem of_suffix (h : p.tokens <:+ q.tokens) (hq : q.OfText) : p.OfText := by
  obtain ⟨ps, definition⟩ := p
  obtain ⟨qs, definition'⟩ := q
  obtain ⟨before, hbefore⟩ := h
  dsimp only at hbefore
  subst hbefore
  induction before with
  | nil => exact hq
  | cons token before ih =>
    obtain ⟨c, d, -, hd⟩ := exists_of_cons hq
    exact ih ⟨d, hd⟩

/-- A token that is not the last one can be printed. -/
theorem read (h : OfText ⟨token :: tokens, definition⟩) (hne : tokens ≠ []) :
    token.lexeme.Read := by
  obtain ⟨c, ⟨rest, l⟩, hc, hd⟩ := exists_of_cons h
  refine Cursor.read_of_nextToken? hc ?_
  rintro rfl
  exact hne (by simpa using hd)

end Pending.OfText

/-- The tokens of all sources are the rest of texts, everywhere in a run. -/
theorem Session.ofText_of_move {m : Move} {s t : Session} (hv : s.Valid AbleOrBlank)
    (hs : ∀ p ∈ s.sources, p.OfText) (hm : remains (m.run s) = .ok t) :
    ∀ p ∈ t.sources, p.OfText := by
  by_cases hqueues : ∃ path source, m = .enqueue path source
  · obtain ⟨path, source, rfl⟩ := hqueues
    cases hm
    intro p hp
    rcases List.mem_append.1 hp with hp | hp
    · exact hs p hp
    · rw [List.mem_singleton.1 hp]
      exact .ofSource path source
  · intro p hp
    obtain ⟨q, hq, hpq⟩ := leftOver_of_move hv (fun path source h => hqueues ⟨path, source, h⟩) hm
      p hp
    exact .of_suffix hpq (hs q hq)

theorem Session.ofText_of_visits {config : Config} {moves : List Move} {s : Session}
    (hs : Visits moves (ofConfig config) s) : ∀ p ∈ s.sources, p.OfText := by
  refine hs.induct (P := fun s => ∀ p ∈ s.sources, p.OfText) nofun fun m u v hp hu => ?_
  have hv := valid_of_visits hp.before
  obtain ⟨-, -, -, -, hm⟩ := id hp
  exact ofText_of_move hv hu hm

end StackLang
