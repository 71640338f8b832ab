import StackLang.Pending
import StackLang.Proofs.Token.Pieces

/-!
# Tokens on demand

A source that is read while it is evaluated reads a token when it is asked for one, and when it is
asked whether there is one left; then it keeps the token that it has seen for the next time.  That
makes no difference to one whose tokens have been read ahead.

* `Lookahead`: a source that is read on demand.
* `answers_lookahead`, `answers_pending`: both answer as the list of the tokens does.
-/

namespace StackLang

/-- What a source is asked for: the next token, or whether all of them have been used up. -/
inductive Query where
  | pull
  | check
deriving DecidableEq

inductive Answer where
  | token (t? : Option Token)
  | exhausted (b : Bool)
deriving DecidableEq

/-- The answers of a source that does this when it is asked. -/
def answers {σ : Type} (pull : σ → Option Token × σ) (check : σ → Bool × σ) :
    List Query → σ → List Answer
  | [], _ => []
  | .pull :: queries, s => .token (pull s).1 :: answers pull check queries (pull s).2
  | .check :: queries, s => .exhausted (check s).1 :: answers pull check queries (check s).2

/-- The answers of a list of tokens: the first is taken, and a check only looks. -/
def listAnswers : List Query → List Token → List Answer :=
  answers (fun ts => (ts.head?, ts.tail)) fun ts => (ts.isEmpty, ts)

/-- Two sources that stay alike give the same answers. -/
theorem answers_congr {σ τ : Type} {pull : σ → Option Token × σ} {check : σ → Bool × σ}
    {pull' : τ → Option Token × τ} {check' : τ → Bool × τ} {R : σ → τ → Prop}
    (hpull : ∀ s t, R s t → (pull s).1 = (pull' t).1 ∧ R (pull s).2 (pull' t).2)
    (hcheck : ∀ s t, R s t → (check s).1 = (check' t).1 ∧ R (check s).2 (check' t).2)
    {s : σ} {t : τ} (h : R s t) (queries : List Query) :
    answers pull check queries s = answers pull' check' queries t := by
  induction queries generalizing s t with
  | nil => rfl
  | cons query queries ih =>
    cases query with
    | pull => rw [answers, answers, (hpull s t h).1, ih (hpull s t h).2]
    | check => rw [answers, answers, (hcheck s t h).1, ih (hcheck s t h).2]

/-! ## Read ahead -/

namespace Pending

/-- Take the next token, if there is one. -/
def pull (p : Pending) : Option Token × Pending :=
  match p.nextToken? with
  | some (t, q) => (some t, q)
  | none => (none, p)

/-- A source whose tokens have been read ahead answers as the list of those does. -/
theorem answers_pending (queries : List Query) (p : Pending) :
    answers pull (fun p => (p.isExhausted, p)) queries p = listAnswers queries p.tokens := by
  refine answers_congr (R := fun p ts => p.tokens = ts) ?_ ?_ rfl queries
  · rintro p _ rfl
    unfold pull nextToken?
    cases hp : p.tokens with
    | nil => exact ⟨rfl, hp⟩
    | cons t ts => exact ⟨rfl, rfl⟩
  · rintro p _ rfl
    exact ⟨rfl, rfl⟩

end Pending

/-! ## Read on demand -/

/-- The place up to which a source has been read, and what was found there last, if it has only been
looked at. -/
structure Lookahead where
  cursor : Cursor
  seen : Option (Option Token)
deriving DecidableEq

namespace Lookahead

def ofSource (path source : String) : Lookahead :=
  ⟨.ofSource path source, none⟩

/-- Read the next token.  If there is none, all of the source is read. -/
def read (c : Cursor) : Option Token × Cursor :=
  match c.nextToken? with
  | some (t, behind) => (some t, behind)
  | none => (none, c.skipGap)

/-- Take what has been seen, or read a token. -/
def pull (s : Lookahead) : Option Token × Lookahead :=
  match s.seen with
  | some t? => (t?, { s with seen := none })
  | none => ((read s.cursor).1, ⟨(read s.cursor).2, none⟩)

/-- Look at what has been seen, or read a token and keep it. -/
def check (s : Lookahead) : Bool × Lookahead :=
  match s.seen with
  | some t? => (t?.isNone, s)
  | none => ((read s.cursor).1.isNone, ⟨(read s.cursor).2, some (read s.cursor).1⟩)

/-- The tokens that are still to come. -/
structure Awaits (s : Lookahead) (ts : List Token) : Prop where
  unread : s.seen = none → s.cursor.tokens.map (·.1) = ts
  read : ∀ t?, s.seen = some t? → t? = ts.head? ∧ s.cursor.tokens.map (·.1) = ts.tail

/-- A token that is read is the first one, and the others are read behind it. -/
theorem read_eq (c : Cursor) : (read c).1 = (c.tokens.map (·.1)).head? ∧
    (read c).2.tokens.map (·.1) = (c.tokens.map (·.1)).tail := by
  unfold read
  rw [Cursor.tokens_of_nextToken?]
  cases hn : c.nextToken? with
  | some found => exact ⟨rfl, rfl⟩
  | none =>
    have hend : c.skipGap = ⟨[], c.skipGap.location⟩ := by
      unfold Cursor.nextToken? at hn
      dsimp only at hn
      split at hn
      · rename_i hrest
        rw [← hrest]
      · cases hn
    refine ⟨rfl, ?_⟩
    rw [hend]
    simp

theorem Awaits.pull {s : Lookahead} {ts : List Token} (h : s.Awaits ts) :
    s.pull.1 = ts.head? ∧ s.pull.2.Awaits ts.tail := by
  unfold Lookahead.pull
  cases hs : s.seen with
  | some t? =>
    obtain ⟨ht, hts⟩ := h.read t? hs
    exact ⟨ht, fun _ => hts, nofun⟩
  | none =>
    obtain ⟨ht, hts⟩ := read_eq s.cursor
    rw [h.unread hs] at ht hts
    exact ⟨ht, fun _ => hts, nofun⟩

theorem Awaits.check {s : Lookahead} {ts : List Token} (h : s.Awaits ts) :
    s.check.1 = ts.isEmpty ∧ s.check.2.Awaits ts := by
  have hempty : ts.head?.isNone = ts.isEmpty := by cases ts <;> rfl
  unfold Lookahead.check
  cases hs : s.seen with
  | some t? =>
    obtain ⟨rfl, -⟩ := h.read t? hs
    exact ⟨hempty, h⟩
  | none =>
    obtain ⟨ht, hts⟩ := read_eq s.cursor
    rw [h.unread hs] at ht hts
    refine ⟨ht ▸ hempty, fun h => ?_, fun t? h => ?_⟩
    · cases h
    · cases h
      exact ⟨ht, hts⟩

theorem awaits_ofSource (path source : String) :
    (ofSource path source).Awaits (Token.ofSource path source) where
  unread _ := rfl
  read _ h := by cases h

/-- A source that is read on demand answers as the list of its tokens does, however often it is
checked in between. -/
theorem answers_lookahead (path source : String) (queries : List Query) :
    answers pull check queries (ofSource path source) =
      listAnswers queries (Token.ofSource path source) :=
  answers_congr (R := Awaits) (fun _ _ h => h.pull) (fun _ _ h => h.check)
    (awaits_ofSource path source) queries

end Lookahead

end StackLang
