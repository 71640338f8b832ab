import StackLang.Proofs.Saved.Defining
import StackLang.Proofs.Saved.Sources
import StackLang.Proofs.Words.Foundation

/-!
# Sessions that can tell how their words were made

The tokens between the name of a definition and its end are recorded.  While no word that runs
inside of the definition reads a token or touches the dictionary, they are all that the body depends
on.  So every word of a session that is reached in this way tells how it was made.

* `Dictionary.Told`, `Session.Faithful`: the invariant.
* `Session.Tidy`: what words inside of a definition may do.
* `faithful_of_step`: a step of a tidy session keeps the invariant.
* `faithful_of_visits`: it holds everywhere in a run.
-/

namespace StackLang

open Session

/-- Behind the built-in words, all entries tell how they were made. -/
structure Dictionary.Told (A : Dictionary → Nat → Prop) (d : Dictionary) : Prop where
  base : d.forgetBackTo builtins.size = builtins
  entries : ∀ i e, builtins.size ≤ i → d.get? i = some e → e.Recorded A (d.forgetBackTo i)

namespace Dictionary.Told

variable {A : Dictionary → Nat → Prop} {d : Dictionary} {i : Nat} {e : Entry}

/-- The entries of built-in words are as their specifications say. -/
theorem spec_of_get? (h : builtins.get? i = some e) : ∃ w, e.body = .builtin w ∧
    e.immediate = (w.spec.role != .plain) ∧ e.compileOnly = (w.spec.role == .compileOnly) := by
  refine builtins_induct (P := fun d => ∀ i e, d.get? i = some e → ∃ w : Builtin,
      e.body = .builtin w ∧ e.immediate = (w.spec.role != .plain) ∧
        e.compileOnly = (w.spec.role == .compileOnly))
    (fun _ _ he => by simp [get?, empty] at he) (fun d w hd i e he => ?_) i e h
  rcases get?_insert he with he | rfl
  · exact hd i e he
  · exact ⟨w, rfl, rfl, rfl⟩

theorem start : builtins.Told A where
  base := forgetBackTo_of_le (Nat.le_refl _)
  entries := fun _ _ hi he => absurd (lt_size_of_get? he) (Nat.not_lt.2 hi)

theorem size_le (h : d.Told A) : builtins.size ≤ d.size := by
  have hs := size_forgetBackTo d builtins.size
  rw [h.base] at hs
  omega

theorem get?_builtins (h : d.Told A) (hi : i < builtins.size) : builtins.get? i = d.get? i := by
  have := get?_forgetBackTo_eq d builtins.size i
  rwa [h.base, if_pos hi] at this

/-- Only words that are not built in lie behind the built-in ones. -/
theorem isBuiltin_iff (h : d.Told A) (he : d.get? i = some e) :
    e.isBuiltin = true ↔ i < builtins.size := by
  refine ⟨fun hb => Nat.lt_of_not_le fun hi => ?_, fun hi => ?_⟩
  · rw [(h.entries i e hi he).isBuiltin] at hb
    cases hb
  · obtain ⟨w, hw, -⟩ := spec_of_get? ((h.get?_builtins hi).trans he)
    rw [Entry.isBuiltin, hw]

theorem spec (h : d.Told A) {w : Builtin} (he : d.get? i = some e) (hb : e.body = .builtin w) :
    e.immediate = (w.spec.role != .plain) ∧ e.compileOnly = (w.spec.role == .compileOnly) := by
  have hi := (h.isBuiltin_iff he).1 (by rw [Entry.isBuiltin, hb])
  obtain ⟨w', hb', hspec⟩ := spec_of_get? ((h.get?_builtins hi).trans he)
  rw [hb] at hb'
  cases hb'
  exact hspec

theorem forgetBackTo (h : d.Told A) {mark : Nat} (hm : builtins.size ≤ mark) :
    (d.forgetBackTo mark).Told A where
  base := by rw [forgetBackTo_forgetBackTo, Nat.min_eq_right hm, h.base]
  entries := fun i e hi he => by
    have hlt := lt_size_of_get? he
    rw [size_forgetBackTo] at hlt
    rw [forgetBackTo_forgetBackTo, Nat.min_eq_right (by omega)]
    exact h.entries i e hi (get?_forgetBackTo he)

/-- The last entry tells how it was made, and so do those before it. -/
theorem of_last {n : Nat} (h : (d.forgetBackTo n).Told A) (hn : d.size = n + 1)
    (he : d.get? n = some e) (hr : e.Recorded A (d.forgetBackTo n)) : d.Told A := by
  have hle : builtins.size ≤ n := by
    have := h.size_le
    rw [size_forgetBackTo] at this
    omega
  refine ⟨?_, fun i x hi hx => ?_⟩
  · have := h.base
    rwa [forgetBackTo_forgetBackTo, Nat.min_eq_right hle] at this
  · have hlt := lt_size_of_get? hx
    rcases Nat.lt_succ_iff_lt_or_eq.1 (hn ▸ hlt) with hi' | rfl
    · have := h.entries i x hi (by rw [get?_forgetBackTo_eq, if_pos hi', hx])
      rwa [forgetBackTo_forgetBackTo, Nat.min_eq_right (by omega)] at this
    · rw [he] at hx
      cases hx
      exact hr

theorem insert (h : d.Told A)
    (hr : (e.inserted d.size).Recorded A d) :
    (d.insert e).2.Told A := by
  have hd : (d.insert e).2.forgetBackTo d.size = d := forgetBackTo_insert d e
  exact of_last (n := d.size) (by rw [hd]; exact h) (size_insert d e) (get?_insert_self d e)
    (by rw [hd]; exact hr)

/-- The last word is the one that `IMMEDIATE` is for. -/
theorem latestUserWord? (h : d.Told A) (hi : d.latestUserWord? = some i) :
    builtins.size ≤ i ∧ i + 1 = d.size := by
  obtain ⟨⟨j, e⟩, hl, rfl⟩ := Option.map_eq_some_iff.1 hi
  obtain ⟨hj, he, hp, hlast⟩ := lastBelow_eq_some_iff.1 hl
  simp only [Bool.and_eq_true, Bool.not_eq_true'] at hp
  have hle : builtins.size ≤ j := by
    refine Nat.le_of_not_lt fun hlt => ?_
    rw [(h.isBuiltin_iff he).2 hlt] at hp
    cases hp.2
  refine ⟨hle, Nat.le_antisymm hj (Nat.le_of_not_lt fun hlt => ?_)⟩
  -- A word behind it would be visible and not built in, too.
  obtain ⟨f, hf⟩ : ∃ f, d.get? (j + 1) = some f := by
    cases hf : d.get? (j + 1) with
    | none => exact absurd (get?_eq_none_iff.1 hf) (Nat.not_le.2 hlt)
    | some f => exact ⟨f, rfl⟩
  have hrec := h.entries (j + 1) f (by omega) hf
  have := hlast (j + 1) f (Nat.lt_succ_self j) hlt hf
  simp [hrec.visible, hrec.isBuiltin] at this

theorem madeImmediate (h : d.Told A) (hi : d.latestUserWord? = some i) :
    (d.modify i fun e => { e with immediate := true }).Told A := by
  obtain ⟨hle, hsize⟩ := h.latestUserWord? hi
  have hd : (d.modify i fun e => { e with immediate := true }).forgetBackTo i = d.forgetBackTo i :=
    forgetBackTo_modify d i _
  obtain ⟨e, he⟩ : ∃ e, d.get? i = some e := by
    cases he : d.get? i with
    | none =>
      have := get?_eq_none_iff.1 he
      omega
    | some e => exact ⟨e, rfl⟩
  refine of_last (n := i) (e := { e with immediate := true }) ?_ ?_ ?_ ?_
  · rw [hd]
    exact h.forgetBackTo hle
  · rw [size_modify, hsize]
  · rw [get?_modify_eq, if_pos rfl, he]
    rfl
  · rw [hd]
    exact (h.entries i e hle he).madeImmediate

end Dictionary.Told

namespace Session

/-- The words of the dictionary tell how they were made, and the definition that is open in the
first source has been recorded so far. -/
inductive Tells (A : Dictionary → Nat → Prop) (d : Dictionary) : List Pending → Prop
  | closed {ps : List Pending} (h : d.Told A) (hd : ps.head?.bind (·.definition) = none) :
    Tells A d ps
  /-- The last lexeme of all need not be written as the others are. -/
  | underway {tokens : List Token} {x : Definition} {ps : List Pending} {xs : List Lexeme}
    (h : (d.forgetBackTo x.word).Told A) (hxs : tokens ≠ [] → ∀ z ∈ xs, z.Written)
    (hruns : (d.forgetBackTo x.word).RunsOnly A xs) (hx : x.Underway d xs) :
    Tells A d (⟨tokens, some x⟩ :: ps)

/-- The session can tell how all of its words were made. -/
structure Faithful (A : Dictionary → Nat → Prop) (s : Session) : Prop where
  mark : s.sessionMark = builtins.size
  readable : ∀ p ∈ s.sources, Token.Readable p.tokens
  tells : Tells A s.dictionary s.sources

open StackLang.Action

/-- What runs inside of a definition reads no token and leaves the dictionary as it is, and it is a
word of which this is known, behind the words that were there when the definition was opened. -/
structure Tidy (A : Dictionary → Nat → Prop) (s : Session) : Prop where
  kept : ∀ t, s.isCompiling = true → s.frame ≠ none → step s = .ok () t →
    t.dictionary = s.dictionary ∧ t.sources = s.sources
  known : ∀ token tokens x rest i, s.frame = none → s.sources = ⟨token :: tokens, some x⟩ :: rest →
    token.lexeme.interlude? s.dictionary = some i → A (s.dictionary.forgetBackTo x.word) i

variable {A : Dictionary → Nat → Prop} {s t : Session}

namespace Tells

variable {d : Dictionary} {ps : List Pending}

theorem told (h : Tells A d ps) (hd : ps.head?.bind (·.definition) = none) : d.Told A := by
  cases h with
  | closed h => exact h
  | underway => cases hd

theorem below {x : Definition} (h : Tells A d ps) (hd : ps.head?.bind (·.definition) = some x) :
    (d.forgetBackTo x.word).Told A := by
  cases h with
  | closed _ hnone =>
    rw [hnone] at hd
    cases hd
  | underway h =>
    cases hd
    exact h

/-- A source behind the others makes no difference. -/
theorem append {p : Pending} (h : Tells A d ps) (hp : p.definition = none) :
    Tells A d (ps ++ [p]) := by
  cases h with
  | closed h hd =>
    refine .closed h ?_
    cases ps with
    | nil => exact hp
    | cons q ps => exact hd
  | underway h hxs hruns hx => exact .underway h hxs hruns hx

theorem base (h : Tells A d ps) : d.forgetBackTo builtins.size = builtins := by
  cases h with
  | closed h => exact h.base
  | underway h =>
    have hle := h.size_le
    rw [Dictionary.size_forgetBackTo] at hle
    have := h.base
    rwa [Dictionary.forgetBackTo_forgetBackTo, Nat.min_eq_right (by omega)] at this

end Tells

/-! ## Steps outside of a definition -/

/-- Outside of a definition every word is recorded when it is made, and only a colon opens a
definition. -/
theorem told_of_revision {next? : Option String} {w : Builtin} {o o' : Outline}
    (h : Revision next? o w o') (ho : o.dictionary.Told A) (hd : o.definition = none)
    (hm : o.sessionMark = builtins.size) :
    o'.definition = none ∧ o'.dictionary.Told A ∨ w = .defining .colon ∧ o'.definition ≠ none := by
  cases h with
  | keeps => exact .inl ⟨hd, ho⟩
  | opens => exact .inr ⟨rfl, Option.some_ne_none _⟩
  | closes source h =>
    rw [hd] at h
    cases h
  | constant location name v =>
    exact .inl ⟨hd, ho.insert (.constant (Entry.like_ofConstant location name v _))⟩
  | «variable» location name => exact .inl ⟨hd, ho.insert (.variable rfl)⟩
  | makesImmediate h =>
    rw [Outline.latest?, hd] at h
    exact .inl ⟨hd, ho.madeImmediate h⟩
  | forgets hn h hb =>
    refine .inl ⟨hd, ho.forgetBackTo (Nat.le_of_not_lt fun hlt => ?_)⟩
    rw [(ho.isBuiltin_iff (Dictionary.find?_eq_some_iff.1 h).2.1).2 hlt] at hb
    cases hb
  | resets =>
    refine .inl ⟨hd, ?_⟩
    show (o.dictionary.forgetBackTo o.sessionMark).Told A
    rw [hm, ho.base]
    exact Dictionary.Told.start
  | builds h =>
    rw [hd] at h
    cases h

theorem told_of_passage {name? : Option String} {o o' : Outline} (h : Passage name? o o')
    (hd : o.definition = none) : o'.definition = none ∧ o'.dictionary = o.dictionary := by
  cases h with
  | stays | enters | leaves => exact ⟨hd, rfl⟩
  | compiles h =>
    rw [hd] at h
    cases h

/-- A built-in word that a token runs. -/
theorem exists_of_nextBuiltin? {w : Builtin} {next? : Option String} (hf : s.frame = none)
    (h : s.nextBuiltin? = some (w, next?)) : ∃ token tokens definition rest word index e,
      s.sources = ⟨token :: tokens, definition⟩ :: rest ∧ token.lexeme = .word word ∧
        s.dictionary.find? word = some (index, e) ∧ e.body = .builtin w := by
  unfold nextBuiltin? at h
  rw [hf] at h
  dsimp only at h
  split at h
  · cases h
  · rename_i source rest hs
    split at h
    · cases h
    · rename_i token behind ht
      obtain ⟨tokens, definition⟩ := source
      cases tokens with
      | nil => cases ht
      | cons t tokens =>
        cases ht
        obtain ⟨callee, hc, hb⟩ := Option.bind_eq_some_iff.1 h
        unfold namedCallee? at hc
        split at hc
        · rename_i word hx
          obtain ⟨⟨index, e⟩, he, hc⟩ := Option.bind_eq_some_iff.1 hc
          dsimp only at hc
          split at hc
          · cases hc
          · cases hc
            have hget := (Dictionary.find?_eq_some_iff.1 he).2.1
            unfold builtinAt? at hb
            rw [hget, Option.bind_some] at hb
            split at hb
            · rename_i w' hw
              cases hb
              exact ⟨_, tokens, definition, rest, word, _, e, hs, hx, he, hw⟩
            · cases hb
        · cases hc

/-- A colon that succeeds has found a name, and the definition of that is open. -/
theorem opened_of_colon {next? : Option String}
    (hc : ∀ i e, s.dictionary.get? i = some e → e.body = .builtin (.defining .colon) →
      e.compileOnly = false) (hd : s.definition? = none) (hf : s.frame = none)
    (hn : s.nextBuiltin? = some (.defining .colon, next?)) (h : operation s = .ok () t) :
    ∃ token named tokens rest name, s.sources = ⟨token :: named :: tokens, none⟩ :: rest ∧
      named.name? = some name ∧
      ((s.knowing (some token.location)
        (s.dictionary.insert (Entry.reserved named.location name)).2).reading tokens
          (some (.opened s.dictionary.size (Text.uppercase name) named.location))
            rest).Beside t := by
  obtain ⟨token, tokens, definition, rest, word, index, e, hs, hx, he, hb⟩ :=
    exists_of_nextBuiltin? hf hn
  obtain rfl : definition = none := by rwa [definition?_of_sources hs] at hd
  have hruns : Runs s token (.defining .colon) :=
    ⟨word, index, e, hx, he, hb, hc index e (Dictionary.find?_eq_some_iff.1 he).2.1 hb⟩
  have hsource := reading_of_sources hs
  dsimp only at hsource
  rw [hsource] at h
  have stopped (hname : ∀ t ∈ tokens.head?, t.name? = none) : False :=
    (hruns.stops hf (stops_openDefinition (s := s.knowing _ s.dictionary) hname)).not_ok h
  cases tokens with
  | nil => exact (stopped fun _ h => by cases h).elim
  | cons named tokens =>
    cases hname : named.name? with
    | none => exact (stopped fun t ht => by cases ht; exact hname).elim
    | some name =>
      exact ⟨token, named, tokens, rest, name, hs, hname,
        ((yields_colon hruns hf hname).of_ok h).2⟩

/-! ## Tokens that are left -/

theorem readable_of_suffix {tokens tokens' : List Token} (h : tokens <:+ tokens')
    (hr : Token.Readable tokens') : Token.Readable tokens := by
  obtain ⟨before, rfl⟩ := h
  induction before with
  | nil => exact hr
  | cons token before ih => exact ih hr.2

/-- What is left of sources can be read as those can. -/
theorem readable_of_leftOver {ps qs : List Pending} (h : Pending.LeftOver ps qs)
    (hq : ∀ q ∈ qs, Token.Readable q.tokens) : ∀ p ∈ ps, Token.Readable p.tokens := by
  intro p hp
  obtain ⟨q, hqs, hpq⟩ := h p hp
  exact readable_of_suffix hpq (hq q hqs)

/-- A source with an open definition is not dropped, so there is more of it. -/
theorem kept_of_dropUsedSources {tokens : List Token} {x : Definition} {rest : List Pending}
    {u : Session} (hf : s.frame = none) (hu : (s.reading tokens (some x) rest).Beside u)
    (h : dropUsedSources u = .ok () t) : tokens ≠ [] ∧ t = u := by
  have hframe : u.frame.isNone = true := by rw [show u.frame = none from hu.frame.trans hf]; rfl
  have hsources : u.sources = ⟨tokens, some x⟩ :: rest := hu.sources
  unfold dropUsedSources at h
  rw [StackLang.get_bind, if_pos hframe, hsources] at h
  cases tokens with
  | nil => cases h
  | cons token tokens =>
    cases h
    refine ⟨List.cons_ne_nil _ _, ?_⟩
    rw [← hsources]

/-- With an open definition in front, nothing is dropped. -/
theorem eq_of_dropUsedSources {x : Definition} (hf : s.frame = none) (hd : s.definition? = some x)
    (h : dropUsedSources s = .ok () t) : t = s := by
  obtain ⟨⟨tokens, _⟩, rest, hsources, rfl⟩ := definition?_eq_some hd
  have hb : (s.reading tokens (some x) rest).Beside s := reading_of_sources hsources ▸ .refl s
  exact (kept_of_dropUsedSources hf hb h).2

/-! ## Steps -/

theorem isCompiling_of_outline (h : t.outline = s.outline) : t.isCompiling = s.isCompiling := by
  have hd := congrArg (fun o => o.definition.isSome) h
  simpa [outline, isCompiling] using hd

/-- Outside of a definition. -/
theorem tells_of_operation {u : Session} (hm : s.sessionMark = builtins.size)
    (ht : s.dictionary.Told A) (hd : s.definition? = none) (h : operation s = .ok () u)
    (hf : ∀ next?, s.nextBuiltin? = some (.defining .colon, next?) → s.frame = none)
    (hu : dropUsedSources u = .ok () t) (ho : t.outline = u.outline) :
    Tells A t.dictionary t.sources := by
  have hdict : t.dictionary = u.dictionary := congrArg Outline.dictionary ho
  have hdef : t.outline.definition = u.outline.definition := congrArg Outline.definition ho
  have hnone : s.outline.definition = none := by simp [outline, hd]
  have closed (hd : u.outline.definition = none) (ht : u.dictionary.Told A) :
      Tells A t.dictionary t.sources :=
    .closed (hdict ▸ ht) (Option.map_eq_none_iff.1 (hdef.trans hd))
  have hturn := turn_of_operation h
  cases hn : s.nextBuiltin? with
  | none =>
    rw [hn] at hturn
    obtain ⟨hd', hdict'⟩ := told_of_passage hturn hnone
    exact closed hd' (show u.outline.dictionary.Told A from hdict' ▸ ht)
  | some found =>
    obtain ⟨w, next?⟩ := found
    rw [hn] at hturn
    rcases told_of_revision hturn ht hnone hm with ⟨hd', ht'⟩ | ⟨rfl, -⟩
    · exact closed hd' ht'
    · have hf := hf next? hn
      obtain ⟨token, named, tokens, rest, name, -, -, hb⟩ := opened_of_colon
        (fun i e he hb => (ht.spec he hb).2) hd hf hn h
      obtain ⟨-, rfl⟩ := kept_of_dropUsedSources
        (s := s.knowing (some token.location) _) hf hb hu
      rw [hb.sources, hb.dictionary]
      refine .underway ?_ (fun _ _ hz => by cases hz) (fun _ hz => by cases hz)
        (Definition.Underway.opened s.dictionary named.location name)
      exact (Dictionary.forgetBackTo_insert s.dictionary _).symm ▸ ht

/-- A token inside of a definition that runs no compiled word adds its words to the body, or it
closes the definition. -/
theorem exists_of_bodyOperation {x : Definition} {u : Session} (hs : s.dictionary.Sound)
    (hf : s.frame = none) (hd : s.definition? = some x)
    (hq : ∀ (token : Token) tokens rest name index e code,
      s.sources = ⟨token :: tokens, some x⟩ :: rest → token.lexeme = .word name →
        s.dictionary.find? name = some (index, e) → e.immediate = true → e.body ≠ .compiled code)
    (h : operation s = .ok () u) (hu : dropUsedSources u = .ok () t) :
    ∃ token tokens rest, s.sources = ⟨token :: tokens, some x⟩ :: rest ∧
      ((∃ ws marks x', token.lexeme.effect? s.dictionary = some (ws, marks) ∧
        Definition.build (Definition.placed (some token.location) ws) x = .ok () x' ∧
        tokens ≠ [] ∧
        ((s.knowing (some token.location) (s.dictionary.marking x.word marks)).reading tokens
          (some (x'.record token.text)) rest).Beside t) ∨
      (token.lexeme.effect? s.dictionary = none ∧ x.control = [] ∧
        Definition.strayTarget? (x.code.push ⟨none, .exit⟩) = none ∧
        ((s.knowing (some token.location) (s.dictionary.modify x.word
          (Entry.filled (x.code.push ⟨none, .exit⟩) x.source))).reading tokens none
            rest).Beside u)) := by
  obtain ⟨⟨tokens, _⟩, rest, hsources, rfl⟩ := definition?_eq_some hd
  have hsource := reading_of_sources hsources
  dsimp only at hsource
  rw [hsource] at h
  cases tokens with
  | nil =>
    rw [operation_of_exhausted (s := s.reading [] (some x) rest) hf rfl rfl] at h
    cases h
    exact ((kept_of_dropUsedSources hf (.refl _) hu).1 rfl).elim
  | cons token tokens =>
    refine ⟨token, tokens, rest, hsources, ?_⟩
    cases he : token.lexeme.effect? s.dictionary with
    | none =>
      obtain ⟨hc, hstray, hb⟩ := closes_of_bodyToken hf hs he
        (fun name index e code => hq token tokens rest name index e code hsources) h
      exact .inr ⟨rfl, hc, hstray, hb⟩
    | some effect =>
      obtain ⟨ws, marks⟩ := effect
      cases hb : Definition.build (Definition.placed (some token.location) ws) x with
      | error c x' => exact ((stops_bodyToken hf he hb).not_ok h).elim
      | ok a x' =>
        have hbeside := ((yields_bodyToken hf he hb).of_ok h).2
        obtain ⟨hne, rfl⟩ := kept_of_dropUsedSources
          (s := s.knowing (some token.location) _) hf hbeside hu
        exact .inl ⟨ws, marks, x', rfl, hb, hne, hbeside⟩

/-- A token inside of a definition that runs a word is recorded, and the word runs. -/
theorem tells_of_interlude {token : Token} {tokens : List Token} {x : Definition}
    {rest : List Pending} {i : Nat} {u : Session} (hr : Token.Readable (token :: tokens))
    (hf : s.frame = none) (hsources : s.sources = ⟨token :: tokens, some x⟩ :: rest)
    (hi : token.lexeme.interlude? s.dictionary = some i)
    (hk : A (s.dictionary.forgetBackTo x.word) i) (ht : Tells A s.dictionary s.sources)
    (h : operation s = .ok () u) (hu : dropUsedSources u = .ok () t) :
    Tells A t.dictionary t.sources := by
  obtain ⟨name, e, code, hx, he, himmediate, hb⟩ := Dictionary.interlude?_eq_some_iff.1 hi
  have hsource := reading_of_sources hsources
  dsimp only at hsource
  rw [hsource] at h
  cases hreturns : s.returns.push? (.call none) with
  | none => exact ((stops_interlude hf hx he himmediate hb hreturns).not_ok h).elim
  | some returns =>
    have hbeside := ((yields_interlude hf hx he himmediate hb hreturns).of_ok h).2
    -- The word has got its frame, so no source is dropped.
    have hframe : u.frame = some ⟨i, e.name, code, 0⟩ := hbeside.frame
    rw [dropUsedSources_of_frame hframe] at hu
    cases hu
    rw [hbeside.sources, hbeside.dictionary]
    rw [hsources] at ht
    cases ht with
    | closed _ hd => cases hd
    | @underway _ _ _ xs ht hxs hruns hx =>
      refine .underway ht (fun hne => ?_) (hruns.snoc fun j hj => ?_) (hx.interrupt hi)
      · exact List.forall_mem_append.2
          ⟨hxs (List.cons_ne_nil _ _), List.forall_mem_singleton.2 (hr.1 hne)⟩
      · rw [hx.interlude?_below, hi] at hj
        cases hj
        exact hk

/-- Inside of a definition. -/
theorem tells_of_bodyOperation {x : Definition} {u : Session} (hs : s.dictionary.Sound)
    (hr : ∀ p ∈ s.sources, Token.Readable p.tokens) (hf : s.frame = none)
    (hd : s.definition? = some x) (hk : s.Tidy A) (ht : Tells A s.dictionary s.sources)
    (h : operation s = .ok () u) (hu : dropUsedSources u = .ok () t) (ho : t.outline = u.outline) :
    Tells A t.dictionary t.sources := by
  by_cases hruns : ∃ token tokens rest i, s.sources = ⟨token :: tokens, some x⟩ :: rest ∧
      token.lexeme.interlude? s.dictionary = some i
  · obtain ⟨token, tokens, rest, i, hsources, hi⟩ := hruns
    exact tells_of_interlude (hr _ (hsources ▸ List.mem_cons_self)) hf hsources hi
      (hk.known token tokens x rest i hf hsources hi) ht h hu
  have hquiet (token : Token) (tokens : List Token) (rest : List Pending) (name : String)
      (index : Nat) (e : Entry) (code : Code)
      (hsources : s.sources = ⟨token :: tokens, some x⟩ :: rest) (hx : token.lexeme = .word name)
      (he : s.dictionary.find? name = some (index, e)) (hi : e.immediate = true)
      (hb : e.body = .compiled code) : False :=
    hruns ⟨token, tokens, rest, index, hsources,
      Dictionary.interlude?_eq_some_iff.2 ⟨name, e, code, hx, he, hi, hb⟩⟩
  obtain ⟨token, tokens, rest, hsources, hbody⟩ := exists_of_bodyOperation hs hf hd hquiet h hu
  have hreadable : Token.Readable (token :: tokens) := hr _ (hsources ▸ List.mem_cons_self)
  rw [hsources] at ht
  cases ht with
  | closed _ hd => cases hd
  | @underway _ _ _ xs ht hxs hruns hx =>
    have hxs := hxs (List.cons_ne_nil _ _)
    rcases hbody with ⟨ws, marks, x', he, hb, hne, hbeside⟩ | ⟨-, hc, hstray, hb⟩
    · have hword : x'.word = x.word := (Definition.same_of_build hb).word
      have hbelow : (s.dictionary.marking x.word marks).forgetBackTo x'.word =
          s.dictionary.forgetBackTo x.word := by
        rw [hword, Dictionary.marking, Dictionary.forgetBackTo_modify]
      rw [hbeside.sources, hbeside.dictionary]
      refine .underway ?_ (fun _ => ?_) ?_ (hx.extend he hb)
      · show ((s.dictionary.marking x.word marks).forgetBackTo x'.word).Told A
        rwa [hbelow]
      · exact List.forall_mem_append.2 ⟨hxs, List.forall_mem_singleton.2 (hreadable.1 hne)⟩
      · show ((s.dictionary.marking x.word marks).forgetBackTo x'.word).RunsOnly A _
        rw [hbelow]
        refine hruns.snoc fun j hj => ?_
        rw [hx.interlude?_below, Dictionary.interlude?_of_effect? he] at hj
        cases hj
    · have hdef : u.definition? = none := hb.definition?
      rw [show t.dictionary = u.dictionary from congrArg Outline.dictionary ho, hb.dictionary]
      show Tells A (s.dictionary.modify x.word _) t.sources
      obtain ⟨e, hget, hrec⟩ := hx.recorded_filled hxs hruns hc hstray
      have hbelow := s.dictionary.forgetBackTo_modify x.word
        (Entry.filled (x.code.push ⟨none, .exit⟩) x.source)
      refine .closed (Dictionary.Told.of_last (n := x.word) ?_ ?_ hget ?_)
        (Option.map_eq_none_iff.1
          ((congrArg Outline.definition ho).trans (Option.map_eq_none_iff.2 hdef)))
      · rwa [hbelow]
      · rw [Dictionary.size_modify, hx.size]
      · rwa [hbelow]

/-- A step of a tidy session keeps it. -/
theorem faithful_of_step (hs : s.Valid AbleOrBlank) (h : s.Faithful A) (ht : step s = .ok () t)
    (hf : ∀ next?, s.nextBuiltin? = some (.defining .colon, next?) → s.frame = none)
    (hk : s.Tidy A) : t.Faithful A := by
  obtain ⟨u, hu, hdrop⟩ := exists_of_step_dropped ht
  have ho := outline_dropUsedSources (consistent_operation hs hu) hdrop
  refine ⟨?_, fun p hp => readable_of_leftOver (leftOver_of_step ht) h.readable p hp, ?_⟩
  · exact ((congrArg Outline.sessionMark ho).trans
      (marks_of_turn (turn_of_operation hu)).1).trans h.mark
  · cases hd : s.definition? with
    | none => exact tells_of_operation h.mark (h.tells.told hd) hd hu hf hdrop ho
    | some x =>
      have hc : s.isCompiling = true := by rw [isCompiling, hd]; rfl
      by_cases hframe : s.frame = none
      · exact tells_of_bodyOperation hs.entries h.readable hframe hd hk h.tells hu hdrop ho
      · obtain ⟨hdict, hsources⟩ := hk.kept t hc hframe ht
        rw [hdict, hsources]
        exact h.tells

/-! ## Moves -/

theorem faithful_of_reset (h : s.Faithful A) : s.reset.Faithful A where
  mark := h.mark
  readable := fun _ hp => by cases hp
  tells := by
    show Tells A (s.dictionary.forgetBackTo s.sessionMark) []
    rw [h.mark, h.tells.base]
    exact .closed .start rfl

/-- An error drops a definition that cannot be told. -/
theorem faithful_of_error (h : s.Faithful A) (ho : t.outline = s.outline.rolledBack)
    (hs : t.sources = []) : t.Faithful A where
  mark := (congrArg Outline.sessionMark ho).trans h.mark
  readable := fun p hp => by
    rw [hs] at hp
    cases hp
  tells := by
    have hdict : t.dictionary = s.outline.rolledBack.dictionary := congrArg Outline.dictionary ho
    rw [hs, hdict]
    refine .closed ?_ rfl
    cases hd : s.definition? with
    | none => simpa [Outline.rolledBack, outline, hd] using h.tells.told hd
    | some x => simpa [Outline.rolledBack, outline, hd] using h.tells.below hd

theorem faithful_of_dropUsedSources (hs : s.Consistent) (h : s.Faithful A)
    (ht : dropUsedSources s = .ok () t) : t.Faithful A := by
  cases hf : s.frame with
  | some f =>
    rw [dropUsedSources_of_frame hf] at ht
    cases ht
    exact h
  | none =>
    cases hd : s.definition? with
    | some x =>
      obtain rfl := eq_of_dropUsedSources hf hd ht
      exact h
    | none =>
      have ho := outline_dropUsedSources hs ht
      obtain ⟨sources, rfl, hleft⟩ := exists_of_dropUsedSources ht
      have hnone := Option.map_eq_none_iff.1 ((congrArg Outline.definition ho).trans
        (Option.map_eq_none_iff.2 hd))
      exact ⟨h.mark, fun p hp => h.readable p (hleft p hp), .closed (h.tells.told hd) hnone⟩

theorem faithful_of_ok {m : Move} (hs : s.Valid AbleOrBlank) (h : s.Faithful A) (hm : m ≠ .mark)
    (hm' : m ≠ .resetDefinitions)
    (hf : ∀ next?, s.nextBuiltin? = some (.defining .colon, next?) → s.frame = none)
    (hk : s.Tidy A) (ht : m.run s = .ok () t) : t.Faithful A := by
  cases m with
  | enqueue path source =>
    cases ht
    refine ⟨h.mark, fun p hp => ?_, ?_⟩
    · rcases List.mem_append.1 hp with hp | hp
      · exact h.readable p hp
      · rw [List.mem_singleton.1 hp]
        exact Token.readable_ofSource path source
    · exact h.tells.append rfl
  | dropUsedSources =>
    exact faithful_of_dropUsedSources hs.toConsistent h (eq_ok_of_checked ht)
  | step =>
    rcases step_of_run_step ht with ⟨-, ht⟩ | ⟨-, rfl⟩
    · exact faithful_of_step hs h ht hf hk
    · exact h
  | setMode mode | setCancelled cancelled | observe observers | takeOutput =>
    cases ht
    exact ⟨h.mark, h.readable, h.tells⟩
  | mark => exact (hm rfl).elim
  | reset =>
    cases ht
    exact faithful_of_reset h
  | resetDefinitions => exact (hm' rfl).elim

theorem faithful_of_move {m : Move} (hs : s.Valid AbleOrBlank) (h : s.Faithful A) (hm : m ≠ .mark)
    (hm' : m ≠ .resetDefinitions)
    (hf : ∀ next?, s.nextBuiltin? = some (.defining .colon, next?) → s.frame = none)
    (hk : s.Tidy A) (ht : remains (m.run s) = .ok t) : t.Faithful A := by
  cases hr : m.run s with
  | ok a u =>
    rw [hr] at ht
    cases ht
    exact faithful_of_ok hs h hm hm' hf hk hr
  | error f u =>
    rw [hr] at ht
    cases f with
    | script e =>
      cases ht
      obtain ⟨ho, hsources⟩ := outline_of_error hs hr
      exact faithful_of_error h ho hsources
    | breach b => cases ht
    | outOfFuel => exact (ne_outOfFuel_of_move hs hr).elim

/-! ## Runs -/

/-- Every session on the way of a run can tell how its words were made, if it is tidy all the way
and the mark stays where it was at the start. -/
theorem faithful_of_visits {config : Config} {moves : List Move} (hm : .mark ∉ moves)
    (hm' : .resetDefinitions ∉ moves)
    (hk : ∀ t, Visits moves (ofConfig config) t → t.Tidy A)
    (ht : Visits moves (ofConfig config) t) : t.Faithful A := by
  refine ht.induct ⟨rfl, fun _ hp => (by cases hp), .closed .start rfl⟩ fun m u v hp hu => ?_
  obtain ⟨before, after, hmoves, -, hrun⟩ := id hp
  refine faithful_of_move (valid_of_visits hp.before) hu ?_ ?_
    (fun _ hn => frame_of_visits hp.before hn (by decide)) (hk u hp.before) hrun
  · rintro rfl
    exact hm (by simp [hmoves])
  · rintro rfl
    exact hm' (by simp [hmoves])

end Session

end StackLang
