import StackLang.Proofs.Saved.Interludes
import StackLang.Proofs.Saved.Standard

/-!
# Making a definition again

The tokens of a definition are read again behind the same words.  Each token of the body adds what it
added then, or it runs a word that is through when the next token is read.

* `Session.ReadsOn`: what stays while the tokens of a body are read.
* `leadsTo_bodyToken`, `leadsTo_body`: one token of a body, and all of them.
* `leadsTo_definition`: a definition from its colon to its semicolon.
-/

namespace StackLang

open Session Action

/-- The word at the index stands alone, and the session is ready for it. -/
def Session.RunsAlone (s : Session) (nesting : Nat) (t : Session) (d : Dictionary) (i : Nat) :
    Prop :=
  s.Ready nesting d.size t ∧ d.StandsAlone s nesting i

/-- Tokens of the body have been read: the definition is still that of the same word, and the words
behind which it was opened are still there. -/
structure Session.ReadsOn (s : Session) (nesting : Nat) (t : Session) (x : Definition)
    (u : Session) (x' : Definition) : Prop where
  moved : ∃ stack l d, u = ({ t with stack } : Session).knowing l d
  word : x'.word = x.word
  name : x'.name = x.name
  below : u.dictionary.forgetBackTo x.word = t.dictionary.forgetBackTo x.word
  ready : ∀ known, s.Ready nesting known t → s.Ready nesting known u

section

variable {s t u v : Session} {nesting : Nat} {x x' x'' : Definition} {xs done : List Lexeme}
  {token : Token} {tokens : List Token} {y : Definition} {m : Bool}

namespace Session.ReadsOn

theorem refl (s : Session) (nesting : Nat) (t : Session) (x : Definition) :
    s.ReadsOn nesting t x t x :=
  ⟨⟨t.stack, t.location, t.dictionary, rfl⟩, rfl, rfl, rfl, fun _ => id⟩

theorem trans (h : s.ReadsOn nesting t x u x') (h' : s.ReadsOn nesting u x' v x'') :
    s.ReadsOn nesting t x v x'' := by
  obtain ⟨⟨_, _, _, rfl⟩, hword, hname, hbelow, hready⟩ := h
  obtain ⟨⟨stack, l, d, rfl⟩, hword', hname', hbelow', hready'⟩ := h'
  rw [hword] at hbelow'
  exact ⟨⟨stack, l, d, rfl⟩, hword'.trans hword, hname'.trans hname, hbelow'.trans hbelow,
    fun known ht => hready' known (hready known ht)⟩

end Session.ReadsOn

/-- A token of the body adds what it is assembled to, or runs a word. -/
theorem leadsTo_bodyToken (hf : t.frame = none) (hc : t.cancelled = false)
    (hx : x.Underway t.dictionary done)
    (hruns : ∀ i, token.lexeme.interlude? (t.dictionary.forgetBackTo x.word) = some i →
      s.RunsAlone nesting t (t.dictionary.forgetBackTo x.word) i)
    (ha : (t.dictionary.forgetBackTo x.word).assemble?
      ((t.dictionary.forgetBackTo x.word).proper (done ++ token.lexeme :: xs)) (.bare, false) =
        some (y, m)) (hne : tokens ≠ []) :
    ∃ u x', (t.feeding (token :: tokens) (some x)).LeadsTo (u.feeding tokens (some x')) ∧
      s.ReadsOn nesting t x u x' ∧ x'.Underway u.dictionary (done ++ [token.lexeme]) := by
  cases hi : token.lexeme.interlude? t.dictionary with
  | some i =>
    obtain ⟨hready, halone⟩ := hruns i (by rwa [hx.interlude?_below])
    rw [hx.size_below] at hready
    obtain ⟨stack, l, hlead⟩ := leadsTo_interlude hready hx hi halone hne
    exact ⟨_, _, hlead, ⟨⟨stack, l, t.dictionary, rfl⟩, rfl, rfl, rfl,
      fun _ ht => ht.moved stack l⟩, hx.interrupt hi⟩
  | none =>
    obtain ⟨ws, marks, x', he, hb⟩ := hx.exists_build hi ha (some token.location)
    obtain ⟨hw, hn, -⟩ : x.Same x' := Definition.same_of_build hb
    exact ⟨_, _, leadsTo_of_operation hc (yields_bodyToken hf he hb) hf fun h => absurd h hne,
      ⟨⟨t.stack, some token.location, t.dictionary.marking x.word marks, rfl⟩, hw, hn,
        Dictionary.forgetBackTo_modify _ _ _, fun _ ht => ht.marking x.word marks _⟩,
      hx.extend he hb⟩

/-- The tokens of a body build the definition that their lexemes assemble.  What the words that run
among them do to the stack is left open. -/
theorem leadsTo_body {body : List Token} (hf : t.frame = none) (hc : t.cancelled = false)
    (hx : x.Underway t.dictionary done)
    (hruns : (t.dictionary.forgetBackTo x.word).RunsOnly (s.RunsAlone nesting t)
      (body.map Token.lexeme))
    (ha : (t.dictionary.forgetBackTo x.word).assemble?
      ((t.dictionary.forgetBackTo x.word).proper (done ++ body.map Token.lexeme))
        (.bare, false) = some (y, m)) (token : Token) (tokens : List Token) :
    ∃ u x', (t.feeding (body ++ token :: tokens) (some x)).LeadsTo
        (u.feeding (token :: tokens) (some x')) ∧
      s.ReadsOn nesting t x u x' ∧ x'.Underway u.dictionary (done ++ body.map Token.lexeme) := by
  induction body generalizing t x done with
  | nil => exact ⟨t, x, .refl _, .refl s nesting t x, by rwa [List.map_nil, List.append_nil]⟩
  | cons first body ih =>
    -- What the other tokens need behind the first one is what `ReadsOn` keeps.
    obtain ⟨hfirst, hbody⟩ := List.forall_mem_cons.1 hruns
    have hne : body ++ token :: tokens ≠ [] := by simp
    obtain ⟨u, x', hlead, hp, hx'⟩ := leadsTo_bodyToken hf hc hx hfirst ha hne
    obtain ⟨⟨stack, l, d, rfl⟩, hword, -, hbelow, hready⟩ := id hp
    rw [List.map_cons, List.append_cons] at ha
    obtain ⟨v, x'', hlead', hp', hx''⟩ := ih (t := ({ t with stack } : Session).knowing l d)
      (x := x') hf hc hx'
      (by
        rw [hword, hbelow]
        exact fun z hz i hi => (hbody z hz i hi).imp_left (hready _))
      (by rwa [hword, hbelow])
    refine ⟨v, x'', hlead.trans hlead', hp.trans hp', ?_⟩
    rwa [List.map_cons, List.append_cons]

/-- From its colon to its semicolon a definition adds one entry, with the code that its lexemes
assemble. -/
theorem leadsTo_definition {y : Definition} {m : Bool} {colon named semicolon : Token}
    {body : List Token} {name : String} (hf : t.frame = none) (hr : t.cancelled = false)
    (hopen : t.dictionary.Finds (.defining .colon))
    (hclose : t.dictionary.Finds (.defining .semicolon)) (hcolon : colon.lexeme = .word ":")
    (hn : named.name? = some name) (hsemicolon : semicolon.lexeme = .word ";")
    (hruns : t.dictionary.RunsOnly (s.RunsAlone nesting t) (body.map Token.lexeme))
    (hy : t.dictionary.assemble? (t.dictionary.proper (body.map Token.lexeme)) (.bare, false) =
      some (y, m)) (hc : y.control = [])
    (hstray : Definition.strayTarget? (y.code.push ⟨none, .exit⟩) = none) (tokens : List Token) :
    ∃ stack l e, (t.feeding (colon :: named :: (body ++ semicolon :: tokens)) none).LeadsTo
        ((({ t with stack } : Session).knowing l (t.dictionary.push e)).feeding tokens none) ∧
      e.name = Text.uppercase (Text.uppercase name) ∧ e.immediate = m ∧
      e.Like (Entry.filled (y.code.push ⟨none, .exit⟩) (Lexeme.bodyText (body.map Token.lexeme))
        (Entry.reserved .unspecified "")) t.dictionary.size := by
  have hfound : Runs t colon (.defining .colon) := runs_of_finds hopen hcolon (by decide)
  have hbelow : (t.dictionary.insert (Entry.reserved named.location name)).2.forgetBackTo
      t.dictionary.size = t.dictionary := Dictionary.forgetBackTo_insert _ _
  -- The hidden entry of the definition is no variable.
  have hopened {known : Nat} (h : s.Ready nesting known t) : s.Ready nesting known
      (t.knowing (some colon.location)
        (t.dictionary.insert (Entry.reserved named.location name)).2) := by
    refine h.knowing (h.unaliased.insert fun _ h => by cases h) (fun i a ha => ?_) t.stack _
    obtain ⟨y, hy, ho⟩ := ha
    rcases Dictionary.get?_insert hy with hy | rfl
    · exact ⟨y, hy, ho⟩
    · cases ho
  have hruns' : ((t.dictionary.insert (Entry.reserved named.location name)).2.forgetBackTo
      t.dictionary.size).RunsOnly (s.RunsAlone nesting (t.knowing (some colon.location)
        (t.dictionary.insert (Entry.reserved named.location name)).2))
      (body.map Token.lexeme) := by
    rw [hbelow]
    exact fun z hz j hj => (hruns z hz j hj).imp_left hopened
  obtain ⟨u, x, hlead, ⟨⟨stack, l, d', rfl⟩, hword, hname, hd', -⟩, hunder⟩ := leadsTo_body
    (t := t.knowing (some colon.location)
      (t.dictionary.insert (Entry.reserved named.location name)).2)
    hf hr (Definition.Underway.opened t.dictionary named.location name) hruns'
    (hbelow.symm ▸ hy) semicolon tokens
  have hd' : d'.forgetBackTo t.dictionary.size = t.dictionary := hd'.trans hbelow
  have hword : x.word = t.dictionary.size := hword
  have hunder : x.Underway d' (body.map Token.lexeme) := hunder
  -- What the lexemes assemble is the definition that has been built.
  obtain ⟨e, hget, hname', hassembled, hlike⟩ := hunder.filled
  rw [hword, hd', hy] at hassembled
  obtain ⟨rfl, rfl⟩ := Prod.mk.inj (Option.some.inj hassembled)
  rw [Definition.Underway.strayTarget?_skeleton] at hstray
  -- The semicolon is the one that was found before the definition was opened.
  obtain ⟨index, entry, hfind, hbody, hi, -⟩ := hclose
  have hfind' : d'.find? ";" = some (index, entry) := by
    rw [← hunder.find?_below, hword, hd']
    exact hfind
  have hpush : d'.modify x.word (Entry.filled (x.code.push ⟨none, .exit⟩) x.source) =
      t.dictionary.push e := by
    rw [hword] at hget ⊢
    refine Dictionary.eq_push ?_ ?_ hget
    · rw [Dictionary.size_modify, ← hunder.size, hword]
    · rw [Dictionary.forgetBackTo_modify, hd']
  refine ⟨stack, some semicolon.location, e, ?_, hname'.trans hname, rfl, hword ▸ hlike⟩
  rw [← hpush]
  refine (leadsTo_of_operation hr (yields_colon hfound hf hn) hf (by simp)).trans (hlead.trans ?_)
  exact leadsTo_of_operation (s := ({ t with stack } : Session).knowing l d') hr
    (yields_semicolon hf hsemicolon hfind' hbody hi hc hstray) hf fun _ => rfl


end

end StackLang
