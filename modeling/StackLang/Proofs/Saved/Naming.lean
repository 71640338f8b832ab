import StackLang.Proofs.Saved.Sources
import StackLang.Proofs.Saved.Writing
import StackLang.Proofs.Token.Printing
import StackLang.Proofs.Words.Closing
import StackLang.Proofs.Words.Foundation

/-!
# The names that tokens give

A defining word takes the token behind it for a name.  So a name is a text that is read as one name
wherever a blank is behind it, or it is the `(` that ended its source, which begins a comment
anywhere else.

* `IsGiven`: what tokens can give for a name.
* `names_of_isName`: such a name gives itself when it is read again.
* `given_of_nextName?`, `named_of_step`: a word has its name from a token.
* `named_of_visits`: so it is everywhere in a run.
-/

namespace StackLang

open Session Action

/-- The name is read as one, or it is the parenthesis at the end of a source. -/
def IsGiven (name : String) : Prop :=
  IsName name ∨ name = "("

theorem IsGiven.uppercase {name : String} (h : IsGiven name) : IsGiven (Text.uppercase name) := by
  rcases h with h | rfl
  · exact .inl h.uppercase
  · exact .inr (by decide +kernel)

/-! ## Reading a name back -/

namespace Lexeme

variable {name : String}

/-- A name is read as the number or the word that it is. -/
theorem readFrom_lexemeOfWord (h : IsName name) : (Piece.lexemeOfWord name).ReadFrom name := by
  intro l b rest hb
  have hfits : Piece.Fits (b :: rest) (.word name.toList) :=
    Piece.fits_name h fun c hc => Option.some.inj hc ▸ hb
  have hnext := Cursor.nextToken?_of_word (l := l) hfits
  rw [String.ofList_toList] at hnext
  exact ⟨_, hnext⟩

/-- A name that is not a number is read as a word. -/
theorem readsBack_of_isName (h : IsName name) (hn : Number.read? name = none) :
    (word name).ReadsBack :=
  readsBack_word ⟨h.spelled, h.opens, hn⟩

/-- A name in upper case gives itself, if the text of the number that it may look like does. -/
theorem names_of_isName (h : IsName name) (hup : Text.uppercase name = name)
    (hn : ∀ n, Number.read? name = some n → Text.uppercase n.text = name) :
    (Piece.lexemeOfWord name).Names name := by
  refine ⟨readFrom_lexemeOfWord h, ?_⟩
  unfold Piece.lexemeOfWord
  cases hnumber : Number.read? name with
  | none => exact ⟨name, rfl, hup⟩
  | some n => exact ⟨n.text, rfl, hn n hnumber⟩

end Lexeme

/-! ## Where names come from -/

/-- All names are given ones. -/
def Dictionary.Named (d : Dictionary) : Prop :=
  ∀ i e, d.get? i = some e → IsGiven e.name

namespace Session

variable {s t : Session} {name : String} {next? : Option String} {w : Builtin}

/-! ## Tokens -/

theorem isGiven_of_nextToken? {c d : Cursor} {token : Token} (h : c.nextToken? = some (token, d))
    (hn : token.name? = some name) : IsGiven name := by
  unfold Token.name? at hn
  cases hx : token.lexeme with
  | number n =>
    rw [hx] at hn
    obtain rfl := Option.some.inj hn
    exact .inl (Number.isName_text n)
  | string form text =>
    rw [hx] at hn
    cases hn
  | word w =>
    rw [hx] at hn
    obtain rfl := Option.some.inj hn
    obtain ⟨hspelled, hform, -⟩ := Cursor.spelled_of_nextToken? h hx
    exact hspelled.imp (fun hs => ⟨hs, hform⟩) And.left

/-- The name that comes next is given. -/
theorem given_of_nextName? {ps : List Pending} (hp : ∀ p ∈ ps, p.OfText)
    (hn : nextName? ps = some name) : IsGiven name := by
  obtain ⟨⟨tokens, definition⟩, hsource, hn⟩ := Option.bind_eq_some_iff.1 hn
  obtain ⟨token, htoken, hname⟩ := Option.bind_eq_some_iff.1 hn
  obtain ⟨rest, rfl⟩ := List.head?_eq_some_iff.1 hsource
  obtain ⟨tokens, rfl⟩ := List.head?_eq_some_iff.1 htoken
  obtain ⟨c, d, hc, -⟩ := (hp _ List.mem_cons_self).exists_of_cons
  exact isGiven_of_nextToken? hc hname

/-- The name that a built-in word finds is given. -/
theorem given_of_nextBuiltin? (hp : ∀ p ∈ s.sources, p.OfText)
    (hn : s.nextBuiltin? = some (w, some name)) : IsGiven name := by
  have at_callee {s : Session} {i : Nat} (hp : ∀ p ∈ s.sources, p.OfText)
      (h : s.builtinAt? i = some (w, some name)) : IsGiven name := by
    obtain ⟨e, -, h⟩ := Option.bind_eq_some_iff.1 h
    split at h
    · obtain ⟨rfl, hname⟩ := Prod.mk.inj (Option.some.inj h)
      exact given_of_nextName? hp hname
    · cases h
  unfold nextBuiltin? at hn
  split at hn
  · obtain ⟨i, -, hn⟩ := Option.bind_eq_some_iff.1 hn
    exact at_callee hp hn
  · split at hn
    · cases hn
    · rename_i source rest hsources
      split at hn
      · cases hn
      · rename_i token behind hnext
        obtain ⟨i, -, hn⟩ := Option.bind_eq_some_iff.1 hn
        refine at_callee (fun p hp' => ?_) hn
        have hsource : source.OfText := hp source (hsources ▸ List.mem_cons_self)
        rcases List.mem_cons.1 hp' with rfl | hp'
        · refine .of_suffix ?_ hsource
          unfold Pending.nextToken? at hnext
          split at hnext
          · cases hnext
          · rename_i tokens htokens
            cases hnext
            exact htokens ▸ List.suffix_cons _ _
        · exact hp p (hsources ▸ List.mem_cons_of_mem source hp')

/-! ## Entries -/

/-- A defining word that takes a name appends the entry of that name. -/
theorem exists_of_defines {d : DefiningWord} (hd : d = .colon ∨ d = .constant ∨ d = .variable)
    (h : d.run s = .ok () t) : ∃ name e, nextName? s.sources = some name ∧
      t.dictionary = (s.dictionary.insert e).2 ∧
      Text.uppercase e.name = Text.uppercase name := by
  rcases hd with rfl | rfl | rfl
  · obtain ⟨location, name, hname, ho⟩ := outline_of_openDefinition h
    exact ⟨name, _, hname, congrArg Outline.dictionary ho, Text.uppercase_uppercase name⟩
  · obtain ⟨_, u, hu, h⟩ := exists_of_bind h
    obtain ⟨stack, rfl⟩ := exists_of_operands hu
    obtain ⟨⟨location, name⟩, v, hv, h⟩ := exists_of_bind h
    obtain ⟨hname, sources, rfl, -⟩ := exists_of_nextName hv
    obtain ⟨x, w, hw, h⟩ := exists_of_bind h
    obtain ⟨stack', rfl⟩ := exists_of_operands hw
    cases h
    exact ⟨name, _, hname, rfl, Text.uppercase_uppercase name⟩
  · obtain ⟨⟨location, name⟩, u, hu, h⟩ := exists_of_bind h
    obtain ⟨hname, sources, rfl, -⟩ := exists_of_nextName hu
    obtain ⟨address, v, hv, h⟩ := exists_of_bind h
    unfold allot at hv
    split at hv
    · cases hv
      cases h
      exact ⟨name, _, hname, rfl, Text.uppercase_uppercase name⟩
    · cases hv

theorem named_of_defines {d : DefiningWord} (hp : ∀ p ∈ s.sources, p.OfText)
    (hd : d = .colon ∨ d = .constant ∨ d = .variable)
    (hn : s.nextBuiltin? = some (.defining d, next?)) (h : Did (.defining d, next?) s t)
    (hs : s.dictionary.Named) : t.dictionary.Named := by
  obtain ⟨u, v, hrun, ho, -, hnext, ht⟩ := h
  obtain ⟨name, e, hname, hinsert, hupper⟩ := exists_of_defines hd hrun
  have hdict : t.dictionary = (s.dictionary.insert e).2 := by
    rw [show t.dictionary = v.dictionary from congrArg Outline.dictionary ht, hinsert,
      show u.dictionary = s.dictionary from congrArg Outline.dictionary ho]
  obtain rfl : next? = some name := hnext.symm.trans hname
  intro i x hx
  rw [hdict] at hx
  rcases Dictionary.get?_insert hx with hx | rfl
  · exact hs i x hx
  · show IsGiven (Text.uppercase e.name)
    rw [hupper]
    exact (given_of_nextBuiltin? hp hn).uppercase

theorem named_of_step (hv : s.Valid AbleOrBlank) (hp : ∀ p ∈ s.sources, p.OfText)
    (hs : s.dictionary.Named) (h : step s = .ok () t) : t.dictionary.Named := by
  have hturn := turn_of_step hv h
  have changed {index : Nat} {f : Entry → Entry} (hf : ∀ e, (f e).name = e.name) :
      (s.dictionary.modify index f).Named := by
    intro i e he
    rcases Dictionary.get?_modify he with he | ⟨x, -, hx, rfl⟩
    · exact hs i e he
    · rw [hf]
      exact hs i x hx
  show t.outline.dictionary.Named
  cases hn : s.nextBuiltin? with
  | none =>
    rw [hn] at hturn
    rw [dictionary_of_passage hturn]
    exact hs
  | some found =>
    obtain ⟨w, next?⟩ := found
    rw [hn] at hturn
    have hdid := did_of_step hv hn h
    generalize ho : t.outline = o at hturn
    cases (hturn : Revision next? s.outline w o) with
    | keeps | builds => exact hs
    | opens => exact ho ▸ named_of_defines hp (.inl rfl) hn hdid hs
    | constant => exact ho ▸ named_of_defines hp (.inr (.inl rfl)) hn hdid hs
    | «variable» => exact ho ▸ named_of_defines hp (.inr (.inr rfl)) hn hdid hs
    | closes | makesImmediate => exact changed fun _ => rfl
    | forgets | resets => exact fun i e he => hs i e (Dictionary.get?_forgetBackTo he)

/-! ## Runs -/

theorem named_builtins : builtins.Named :=
  builtins_induct (fun _ _ he => by simp [Dictionary.get?, Dictionary.empty] at he)
    fun d w hd i e he => by
      rcases Dictionary.get?_insert he with he | rfl
      · exact hd i e he
      · obtain ⟨hspelled, hform, -⟩ := w.spelled_specName
        exact .inl (IsName.uppercase (IsName.uppercase ⟨hspelled, hform⟩))

/-- All names are given by tokens, everywhere in a run. -/
theorem named_of_visits {config : Config} {moves : List Move}
    (hs : Visits moves (ofConfig config) s) : s.dictionary.Named := by
  refine hs.induct (P := fun t => t.dictionary.Named) named_builtins fun m u v hp hu => ?_
  have cut {mark : Nat} : (u.dictionary.forgetBackTo mark).Named :=
    fun i e he => hu i e (Dictionary.get?_forgetBackTo he)
  show v.outline.dictionary.Named
  cases changed_of_passes hp with
  | steps h => exact named_of_step (valid_of_visits hp.before) (ofText_of_visits hp.before) hu h
  | stays _ h => exact h ▸ hu
  | fails _ h =>
    rw [h]
    unfold Outline.rolledBack
    dsimp only
    split
    · exact cut
    · exact hu
  | marks => exact hu
  | resets | restores => exact cut

end Session

end StackLang
