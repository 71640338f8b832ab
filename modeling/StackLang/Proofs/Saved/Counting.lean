import Mathlib.Algebra.Ring.Nat
import StackLang.Files.Tree
import StackLang.Library
import StackLang.Proofs.Saved.Sources
import StackLang.Proofs.Saved.Writing
import StackLang.Proofs.Token.Names
import StackLang.Proofs.Words.Closing

/-!
# How many words a saved file has

The source of a session has a line for every word that it defines, unless a string in it goes over
several lines: a literal of a body, a constant, or what a variable holds.  The number that a save
gives is that of the lines, so it is the number of words exactly if no such string is in them.

* `Text.length_lines_join`: the lines of a text that is put together from lines.
* `Entry.BreaksLine`: what makes the source of an entry go over several lines.
* `Session.unbroken_of_visits`: the names of words have no blanks, line breaks included.
* `Library.save_counts_iff`: when the number of a save is the number of words.
-/

namespace StackLang

/-! ## Lines -/

namespace Text

/-- The number of line feeds in a text. -/
def lineFeeds (s : String) : Nat :=
  s.toList.count '\n'

theorem lineFeeds_eq_zero_iff {s : String} : lineFeeds s = 0 ↔ '\n' ∉ s.toList :=
  List.count_eq_zero

/-- Every text with a line feed behind it is a line, and every line feed in it makes one more. -/
theorem length_lines_join (texts : List String) :
    (lines (String.join (texts.map (· ++ "\n")))).length =
      texts.length + (texts.map lineFeeds).sum := by
  have hcount : (String.join (texts.map (· ++ "\n"))).toList.count '\n' =
      texts.length + (texts.map lineFeeds).sum := by
    induction texts with
    | nil => rfl
    | cons s texts ih =>
      rw [List.map_cons, String.join_cons, String.toList_append, String.toList_append,
        List.count_append, List.count_append, ih]
      simp [lineFeeds]
      omega
  have hlast : (String.join (texts.map (· ++ "\n"))).toList.getLast?.all (· = '\n') = true := by
    rcases List.eq_nil_or_concat texts with rfl | ⟨before, s, rfl⟩
    · rfl
    · simp
  rw [lines, List.length_map, length_terminated, hcount, if_pos hlast, Nat.add_zero]

end Text

/-! ## What goes over several lines -/

/-- Only a string has a line feed in its source. -/
theorem Value.lineFeed_mem_source_iff (v : Value) :
    '\n' ∈ v.source.toList ↔ ∃ text, v = .string text ∧ '\n' ∈ text.toList := by
  have numeric {text : String} (h : ∀ c ∈ text.toList, Number.isNumeric c = true) :
      '\n' ∉ text.toList := fun hmem => absurd (h _ hmem) (by decide)
  cases v with
  | int n => exact iff_of_false (numeric (Number.numeric_toString _)) (by simp)
  | float x =>
    refine iff_of_false ?_ (by simp)
    unfold source
    dsimp only
    split
    · decide
    · exact fun hmem => absurd ((Number.isName_text (.float x)).spelled.blanks _ hmem) (by decide)
  | flag b => cases b <;> simp [source]
  | address a => exact iff_of_false (numeric (Number.numeric_toString a.toNat)) (by simp)
  | string text => simp [source]

namespace Entry

/-- A string in what the entry was made of has a line feed: its body has one, or the string that it
is a constant for, or the string that is in the cell of a variable. -/
def BreaksLine (e : Entry) (cells : CellStore) : Prop :=
  match e.origin with
  | some (.colon body) => '\n' ∈ body.toList
  | some (.constant v) => ∃ text, v = .string text ∧ '\n' ∈ text.toList
  | some (.variable address) =>
    ∃ text, cells.fetch? address = some (.string text) ∧ '\n' ∈ text.toList
  | none => False

variable {e : Entry} {cells : CellStore}

theorem isSome_source? : (e.source? cells).isSome = e.origin.isSome :=
  Option.isSome_map

theorem lineFeed_mem_source_iff {text : String} (hname : '\n' ∉ e.name.toList)
    (h : e.source? cells = some text) : '\n' ∈ text.toList ↔ e.BreaksLine cells := by
  unfold source? at h
  unfold BreaksLine
  cases ho : e.origin with
  | none =>
    rw [ho] at h
    cases h
  | some origin =>
    rw [ho] at h
    cases h
    cases origin with
    | colon body => cases e.immediate <;> simp [hname]
    | constant v => simp [hname, Value.lineFeed_mem_source_iff]
    | «variable» address =>
      dsimp only
      cases cells.fetch? address <;> simp [hname, Value.lineFeed_mem_source_iff]

end Entry

/-! ## The names of words -/

/-- No name has a blank in it. -/
def Dictionary.Unbroken (d : Dictionary) : Prop :=
  ∀ i e, d.get? i = some e → ∀ c ∈ e.name.toList, isBlank c = false

namespace Dictionary.Unbroken

variable {d : Dictionary}

theorem insert (h : d.Unbroken) {e : Entry} (he : ∀ c ∈ e.name.toList, isBlank c = false) :
    (d.insert e).2.Unbroken := by
  intro i x hx
  rcases get?_insert hx with hx | rfl
  · exact h i x hx
  · exact isBlank_of_mem_uppercase he

theorem forgetBackTo (h : d.Unbroken) (mark : Nat) : (d.forgetBackTo mark).Unbroken :=
  fun i e he => h i e (get?_forgetBackTo he)

theorem modify (h : d.Unbroken) (index : Nat) {f : Entry → Entry} (hf : ∀ e, (f e).name = e.name) :
    (d.modify index f).Unbroken := by
  intro i e he
  rcases get?_modify he with he | ⟨x, -, hx, rfl⟩
  · exact h i e he
  · rw [hf]
    exact h i x hx

end Dictionary.Unbroken

/-- A name that is read from a source has no blank in it. -/
theorem Cursor.isBlank_of_name? {c d : Cursor} {t : Token} {name : String}
    (h : c.nextToken? = some (t, d)) (hn : t.name? = some name) :
    ∀ b ∈ name.toList, isBlank b = false := by
  unfold nextToken? at h
  dsimp only at h
  split at h
  · cases h
  · rename_i first rest hrest
    obtain ⟨hfirst, -, -⟩ := head_skipGap hrest
    obtain ⟨rfl, -⟩ := Prod.mk.inj (Option.some.inj h)
    unfold Token.name? lexeme at hn
    dsimp only at hn
    split at hn
    · cases hn
    · split at hn
      · cases hn
        exact (Number.isName_text _).spelled.blanks
      · cases hn
        intro b hb
        rw [String.toList_ofList] at hb
        rcases List.mem_cons.1 hb with rfl | hb
        · exact hfirst
        · simpa using List.all_eq_true.1 List.all_takeWhile b hb

theorem Pending.OfText.isBlank_of_name? {p : Pending} (h : p.OfText) {t : Token}
    (ht : t ∈ p.tokens) {name : String} (hn : t.name? = some name) :
    ∀ b ∈ name.toList, isBlank b = false := by
  obtain ⟨tokens, definition⟩ := p
  induction tokens with
  | nil => cases ht
  | cons first tokens ih =>
    obtain ⟨c, d, hc, hd⟩ := h.exists_of_cons
    rcases List.mem_cons.1 ht with rfl | ht
    · exact Cursor.isBlank_of_name? hc hn
    · exact ih ⟨d, hd⟩ ht

namespace Session

open StackLang.Action

variable {s t : Session} {w : Builtin} {name : String} {config : Config} {moves : List Move}

theorem exists_token_of_nextName? {sources : List Pending} (h : nextName? sources = some name) :
    ∃ p ∈ sources, ∃ token ∈ p.tokens, token.name? = some name := by
  obtain ⟨p, hp, h⟩ := Option.bind_eq_some_iff.1 h
  obtain ⟨token, ht, h⟩ := Option.bind_eq_some_iff.1 h
  exact ⟨p, List.mem_of_mem_head? hp, token, List.mem_of_mem_head? ht, h⟩

/-- The name that a built-in word finds behind it is one of those in the sources. -/
theorem exists_token_of_nextBuiltin? (h : s.nextBuiltin? = some (w, some name)) :
    ∃ p ∈ s.sources, ∃ token ∈ p.tokens, token.name? = some name := by
  have named {u : Session} {i : Nat} (h : u.builtinAt? i = some (w, some name)) :
      nextName? u.sources = some name := by
    obtain ⟨e, -, h⟩ := Option.bind_eq_some_iff.1 h
    split at h
    · exact (Prod.mk.inj (Option.some.inj h)).2
    · cases h
  unfold nextBuiltin? at h
  split at h
  · obtain ⟨i, -, h⟩ := Option.bind_eq_some_iff.1 h
    exact exists_token_of_nextName? (named h)
  · split at h
    · cases h
    · rename_i source rest hs
      split at h
      · cases h
      · rename_i token behind ht
        obtain ⟨i, -, h⟩ := Option.bind_eq_some_iff.1 h
        obtain ⟨p, hp, x, hx, hn⟩ := exists_token_of_nextName? (named h)
        rw [hs]
        rcases List.mem_cons.1 hp with rfl | hp
        · unfold Pending.nextToken? at ht
          split at ht
          · cases ht
          · rename_i tokens htokens
            cases ht
            have hmem : x ∈ source.tokens := htokens ▸ List.mem_cons_of_mem _ hx
            exact ⟨source, List.mem_cons_self, x, hmem, hn⟩
        · exact ⟨p, List.mem_cons_of_mem _ hp, x, hx, hn⟩

/-- A word that makes an entry takes its name from the source. -/
theorem exists_inserted {d : DefiningWord} (hd : d = .colon ∨ d = .constant ∨ d = .variable)
    (h : d.run s = .ok () t) : ∃ e name, t.dictionary = (s.dictionary.insert e).2 ∧
      nextName? s.sources = some name ∧ e.name = Text.uppercase name := by
  rcases hd with rfl | rfl | rfl
  · obtain ⟨location, name, hn, ho⟩ := outline_of_openDefinition h
    exact ⟨_, name, congrArg Outline.dictionary ho, hn, rfl⟩
  · obtain ⟨_, u, hu, h⟩ := exists_of_bind h
    obtain ⟨stack, rfl⟩ := exists_of_operands hu
    obtain ⟨⟨location, name⟩, v, hv, h⟩ := exists_of_bind h
    obtain ⟨hn, sources, rfl, -⟩ := exists_of_nextName hv
    obtain ⟨x, w, hw, h⟩ := exists_of_bind h
    obtain ⟨stack', rfl⟩ := exists_of_operands hw
    cases h
    exact ⟨_, name, rfl, hn, rfl⟩
  · obtain ⟨⟨location, name⟩, u, hu, h⟩ := exists_of_bind h
    obtain ⟨hn, sources, rfl, -⟩ := exists_of_nextName hu
    obtain ⟨address, v, hv, h⟩ := exists_of_bind h
    unfold allot at hv
    cases ha : s.cells.allot? 1 with
    | none =>
      rw [ha] at hv
      cases hv
    | some found =>
      rw [ha] at hv
      cases hv
      cases h
      exact ⟨_, name, rfl, hn, rfl⟩

theorem unbroken_of_run (h : w.run s = .ok () t) (hs : s.dictionary.Unbroken)
    (hn : ∀ name, nextName? s.sources = some name → ∀ c ∈ name.toList, isBlank c = false) :
    t.dictionary.Unbroken := by
  have hr := revision_of_run h
  show t.outline.dictionary.Unbroken
  generalize ho : t.outline = o at hr
  have inserted {d : DefiningWord} (hd : d = .colon ∨ d = .constant ∨ d = .variable)
      (h : d.run s = .ok () t) : o.dictionary.Unbroken := by
    obtain ⟨e, name, ht, hname, he⟩ := exists_inserted hd h
    rw [← ho, show t.outline.dictionary = _ from ht]
    exact hs.insert (he ▸ isBlank_of_mem_uppercase (hn name hname))
  cases hr with
  | keeps | builds => exact hs
  | opens => exact inserted (.inl rfl) h
  | constant => exact inserted (.inr (.inl rfl)) h
  | «variable» => exact inserted (.inr (.inr rfl)) h
  | closes | makesImmediate => exact hs.modify _ fun _ => rfl
  | forgets | resets => exact hs.forgetBackTo _

theorem unbroken_builtins : builtins.Unbroken :=
  builtins_induct (fun _ _ he => by simp [Dictionary.get?, Dictionary.empty] at he) fun d w hd =>
    hd.insert (isBlank_of_mem_uppercase w.spelled_specName.1.blanks)

theorem unbroken_of_changed {m : Move} (hc : Changed s m t) (hs : s.dictionary.Unbroken)
    (hv : s.Valid AbleOrBlank) (hsources : ∀ p ∈ s.sources, p.OfText) : t.dictionary.Unbroken := by
  show t.outline.dictionary.Unbroken
  cases hc with
  | steps hstep ht =>
    cases hn : s.nextBuiltin? with
    | none =>
      rw [hn] at ht
      generalize t.outline = o at ht
      cases (ht : Passage _ _ o) <;> exact hs
    | some x =>
      obtain ⟨u, v, hrun, hu, -, hnext, hv'⟩ := did_of_step hv hn hstep
      rw [hv']
      refine unbroken_of_run hrun ?_ fun name hname => ?_
      · rw [show u.dictionary = s.dictionary from congrArg Outline.dictionary hu]
        exact hs
      · obtain ⟨w, next?⟩ := x
        obtain rfl : some name = next? := hname.symm.trans hnext
        obtain ⟨p, hp, token, ht, hname⟩ := exists_token_of_nextBuiltin? hn
        exact (hsources p hp).isBlank_of_name? ht hname
  | stays _ ht => exact ht ▸ hs
  | fails _ ht =>
    rw [ht]
    unfold Outline.rolledBack
    dsimp only
    split
    · exact hs.forgetBackTo _
    · exact hs
  | marks => exact hs
  | resets | restores => exact hs.forgetBackTo _

/-- The names of words have no blanks everywhere in a run. -/
theorem unbroken_of_visits (hs : Visits moves (ofConfig config) s) : s.dictionary.Unbroken := by
  refine hs.induct (P := fun t => t.dictionary.Unbroken) unbroken_builtins fun m u v hp hu => ?_
  exact unbroken_of_changed (changed_of_passes hp) hu (valid_of_visits hp.before)
    (ofText_of_visits hp.before)

end Session

/-! ## Saving -/

namespace Library

open Session

variable {s : Session}

theorem length_savedWords (s : Session) : s.savedWords.length =
    (s.dictionary.visibleSince s.sessionMark).countP (·.origin.isSome) := by
  rw [savedWords, List.length_filterMap_eq_countP]
  exact List.countP_congr fun e _ => by rw [Entry.isSome_source?]

/-- A save writes the source, and gives the number of its lines. -/
theorem run_save {files written : FileTree} {path : String}
    (hw : files.write path (preamble ++ s.source) = .ok written) :
    (save s path : StateM FileTree _).run files = (.ok (Text.lines s.source).length, written) := by
  have hwrite : (FileAccess.write path (preamble ++ s.source) : StateM FileTree _).run files =
      (.ok (), written) := by
    simp [FileAccess.write, hw]
    rfl
  simp [save, hwrite]
  rfl

/-- No word that is saved goes over several lines if no string in them does. -/
theorem lineFeeds_savedWords_eq_zero_iff (hs : s.dictionary.Unbroken) :
    (s.savedWords.map Text.lineFeeds).sum = 0 ↔
      ∀ e ∈ s.dictionary.visibleSince s.sessionMark, ¬ e.BreaksLine s.cells := by
  have hname {e : Entry} (he : e ∈ s.dictionary.visibleSince s.sessionMark) :
      '\n' ∉ e.name.toList := by
    have hmem := List.mem_of_mem_drop (List.mem_of_mem_filter he)
    obtain ⟨i, hi⟩ := Array.mem_iff_getElem?.1 (Array.mem_toList_iff.1 hmem)
    exact fun h => absurd (hs i e hi _ h) (by decide)
  rw [List.sum_eq_zero_iff_forall_eq_nat, List.forall_mem_map]
  constructor
  · intro h e he hbreaks
    cases hsource : e.source? s.cells with
    | none =>
      unfold Entry.BreaksLine at hbreaks
      have hnone : e.origin = none := by
        rw [← Option.isSome_eq_false_iff.trans Option.isNone_iff_eq_none, ← Entry.isSome_source?,
          hsource]
        rfl
      rw [hnone] at hbreaks
      exact hbreaks
    | some text =>
      have hsaved : text ∈ s.savedWords := List.mem_filterMap.2 ⟨e, he, hsource⟩
      exact Text.lineFeeds_eq_zero_iff.1 (h text hsaved)
        ((Entry.lineFeed_mem_source_iff (hname he) hsource).2 hbreaks)
  · intro h text htext
    obtain ⟨e, he, hsource⟩ := List.mem_filterMap.1 htext
    refine Text.lineFeeds_eq_zero_iff.2 fun hmem => h e he ?_
    exact (Entry.lineFeed_mem_source_iff (hname he) hsource).1 hmem

/-- A session that is saved to a file that can be written.  The number that the save gives is that
of the words since the mark that can be found and were recorded, and one more for every line feed in
their sources.  So it is the number of these words exactly if no body, no constant and no cell of a
variable among them has a string that goes over several lines. -/
theorem save_counts_iff {config : Config} {moves : List Move}
    (hs : play moves (ofConfig config) = .ok s) {files written : FileTree} {path : String}
    (hw : files.write path (preamble ++ s.source) = .ok written) :
    ∃ count, (save s path : StateM FileTree _).run files = (.ok count, written) ∧
      let saved := s.dictionary.visibleSince s.sessionMark
      let words := saved.countP (·.origin.isSome)
      s.savedWords.length = words ∧
        count = words + (s.savedWords.map Text.lineFeeds).sum ∧
        (count = words ↔ ∀ e ∈ saved, ¬ e.BreaksLine s.cells) := by
  have hbreaks := lineFeeds_savedWords_eq_zero_iff (unbroken_of_visits (.ending hs))
  have hlines : (Text.lines s.source).length =
      s.savedWords.length + (s.savedWords.map Text.lineFeeds).sum :=
    Text.length_lines_join s.savedWords
  rw [length_savedWords] at hlines
  refine ⟨(Text.lines s.source).length, run_save hw, length_savedWords s, hlines, ?_⟩
  rw [← hbreaks, hlines]
  omega

/-- How many words are saved, how many line feeds they have, and how many lines their source. -/
structure SavedCounts where
  words : Nat
  feeds : Nat
  lines : Nat
deriving DecidableEq

def savedCounts (s : Session) : SavedCounts where
  words := (s.dictionary.visibleSince s.sessionMark).countP (·.origin.isSome)
  feeds := (s.savedWords.map Text.lineFeeds).sum
  lines := (Text.lines s.source).length

/-- A definition with a text, a variable and a constant that is a text are three words. -/
theorem save_counts_iff_three : ∃ s written,
    perform 60 [.evaluate ": GREET .\" hi\" ; VARIABLE V S\" x\" CONSTANT C"]
      (ofConfig .standard) = .ok s ∧
      FileTree.write ⟨[], []⟩ "/s.f" (preamble ++ s.source) = .ok written ∧
      (save s "/s.f" : StateM FileTree _).run ⟨[], []⟩ = (.ok 3, written) := by
  have hrun : (perform 60 [.evaluate ": GREET .\" hi\" ; VARIABLE V S\" x\" CONSTANT C"]
      (ofConfig .standard)).toOption.map savedCounts = some ⟨3, 0, 3⟩ := by
    simp only [perform, Request.run, Action.evaluate, Action.processSource, Action.enqueue]
    rw [Pending.ofSource_eq 60 (by decide)]
    decide +kernel
  obtain ⟨s, hs, hview⟩ := Option.map_eq_some_iff.1 hrun
  have hs := eq_ok_of_toOption hs
  simp only [savedCounts, SavedCounts.mk.injEq] at hview
  obtain ⟨hwords, hfeeds, -⟩ := hview
  obtain ⟨moves, hmoves⟩ := exists_play_eq_perform 60
    [.evaluate ": GREET .\" hi\" ; VARIABLE V S\" x\" CONSTANT C"] (ofConfig .standard)
  have hw : FileTree.write ⟨[], []⟩ "/s.f" (preamble ++ s.source) =
      .ok (FileTree.put ⟨[], []⟩ ["s.f"] (.file (preamble ++ s.source).toUTF8)) := rfl
  obtain ⟨count, hsave, -, hcount, -⟩ := save_counts_iff (hmoves.trans hs) hw
  refine ⟨s, _, hs, hw, ?_⟩
  rw [hsave, hcount, hwords, hfeeds]

/-- A string in a body that goes over two lines makes one word count as two. -/
theorem run_save_of_broken_string : ∃ s written,
    perform 40 [.evaluate ": W S\" a\nb\" ;"] (ofConfig .standard) = .ok s ∧
      s.hasPending = false ∧
      (s.dictionary.visibleSince s.sessionMark).countP (·.origin.isSome) = 1 ∧
      (save s "/s.f" : StateM FileTree _).run ⟨[], []⟩ = (.ok 2, written) := by
  have hrun : (perform 40 [.evaluate ": W S\" a\nb\" ;"] (ofConfig .standard)).toOption.map
      (fun s => (s.hasPending, savedCounts s)) = some (false, ⟨1, 1, 2⟩) := by
    simp only [perform, Request.run, Action.evaluate, Action.processSource, Action.enqueue]
    rw [Pending.ofSource_eq 40 (by decide)]
    decide +kernel
  obtain ⟨s, hs, hview⟩ := Option.map_eq_some_iff.1 hrun
  simp only [savedCounts, Prod.mk.injEq, SavedCounts.mk.injEq] at hview
  obtain ⟨hp, hwords, -, hlines⟩ := hview
  have hw : FileTree.write ⟨[], []⟩ "/s.f" (preamble ++ s.source) =
      .ok (FileTree.put ⟨[], []⟩ ["s.f"] (.file (preamble ++ s.source).toUTF8)) := rfl
  have hsave := run_save hw
  rw [hlines] at hsave
  exact ⟨s, _, eq_ok_of_toOption hs, hp, hwords, hsave⟩

end Library

end StackLang
