import StackLang.Proofs.Saved.Faithful
import StackLang.Proofs.Saved.Literals
import StackLang.Proofs.Saved.Recompiling
import StackLang.Proofs.Words.Closing
import StackLang.Proofs.Words.Foundation

/-!
# What a definition records

If only built-in words are immediate, no word runs between the colon and the semicolon of a
definition but those that build its body.  So each token is recorded with the words that it adds,
nothing else changes the definition, and the text that its entry keeps makes the same code again,
read behind the words that were there when the colon was.

* `Session.Gathers`: the definition that is open is what the recorded lexemes make.
* `gathers_of_colon`, `Gathers.of_step`, `Gathers.of_move`: it is so behind the colon, and a move
  keeps it.
* `gathers_of_visits`: it is so as long as the definition is open.
* `recompiles_of_closed`: the recorded text makes the same code again.
-/

namespace StackLang

open Session

/-- Only built-in words are immediate. -/
def Dictionary.NoneImmediate (d : Dictionary) : Prop :=
  ∀ i e, d.get? i = some e → e.immediate = true → e.isBuiltin = true

/-- Then no lexeme runs a word but a built-in one. -/
theorem Dictionary.NoneImmediate.proper {d : Dictionary} (h : d.NoneImmediate) (xs : List Lexeme) :
    d.proper xs = xs := by
  refine List.filter_eq_self.2 fun x _ => ?_
  cases hx : x.interlude? d with
  | none => rfl
  | some i =>
    obtain ⟨name, e, code, -, hf, hi, hb⟩ := interlude?_eq_some_iff.1 hx
    have hbuiltin := h i e (find?_eq_some_iff.1 hf).2.1 hi
    rw [Entry.isBuiltin, hb] at hbuiltin
    cases hbuiltin

/-- The definition that is open is that of the entry behind the words of `d`, the lexemes have made
it what it is, and no word is running. -/
structure Session.Gathers (d : Dictionary) (name : String) (xs : List Lexeme) (s : Session) :
    Prop where
  frame : s.frame = none
  below : s.dictionary.forgetBackTo d.size = d
  definition : ∃ x, s.definition? = some x ∧ x.word = d.size ∧ x.name = name ∧
    x.Underway s.dictionary xs
  read : ∀ z ∈ xs, z.Read

namespace Session

open StackLang.Action

variable {d : Dictionary} {name : String} {xs : List Lexeme} {s t u v w : Session}
  {config : Config} {before during : List Move} {next? : Option String}

/-! ## Behind the colon -/

/-- A colon that succeeds is read outside of a definition. -/
theorem definition?_of_colon (hs : s.Valid AbleOrBlank)
    (hcolon : s.nextBuiltin? = some (.defining .colon, next?)) (hu : step s = .ok () u) :
    s.definition? = none := by
  obtain ⟨a, b, hrun, -, ha, -⟩ := did_of_step hs hcolon hu
  have hrun : DefiningWord.openDefinition a = .ok () b := hrun
  rw [← ha]
  refine definition?_eq_none (Bool.eq_false_iff.2 fun hc => ?_)
  rw [openDefinition_of_compiling hc] at hrun
  cases hrun

/-- A colon that succeeds has opened the definition of a name, with nothing recorded. -/
theorem gathers_of_colon (hs : Visits before (ofConfig config) s)
    (hcolon : s.nextBuiltin? = some (.defining .colon, next?)) (hu : step s = .ok () u) :
    ∃ name, IsName name ∧ u.Gathers s.dictionary name [] := by
  have hv : s.Valid AbleOrBlank := valid_of_visits hs
  have hf : s.frame = none := frame_of_visits hs hcolon (by decide)
  have hd : s.definition? = none := definition?_of_colon hv hcolon hu
  obtain ⟨t, ht, hu⟩ := exists_of_step_dropped hu
  obtain ⟨token, named, tokens, rest, name, hsources, hname, hb⟩ := opened_of_colon
    (fun i e he hb => ((roles_of_visits hs i e he).spec _ hb).2) hd hf hcolon ht
  obtain ⟨hne, rfl⟩ := kept_of_dropUsedSources
    (s := s.knowing (some token.location) _) hf hb hu
  have hread : named.lexeme.Read := by
    have htext : Pending.OfText ⟨token :: named :: tokens, none⟩ :=
      ofText_of_visits hs _ (hsources ▸ List.mem_cons_self)
    obtain ⟨-, c, -, hc⟩ := htext.exists_of_cons
    have hbehind : Pending.OfText ⟨named :: tokens, none⟩ := ⟨c, hc⟩
    exact hbehind.read hne
  have hdict : u.dictionary =
      (s.dictionary.insert (Entry.reserved named.location name)).2 := hb.dictionary
  have hopened : u.definition? =
      some (.opened s.dictionary.size (Text.uppercase name) named.location) := hb.definition?
  refine ⟨_, (isName_of_name? hread.written hname).uppercase.uppercase, hb.frame.trans hf, ?_,
    ⟨_, hopened, rfl, rfl, ?_⟩, nofun⟩
  · rw [hdict]
    exact Dictionary.forgetBackTo_insert _ _
  · rw [hdict]
    exact .opened s.dictionary named.location name

/-! ## While the definition is open -/

theorem ne_nil_of_compiling (hc : s.isCompiling = true) : s.sources ≠ [] := by
  intro hs
  rw [isCompiling, definition?, hs] at hc
  cases hc

namespace Gathers

theorem congr (h : s.Gathers d name xs) (hf : t.frame = s.frame)
    (hdict : t.dictionary = s.dictionary) (hdef : t.definition? = s.definition?) :
    t.Gathers d name xs :=
  ⟨hf.trans h.frame, hdict ▸ h.below, hdef ▸ hdict ▸ h.definition, h.read⟩

/-- What names stand for does not depend on the definition that is open. -/
theorem find?_below (h : s.Gathers d name xs) (word : String) :
    d.find? word = s.dictionary.find? word := by
  obtain ⟨x, -, hword, -, hx⟩ := h.definition
  have hfind := hx.find?_below word
  rwa [hword, h.below] at hfind

/-- What a token adds to the definition, or that the token closes it. -/
theorem exists_of_operation (h : s.Gathers d name xs) (hq : d.NoneImmediate)
    (hv : s.Valid AbleOrBlank) (ht : operation s = .ok () u) (hu : dropUsedSources u = .ok () t) :
    ∃ x token tokens rest, s.definition? = some x ∧ x.word = d.size ∧ x.name = name ∧
      x.Underway s.dictionary xs ∧ s.sources = ⟨token :: tokens, some x⟩ :: rest ∧
      ((∃ ws marks x', token.lexeme.effect? s.dictionary = some (ws, marks) ∧
        Definition.build (Definition.placed (some token.location) ws) x = .ok () x' ∧
        tokens ≠ [] ∧
        ((s.knowing (some token.location) (s.dictionary.marking x.word marks)).reading tokens
          (some (x'.record token.text)) rest).Beside t) ∨
      (x.control = [] ∧ Definition.strayTarget? (x.code.push ⟨none, .exit⟩) = none ∧
        u.isCompiling = false)) := by
  obtain ⟨x, hd, hword, hname, hx⟩ := h.definition
  -- Only built-in words are immediate, also those that are found now.
  have hquiet (token : Token) (tokens : List Token) (rest : List Pending) (word : String)
      (i : Nat) (e : Entry) (code : Code) (_ : s.sources = ⟨token :: tokens, some x⟩ :: rest)
      (_ : token.lexeme = .word word) (hf : s.dictionary.find? word = some (i, e))
      (hi : e.immediate = true) : e.body ≠ .compiled code := by
    intro hb
    rw [← h.find?_below] at hf
    have hbuiltin := hq i e (Dictionary.find?_eq_some_iff.1 hf).2.1 hi
    rw [Entry.isBuiltin, hb] at hbuiltin
    cases hbuiltin
  obtain ⟨token, tokens, rest, hsources, hbody⟩ :=
    exists_of_bodyOperation hv.entries h.frame hd hquiet ht hu
  refine ⟨x, token, tokens, rest, hd, hword, hname, hx, hsources, hbody.imp_right ?_⟩
  rintro ⟨-, hc, hstray, hb⟩
  exact ⟨hc, hstray, by rw [isCompiling, hb.definition?]; rfl⟩

/-- A step that leaves the definition open records one lexeme more. -/
theorem of_step (h : s.Gathers d name xs) (hq : d.NoneImmediate) (hv : s.Valid AbleOrBlank)
    (hs : ∀ p ∈ s.sources, p.OfText) (ht : step s = .ok () t) (hc : t.isCompiling = true) :
    ∃ z, t.Gathers d name (xs ++ [z]) := by
  obtain ⟨u, hu, ht⟩ := exists_of_step_dropped ht
  obtain ⟨x, token, tokens, rest, -, hword, hname, hx, hsources, hbody⟩ :=
    h.exists_of_operation hq hv hu ht
  rcases hbody with ⟨ws, marks, x', he, hb, hne, hbeside⟩ | ⟨-, -, hclosed⟩
  · have hsame : x.Same x' := Definition.same_of_build hb
    refine ⟨token.lexeme, hbeside.frame.trans h.frame, ?_, ⟨_, hbeside.definition?,
      hsame.word.trans hword, hsame.name.trans hname, ?_⟩, fun z hz => ?_⟩
    · rw [hbeside.dictionary]
      show (s.dictionary.marking x.word marks).forgetBackTo d.size = d
      rw [Dictionary.marking, ← hword, Dictionary.forgetBackTo_modify, hword, h.below]
    · rw [hbeside.dictionary]
      exact hx.extend he hb
    · rcases List.mem_append.1 hz with hz | hz
      · exact h.read z hz
      · rw [List.mem_singleton.1 hz]
        exact (hs _ (hsources ▸ List.mem_cons_self)).read hne
  · have ho := outline_dropUsedSources (consistent_operation hv hu) ht
    rw [isCompiling_of_outline ho, hclosed] at hc
    cases hc

/-- A move that leaves the definition open and its entry in the dictionary records one lexeme more,
or none. -/
theorem of_move {m : Move} (h : s.Gathers d name xs) (hq : d.NoneImmediate)
    (hv : s.Valid AbleOrBlank) (hs : ∀ p ∈ s.sources, p.OfText) (hm : remains (m.run s) = .ok t)
    (hc : t.isCompiling = true) (hk : t.dictionary.get? d.size ≠ none) :
    ∃ ys, t.Gathers d name ys := by
  cases hr : m.run s with
  | error f u =>
    rw [hr] at hm
    cases f with
    | script e =>
      cases hm
      exact (ne_nil_of_compiling hc (outline_of_error hv hr).2).elim
    | breach b => cases hm
    | outOfFuel => exact (ne_outOfFuel_of_move hv hr).elim
  | ok a u =>
    rw [hr] at hm
    cases hm
    cases m with
    | enqueue path source =>
      cases hr
      exact ⟨xs, h.congr rfl rfl (definition?_enqueue s path source)⟩
    | dropUsedSources =>
      obtain ⟨x, hd, -⟩ := h.definition
      obtain rfl := eq_of_dropUsedSources h.frame hd (eq_ok_of_checked hr)
      exact ⟨xs, h⟩
    | step =>
      rcases step_of_run_step hr with ⟨-, ht⟩ | ⟨-, rfl⟩
      · obtain ⟨z, hz⟩ := h.of_step hq hv hs ht hc
        exact ⟨_, hz⟩
      · exact ⟨xs, h⟩
    | setMode | setCancelled | observe | takeOutput | mark =>
      cases hr
      exact ⟨xs, h.congr rfl rfl rfl⟩
    | reset =>
      cases hr
      exact (ne_nil_of_compiling hc rfl).elim
    | resetDefinitions =>
      cases hr
      -- The entry is the last one, so nothing has been forgotten.
      obtain ⟨x, -, hword, -, hx⟩ := h.definition
      have hlt : d.size < s.sessionMark := by
        by_contra hle
        refine hk ?_
        show (s.dictionary.forgetBackTo s.sessionMark).get? d.size = none
        rw [Dictionary.get?_forgetBackTo_eq, if_neg hle]
      have hsize : s.dictionary.size ≤ s.sessionMark := by
        rw [← hx.size, hword]
        exact hlt
      exact ⟨xs, h.congr rfl (Dictionary.forgetBackTo_of_le hsize) rfl⟩

end Gathers

/-- As long as the definition is open, it is what the lexemes make that it has recorded. -/
theorem gathers_of_visits (hs : play before (ofConfig config) = .ok s)
    (hq : s.dictionary.NoneImmediate)
    (hcolon : s.nextBuiltin? = some (.defining .colon, next?)) (hu : step s = .ok () u)
    (hopen : KeepsOpen s.dictionary.size during u v) :
    ∃ name, IsName name ∧ ∀ w, Visits during u w → ∃ xs, w.Gathers s.dictionary name xs := by
  obtain ⟨name, hname, hstart⟩ := gathers_of_colon (.ending hs) hcolon hu
  refine ⟨name, hname, fun w hw => ?_⟩
  refine hw.induct (P := fun w => ∃ xs, w.Gathers s.dictionary name xs) ⟨[], hstart⟩
    fun m a b hp ⟨xs, ha⟩ => ?_
  have hvisits := Visits.of_step hs (hasPending_of_nextBuiltin? hcolon) hu hp.before
  obtain ⟨-, -, -, -, hm⟩ := id hp
  exact ha.of_move hq (valid_of_visits hvisits)
    (ofText_of_visits hvisits) hm (hopen.compiling b hp.after) (hopen.kept b hp.after)

/-! ## Behind the semicolon -/

/-- A semicolon that succeeds fills in the entry, with the code that the lexemes make. -/
theorem Gathers.exists_of_semicolon (h : v.Gathers d name xs) (hq : d.NoneImmediate)
    (hv : v.Valid AbleOrBlank) (hsemicolon : v.nextBuiltin? = some (.defining .semicolon, next?))
    (ht : step v = .ok () t) : ∃ e y, t.dictionary.get? d.size = some e ∧ e.name = name ∧
      d.assemble? xs (.bare, false) = some (y, e.immediate) ∧ y.control = [] ∧
      Definition.strayTarget? (y.code.push ⟨none, .exit⟩) = none ∧
      e.Like (Entry.filled (y.code.push ⟨none, .exit⟩) (Lexeme.bodyText xs)
        (Entry.reserved .unspecified "")) d.size := by
  obtain ⟨x', hd', hclosed, hdict⟩ := closed_of_semicolon hv hsemicolon ht
  obtain ⟨u, hu, hdrop⟩ := exists_of_step_dropped ht
  obtain ⟨x, token, tokens, rest, hd, hword, hname, hx, -, hbody⟩ :=
    h.exists_of_operation hq hv hu hdrop
  obtain rfl : x' = x := Option.some.inj (hd'.symm.trans hd)
  rcases hbody with ⟨_, _, _, _, _, _, hbeside⟩ | ⟨hc, hstray, -⟩
  · rw [isCompiling, hbeside.definition?] at hclosed
    cases hclosed
  · obtain ⟨e, he, hcalled, hassemble, hlike⟩ := hx.filled
    rw [← hdict, hword] at he
    rw [hword, h.below, hq.proper] at hassemble
    rw [hword] at hlike
    refine ⟨e, x'.skeleton, he, hcalled.trans hname, hassemble, hc, ?_, hlike⟩
    rw [Definition.Underway.strayTarget?_skeleton, hstray]

/-! ## What is recorded -/

/-- What is next before the two steps, and what the entry keeps: its text, and what its code
pushes. -/
structure RecordingView where
  colon : Option (Builtin × Option String)
  semicolon : Option (Builtin × Option String)
  kept : Option (Option Origin × List (Option Value))
deriving DecidableEq

def recordingView : Session × Session × Session × Session → RecordingView
  | (s, _, v, t) => ⟨s.nextBuiltin?, v.nextBuiltin?,
      (t.dictionary.get? s.dictionary.size).map fun e => (e.origin,
        match e.body with
        | .builtin _ => []
        | .compiled code => code.toList.map (·.op.literal?))⟩

/-- The text that a definition records makes the same code again.  Say a colon opens a definition
where only built-in words are immediate, and the semicolon closes it, and no move has removed its
entry meanwhile.  Then its entry keeps a text.  Evaluated as the body of a definition, in any idle
session that has the words that were there before the colon, the text compiles the same instructions
for the new word, apart from their places, whatever its name is.  This needs floats among the
literals to be read as they are printed.  Every sequence of requests is a run, by
`exists_play_eq_perform`. -/
theorem recompiles_of_closed {last? : Option String}
    (hs : play before (ofConfig config) = .ok s) (hq : s.dictionary.NoneImmediate)
    (hcolon : s.nextBuiltin? = some (.defining .colon, next?)) (hu : step s = .ok () u)
    (hopen : KeepsOpen s.dictionary.size during u v)
    (hsemicolon : v.nextBuiltin? = some (.defining .semicolon, last?))
    (ht : step v = .ok () t) :
    ∃ e text code, t.dictionary.get? s.dictionary.size = some e ∧
      e.origin = some (.colon text) ∧ e.body = .compiled code ∧ IsName e.name ∧
      ((∀ i x, code.literal? i = some (.float x) → x.isFinite = true →
          Number.read? (Number.floatText x) = some (.float x)) →
        ∀ name r, IsName name → r.hasPending = false → r.cancelled = false →
          r.dictionary = s.dictionary →
            ∃ fuel r' e' code',
              evaluateToEnd fuel (": " ++ name ++ " " ++ text ++ " ;") r = .ok () r' ∧
              r'.hasPending = false ∧ r'.dictionary = r.dictionary.push e' ∧
              (Number.read? name = none → e'.name = Text.uppercase name) ∧
              e'.visible = true ∧ e'.origin = some (.colon text) ∧ e'.body = .compiled code' ∧
              code'.map (·.op) = code.map (·.op)) := by
  obtain ⟨called, hcalled, hgathers⟩ := gathers_of_visits hs hq hcolon hu hopen
  obtain ⟨xs, hv⟩ := hgathers v (.ending hopen.run)
  have hvisits := Visits.of_step hs (hasPending_of_nextBuiltin? hcolon) hu (.ending hopen.run)
  obtain ⟨e, y, he, rfl, hy, hc, hstray, hlike⟩ := hv.exists_of_semicolon hq
    (valid_of_visits hvisits) hsemicolon ht
  obtain ⟨code, hbody, hcode⟩ := hlike.compiled rfl rfl
  refine ⟨e, _, code, he, hlike.colon rfl, hbody, hcalled, fun hfloat name r hname hp hr hd => ?_⟩
  have hxs : ∀ x ∈ xs, x.Printable := fun x hx => by
    refine (hv.read x hx).printable fun f hf hfinite => ?_
    obtain ⟨code', i, hbody', hi⟩ := Dictionary.exists_literal_of_like (hf ▸ hx) hy hlike
    obtain rfl : code' = code := Body.compiled.inj (hbody'.symm.trans hbody)
    exact hfloat i f hi hfinite
  have hopens : r.dictionary.Finds (.defining .colon) := by
    obtain ⟨-, -, -, -, word, i, x, -, -, hf, hb⟩ := exists_of_nextBuiltin?
      (frame_of_visits (.ending hs) hcolon (by decide)) hcolon
    exact hd ▸ finds_of_find? (.ending hs) hf hb
  have hcloses : r.dictionary.Finds (.defining .semicolon) := by
    obtain ⟨-, -, -, -, word, i, x, -, -, hf, hb⟩ := exists_of_nextBuiltin? hv.frame hsemicolon
    obtain ⟨i, x, hf, hx⟩ := finds_of_find? hvisits hf hb
    exact ⟨i, x, by rw [hd, hv.find?_below, hf], hx⟩
  obtain ⟨fuel, r', e', hr', hidle, hdict, hgiven, hlike'⟩ := exists_of_definition hp hr hopens
    hcloses hname hxs (hd ▸ hy) hc hstray
  obtain ⟨code', hbody', hcode'⟩ := hlike'.compiled rfl rfl
  refine ⟨fuel, r', e', code', hr', hidle, hdict, fun hword => hgiven name ?_, hlike'.visible,
    hlike'.colon rfl, hbody', ?_⟩
  · rw [Piece.lexemeOfWord, hword]
    rfl
  · rw [← Code.map_op_unplaced code', hcode', ← hcode, Code.map_op_unplaced]

/-- A loop with a comment, a line break, a number in another base and a string. -/
theorem recompiles_of_loop :
    let before := [Move.enqueue inputPath ": W ( c ) $10 0 DO\n I . LOOP .\" a b\" ;"]
    ∃ s u v t, play before (ofConfig .standard) = .ok s ∧ s.dictionary.NoneImmediate ∧
      s.nextBuiltin? = some (.defining .colon, some "W") ∧ step s = .ok () u ∧
      KeepsOpen s.dictionary.size (List.replicate 7 .step) u v ∧
      v.nextBuiltin? = some (.defining .semicolon, none) ∧ step v = .ok () t ∧
      ∃ e code fuel r e' code', t.dictionary.get? s.dictionary.size = some e ∧
        e.origin = some (.colon "16 0 DO I . LOOP .\" a b\"") ∧ e.body = .compiled code ∧
        evaluateToEnd fuel ": X 16 0 DO I . LOOP .\" a b\" ;" (ofConfig .standard) =
          .ok () r ∧
        r.dictionary = builtins.push e' ∧ e'.name = "X" ∧ e'.body = .compiled code' ∧
        code'.map (·.op) = code.map (·.op) := by
  intro before
  have hrun : (closing? before 7).map recordingView =
      some ⟨some (.defining .colon, some "W"), some (.defining .semicolon, none),
        some (some (.colon "16 0 DO I . LOOP .\" a b\""),
          [some (.int 16), some (.int 0), none, none, none, none, some (.string "a b"),
            some (.int 3), none, none])⟩ := by
    unfold closing?
    rw [play, show Move.run (.enqueue inputPath ": W ( c ) $10 0 DO\n I . LOOP .\" a b\" ;")
      (ofConfig .standard) = .ok () { ofConfig .standard with
        sources := [] ++ [.ofSource inputPath ": W ( c ) $10 0 DO\n I . LOOP .\" a b\" ;"] } from
        rfl]
    rw [Pending.ofSource_eq 50 (by decide)]
    decide +kernel
  obtain ⟨⟨s, u, v, t⟩, hclosing, hview⟩ := Option.map_eq_some_iff.1 hrun
  obtain ⟨hs, hu, hopen, ht⟩ := of_closing? hclosing
  simp only [recordingView, RecordingView.mk.injEq] at hview
  obtain ⟨hcolon, hsemicolon, hkept⟩ := hview
  obtain ⟨e, he, hkept⟩ := Option.map_eq_some_iff.1 hkept
  obtain ⟨horigin, hpushes⟩ := Prod.mk.inj hkept
  have hdict : s.dictionary = builtins := by
    cases hs
    rfl
  have hq : s.dictionary.NoneImmediate := by
    intro i x hx _
    rw [hdict] at hx
    obtain ⟨w, hw, -⟩ := Dictionary.Told.spec_of_get? hx
    rw [Entry.isBuiltin, hw]
  obtain ⟨e₁, text, code, he₁, htext, hbody, -, hagain⟩ :=
    recompiles_of_closed hs hq hcolon hu hopen hsemicolon ht
  obtain rfl : e₁ = e := Option.some.inj (he₁.symm.trans he)
  obtain rfl : text = "16 0 DO I . LOOP .\" a b\"" :=
    Origin.colon.inj (Option.some.inj (htext.symm.trans horigin))
  rw [hbody] at hpushes
  have hpushes : code.toList.map (·.op.literal?) = _ := hpushes
  have hfloat (i : Nat) (x : Float) (hi : code.literal? i = some (.float x))
      (_ : x.isFinite = true) :
      Number.read? (Number.floatText x) = some (.float x) := by
    obtain ⟨instruction, hget, hop⟩ := Option.bind_eq_some_iff.1 hi
    have hmem : some (.float x) ∈ code.toList.map (·.op.literal?) :=
      List.mem_map.2 ⟨instruction, Array.mem_toList_iff.2 (Array.mem_of_getElem? hget), hop⟩
    rw [hpushes] at hmem
    simp at hmem
  obtain ⟨fuel, r, e', code', hr, -, hpush, hname, -, -, hbody', hops⟩ :=
    hagain hfloat "X" (ofConfig .standard) ⟨by decide, by decide +kernel⟩ rfl rfl hdict.symm
  exact ⟨s, u, v, t, hs, hq, hcolon, hu, hopen, hsemicolon, ht, e₁, code, fuel, r, e', code', he,
    htext, hbody, hr, hpush, (hname (by decide +kernel)).trans (by decide +kernel), hbody', hops⟩

end Session

end StackLang
