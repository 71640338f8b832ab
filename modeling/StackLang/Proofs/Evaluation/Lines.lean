import StackLang.Proofs.Blur.Runs
import StackLang.Proofs.Call.Anchored
import StackLang.Proofs.Evaluation.Queue
import StackLang.Proofs.Token.Lines

/-!
# Line by line, or all at once

The lines of a source may be evaluated one after the other or joined to one source.  The joined
source has the tokens of the lines, in other places; while a line is evaluated by itself, the other
session is where it is, with the tokens of the lines behind it still to come.

* `During`, `Between`: the two sessions while a line is evaluated, and between two lines.
* `During.step`: a step of the one session is a step of the other.
* `ends_joined`: if every line succeeds by itself, the joined source succeeds and leaves the same.
-/

namespace StackLang

/-! ## Without places -/

def Instruction.placeless (x : Instruction) : Instruction :=
  { x with location := x.location.map fun _ => .unspecified }

def Body.placeless : Body → Body
  | .builtin word => .builtin word
  | .compiled code => .compiled (Array.map Instruction.placeless code)

/-- The entry without the places in sources that it and its instructions come from. -/
def Entry.placeless (e : Entry) : Entry :=
  { e with
    body := e.body.placeless
    location := e.location.map fun _ => .unspecified }

def Dictionary.placeless (d : Dictionary) : Dictionary :=
  ⟨d.entries.map Entry.placeless⟩

def Visible.placeless (v : Visible) : Visible :=
  { v with dictionary := v.dictionary.placeless }

namespace Blur

/-- All places are alike, and every letter is itself. -/
def places : Blur :=
  ⟨fun _ => .unspecified, id, fun _ => rfl⟩

theorem text_places (s : String) : places.text s = s :=
  String.map_id

theorem token_places (t : Token) : places.token t = ⟨.unspecified, t.lexeme⟩ := by
  unfold token lexeme
  cases t.lexeme with
  | number | string => rfl
  | word name => exact congrArg (fun x => (⟨.unspecified, .word x⟩ : Token)) (text_places name)

theorem dictionary_places (d : Dictionary) : places.dictionary d = d.placeless := by
  have horigin (o : Origin) : places.origin o = o := by
    cases o <;> try rfl
    exact congrArg Origin.colon (text_places _)
  have hbody (x : Body) : places.body x = x.placeless := by
    cases x <;> rfl
  have hentry : places.entry = Entry.placeless := funext fun e => by
    unfold entry Entry.placeless
    rw [hbody, Option.map_congr fun o _ => horigin o, Option.map_id']
    rfl
  rw [dictionary, Dictionary.placeless, hentry]

end Blur

namespace ReturnStack

/-- Items that look alike are the same if they are so from the nearest marker on. -/
theorem eq_of_fromMarker {b : Blur} {items items' : List ReturnItem}
    (h : items'.map b.item = items.map b.item) (hm : fromMarker items' = fromMarker items) :
    items' = items := by
  induction items generalizing items' with
  | nil => exact List.map_eq_nil_iff.1 h
  | cons i items ih =>
    cases items' with
    | nil => cases h
    | cons i' items' =>
      obtain ⟨hi, hrest⟩ := List.cons.inj h
      cases i with
      | value v =>
        cases i' <;> cases hi
        exact congrArg (_ :: ·) (ih hrest hm)
      | loop x =>
        cases i' <;> cases hi
        exact congrArg (_ :: ·) (ih hrest hm)
      | call caller =>
        cases i' with
        | value | loop => cases hi
        | call caller' => exact hm

end ReturnStack

namespace Action

open Session Blur

variable {more : List Token} {s s' t : Session} {fuel : Nat}

/-! ## One line -/

/-- The session runs, and one source is in flight. -/
structure Alone (s : Session) : Prop where
  running : s.cancelled = false
  mode : s.mode = .run
  source : ∃ p, s.sources = [p]

theorem steady_alone : Steady Alone where
  write := fun _ h => ⟨h.running, h.mode, h.source⟩
  record := fun _ h => ⟨h.running, h.mode, h.source⟩
  source := by
    intro s p q rest hs _ h
    obtain ⟨x, hx⟩ := h.source
    rw [hs] at hx
    cases hx
    exact ⟨h.running, h.mode, q, rfl⟩
  putAside := fun _ h => ⟨h.running, h.mode, h.source⟩
  takeBack := fun _ h => ⟨h.running, h.mode, h.source⟩

theorem alone_of_operation (h : Alone s) (hs : operation s = .ok () s') : Alone s' := by
  have ha := steady_alone.congruence.alike_operation
    (fun _ _ h => ⟨h.running, h.mode, h.source⟩) (fun _ _ h => ⟨h.running, h.mode, h.source⟩) h
  rw [hs] at ha
  cases ha with
  | ok _ h => exact h.2

/-- The tokens of a source without their places. -/
def placed (source : String) : List Token :=
  (Token.ofSource inputPath source).map places.token

theorem isExhausted_ofSource (source : String) :
    (Pending.ofSource inputPath source).isExhausted = (placed source).isEmpty := by
  rw [placed, List.isEmpty_map]
  rfl

theorem placed_join {lines : List String} (h : ∀ line ∈ lines, Whole line) :
    placed ("\n".intercalate lines) = lines.flatMap placed := by
  have hplaced (source : String) : placed source =
      ((Token.ofSource inputPath source).map (·.lexeme)).map (Token.mk .unspecified) := by
    rw [placed, List.map_map]
    exact List.map_congr_left fun t _ => token_places t
  rw [hplaced, Token.map_lexeme_join inputPath h, List.map_flatMap]
  exact congrArg (List.flatMap · lines) (funext fun line => (hplaced line).symm)

/-- A line is evaluated in `s`, and in `t` with the tokens `more` of the lines behind it to come. -/
structure During (more : List Token) (s t : Session) : Prop where
  alone : Alone s
  near : Near places more s t
  fresh : s.frame = none → ∀ p rest, s.sources = p :: rest → p.isExhausted = false
  anchored : ∃ base, s.Anchored base ∧ t.Anchored base

/-- Both sessions are behind a line, and in `t` the tokens `more` of the others are to come. -/
structure Between (more : List Token) (s t : Session) : Prop where
  running : s.cancelled = false
  mode : s.mode = .run
  idle : s.hasPending = false
  near : Near places [] s { t with sources := [] }
  returns : t.returns = s.returns
  source : ∃ p, p.definition = none ∧ p.tokens.map places.token = more ∧
    t.sources = if p.isExhausted then [] else [p]

theorem returns_eq (h : Near places more s t) (hf : s.frame = none)
    (ha : ∃ base, s.Anchored base ∧ t.Anchored base) : t.returns = s.returns := by
  obtain ⟨base, hs, ht⟩ := ha
  unfold Session.Anchored at hs ht
  rw [hf] at hs
  rw [h.frame_eq_none hf] at ht
  obtain ⟨hi, hl⟩ := (places.returns_eq_iff).1 h.returns
  exact ReturnStack.eq_of_items
    (ReturnStack.eq_of_fromMarker hi (ht.fromMarker_eq.trans hs.fromMarker_eq.symm)) hl

/-- There is one source in both sessions. -/
theorem Alone.exists_sources (ha : Alone s) (hn : Near places more s t) :
    ∃ p p', s.sources = [p] ∧ t.sources = [p'] ∧
      p'.tokens.map places.token = p.tokens.map places.token ++ more ∧
      p'.definition.map places.definition = p.definition.map places.definition := by
  obtain ⟨p, hp⟩ := ha.source
  obtain ⟨hnil, -⟩ | ⟨q, rest, p', rest', hq, hp', htokens, hd, hrest⟩ := hn.source
  · rw [hp] at hnil
    cases hnil
  · rw [hp] at hq
    cases hq
    obtain rfl : rest' = [] := List.map_eq_nil_iff.1 hrest
    exact ⟨p, p', hp, hp', htokens, hd⟩

section line

variable (ha : Alone s) (hn : Near places more s t)
  (hanchored : ∃ base, s.Anchored base ∧ t.Anchored base)
include ha hn hanchored

/-- The line has been used up, and no word runs any more. -/
theorem exists_between {p : Pending} (hf : s.frame = none) (hp : s.sources = [p])
    (he : p.isExhausted = true) (hs : dropUsedSources s = .ok () s') :
    ∃ t', dropUsedSources t = .ok () t' ∧ Between more s' t' := by
  obtain ⟨q, p', hq, hp', htokens, hd⟩ := ha.exists_sources hn
  obtain rfl : p = q := List.cons.inj (hp.symm.trans hq) |>.1
  rw [dropUsedSources_of_idle hf, hp, unusedSources, if_pos he] at hs
  cases hdef : p.definition with
  | some d =>
    rw [hdef] at hs
    cases hs
  | none =>
    rw [hdef] at hs hd
    cases hs
    have hd' : p'.definition = none := Option.map_eq_none_iff.1 hd
    have hreturns := returns_eq hn hf hanchored
    rw [List.isEmpty_iff.1 he, List.map_nil, List.nil_append] at htokens
    refine ⟨{ t with sources := if p'.isExhausted then [] else [p'] }, ?_,
      ⟨ha.running, ha.mode, ?_, { hn with sources := rfl }, hreturns, p', hd', htokens, rfl⟩⟩
    · rw [dropUsedSources_of_idle (hn.frame_eq_none hf), hp', unusedSources, hd']
      cases p'.isExhausted <;> rfl
    · simp [Session.hasPending, hf]

/-- The line ends in both sessions, or in neither of them. -/
theorem exists_dropped (hs : dropUsedSources s = .ok () s') :
    ∃ t', dropUsedSources t = .ok () t' ∧ (During more s' t' ∨ Between more s' t') := by
  obtain ⟨p, p', hp, hp', htokens, -⟩ := ha.exists_sources hn
  obtain ⟨hf, hft⟩ | ⟨f, f', hf, hft, -⟩ := exists_of_map_eq hn.frame
  · cases he : p.isExhausted with
    | true =>
      obtain ⟨t', ht', hbetween⟩ := exists_between ha hn hanchored hf hp he hs
      exact ⟨t', ht', .inr hbetween⟩
    | false =>
      have he' : p'.isExhausted = false := by
        rw [← isExhausted_pending (b := places), pending, htokens]
        rw [Pending.isExhausted, List.isEmpty_eq_false_iff] at he ⊢
        simp [he]
      rw [dropUsedSources_of_unused fun _ => by rw [hp, unusedSources, he]; rfl] at hs
      cases hs
      refine ⟨t, dropUsedSources_of_unused fun _ => by rw [hp', unusedSources, he']; rfl,
        .inl ⟨ha, hn, fun _ q rest hq => ?_, hanchored⟩⟩
      rw [hp] at hq
      cases hq
      exact he
  · rw [dropUsedSources_of_frame hf] at hs
    cases hs
    refine ⟨t, dropUsedSources_of_frame hft, .inl ⟨ha, hn, fun hnone => ?_, hanchored⟩⟩
    rw [hf] at hnone
    cases hnone

end line

/-- A step of the session that evaluates the line is one of the other. -/
theorem During.step (h : During more s t) (hs : checked step s = .ok () s') :
    ∃ t', checked Action.step t = .ok () t' ∧ (During more s' t' ∨ Between more s' t') := by
  have hs := eq_ok_of_checked hs
  rw [step_of_running h.alone.running] at hs
  obtain ⟨_, u, hu, hdrop⟩ := exists_of_bind hs
  have hm := matches_operation h.near (.inr h.fresh)
  rw [hu] at hm
  generalize hv : operation t = r at hm
  cases hm with
  | ok _ hn =>
    obtain ⟨base, hleft, hright⟩ := h.anchored
    obtain ⟨t', ht', hnext⟩ := exists_dropped (alone_of_operation h.alone hu) hn
      ⟨base, anchored_operation hleft hu, anchored_operation hright hv⟩ hdrop
    refine ⟨t', checked_ok ?_, hnext⟩
    rw [step_of_running (h.near.cancelled.trans h.alone.running), bind_apply, hv]
    exact ht'

theorem exists_of_runPending (hp : s.hasPending = true) (hs : runPending (fuel + 1) s = .ok () s') :
    ∃ u, checked step s = .ok () u ∧ runPending fuel u = .ok () s' := by
  rw [runPending_succ, if_pos hp] at hs
  cases hr : checked step s with
  | ok a u =>
    rw [hr] at hs
    exact ⟨u, rfl, hs⟩
  | error f u =>
    rw [hr] at hs
    cases hs

theorem Alone.hasPending (h : Alone s) : s.hasPending = true := by
  obtain ⟨p, hp⟩ := h.source
  simp [Session.hasPending, hp]

theorem During.hasPending (h : During more s t) : t.hasPending = true := by
  obtain ⟨-, p', -, hp', -⟩ := h.alone.exists_sources h.near
  simp [Session.hasPending, hp']

/-- A run to the end of the line takes the other session there. -/
theorem During.run (h : During more s t) (hs : runPending fuel s = .ok () s') :
    ∃ t', Between more s' t' ∧ ∀ x, Ends runPending t' x → Ends runPending t x := by
  induction fuel generalizing s t with
  | zero =>
    have hidle := idle_of_runPending_zero hs
    rw [h.alone.hasPending] at hidle
    cases hidle
  | succ fuel ih =>
    obtain ⟨u, hu, hs⟩ := exists_of_runPending h.alone.hasPending hs
    obtain ⟨v, hv, hnext⟩ := h.step hu
    have hfirst {t' : Session} (hends : ∀ x, Ends runPending t' x → Ends runPending v x)
        (x : Ending) (hx : Ends runPending t' x) : Ends runPending t x :=
      (ends_runPending_of_step h.hasPending hv x).2 (hends x hx)
    rcases hnext with hnext | hnext
    · obtain ⟨t', ht', hends⟩ := ih hnext hs
      exact ⟨t', ht', hfirst hends⟩
    · rw [runPending_of_idle hnext.idle] at hs
      cases hs
      exact ⟨v, hnext, hfirst fun _ hx => hx⟩

/-! ## One line after the other -/

/-- The next line has tokens, and they are those to come. -/
theorem Between.during {line : String} (h : Between (placed line ++ more) s t)
    (he : (Pending.ofSource inputPath line).isExhausted = false) :
    During more { s with sources := [.ofSource inputPath line] } t := by
  obtain ⟨hf, -⟩ := idle_of_hasPending h.idle
  obtain ⟨p, hd, htokens, hp⟩ := h.source
  have hft : t.frame = none := h.near.frame_eq_none hf
  have hne : p.isExhausted = false := by
    rw [isExhausted_ofSource, List.isEmpty_eq_false_iff] at he
    rw [← isExhausted_pending (b := places), pending, htokens, Pending.isExhausted,
      List.isEmpty_eq_false_iff]
    simp [he]
  rw [hne, if_neg Bool.false_ne_true] at hp
  refine ⟨⟨h.running, h.mode, _, rfl⟩, { h.near with sources := ?_ }, fun _ q rest hq => ?_,
    ReturnStack.fromMarker s.returns.items, ?_, ?_⟩
  · rw [hp, List.map_singleton, pending, htokens, hd]
    rfl
  · cases hq
    exact he
  · unfold Session.Anchored
    exact hf ▸ .idle rfl
  · unfold Session.Anchored
    rw [hft, h.returns]
    exact .idle rfl

/-- The next line is evaluated in both sessions. -/
theorem Between.line {line : String} (h : Between (placed line ++ more) s t)
    (hs : evaluate fuel line s = .ok () s') :
    ∃ t', Between more s' t' ∧ ∀ x, Ends runPending t' x → Ends runPending t x := by
  obtain ⟨hf, hsources⟩ := idle_of_hasPending h.idle
  rw [evaluate_of_run (by rw [h.mode]; nofun), sources_append_of_idle h.idle] at hs
  cases he : (Pending.ofSource inputPath line).isExhausted with
  | false => exact (h.during he).run hs
  | true =>
    -- Without a token the line takes one step, which the joined source does not.
    have hq : Queued { s with sources := [.ofSource inputPath line] } (.ofSource inputPath line) :=
      ⟨hf, rfl, h.running, rfl⟩
    have hnil : placed line = [] := by rwa [isExhausted_ofSource, List.isEmpty_iff] at he
    rw [hnil, List.nil_append] at h
    have hpending : Session.hasPending { s with
        sources := [.ofSource inputPath line] } = true := by
      simp [Session.hasPending]
    cases fuel with
    | zero =>
      rw [idle_of_runPending_zero hs] at hpending
      cases hpending
    | succ fuel =>
      obtain ⟨u, hu, hs⟩ := exists_of_runPending hpending hs
      rw [hq.checkedStep_eq he] at hu
      cases hu
      rw [show ({ s with sources := [] } : Session) = s by rw [← hsources],
        runPending_of_idle h.idle] at hs
      cases hs
      exact ⟨t, h, fun _ hx => hx⟩

theorem Between.lines {lines : List String} (h : Between (lines.flatMap placed) s t)
    (hs : evaluateAll lines fuel s = .ok () s') :
    ∃ t', Between [] s' t' ∧ ∀ x, Ends runPending t' x → Ends runPending t x := by
  induction lines generalizing s t with
  | nil =>
    cases hs
    exact ⟨t, h, fun _ hx => hx⟩
  | cons line lines ih =>
    obtain ⟨_, u, hu, hs⟩ := exists_of_bind hs
    rw [List.flatMap_cons] at h
    obtain ⟨v, hv, hends⟩ := h.line hu
    obtain ⟨t', ht', hends'⟩ := ih hv hs
    exact ⟨t', ht', fun x hx => hends x (hends' x hx)⟩

namespace Between

variable (h : Between [] s t)
include h

/-- Behind the last line nothing is in flight. -/
theorem hasPending : t.hasPending = false := by
  obtain ⟨p, -, htokens, hp⟩ := h.source
  have hf : t.frame = none := h.near.frame_eq_none (idle_of_hasPending h.idle).1
  rw [Pending.isExhausted, List.map_eq_nil_iff.1 htokens, List.isEmpty_nil, if_pos rfl] at hp
  simp [Session.hasPending, hp, hf]

theorem visible : t.visible.placeless = s.visible.placeless := by
  have hd : t.dictionary.placeless = s.dictionary.placeless := by
    rw [← dictionary_places, ← dictionary_places]
    exact h.near.dictionary
  have hstack : t.stack = s.stack := h.near.stack
  have hcells : t.cells = s.cells := h.near.cells
  have houtput : t.output = s.output := h.near.output
  simp only [Visible.placeless, Session.visible, hstack, h.returns, hd, hcells, houtput]

end Between

/-- If no line leaves a literal or a comment open and each of them succeeds by itself, one after the
other, then the lines joined to one source succeed as well and leave the same, but for the places
that the dictionary keeps. -/
theorem ends_joined {lines : List String} {left : Visible} (hlines : ∀ line ∈ lines, Whole line)
    (hm : s.mode = .run) (hp : s.hasPending = false) (hc : s.cancelled = false)
    (h : Ends (evaluateAll lines) s (.done left)) :
    ∃ whole, Ends (evaluate · ("\n".intercalate lines)) s (.done whole) ∧
      whole.placeless = left.placeless := by
  obtain ⟨fuel, h⟩ := h
  obtain ⟨s', hs', rfl⟩ := exists_of_ending?_done h
  obtain ⟨hf, hsources⟩ := idle_of_hasPending hp
  let joined := Pending.ofSource inputPath ("\n".intercalate lines)
  have hstart : Between (lines.flatMap placed) s
      { s with sources := if joined.isExhausted then [] else [joined] } := by
    refine ⟨hc, hm, hp, ?_, rfl, joined, rfl, placed_join hlines, rfl⟩
    exact { Near.refl places s with sources := by rw [hsources]; rfl }
  obtain ⟨t, ht, hends⟩ := hstart.lines hs'
  refine ⟨t.visible, ?_, ht.visible⟩
  have hq : Queued { s with sources := [joined] } joined := ⟨hf, rfl, hc, rfl⟩
  have hdone : Ends runPending t (.done t.visible) :=
    ⟨0, by rw [runPending_of_idle ht.hasPending]; rfl⟩
  have hrun : s.mode ≠ .step := by rw [hm]; nofun
  exact (ends_evaluate hp _ hrun s.observers _).2 ((hq.ends_dropped _).2 (hends _ hdone))

/-- A definition, a call of it with a comment behind it, an empty line, a value that is put aside,
and a text. -/
def squareLines : List String :=
  [": SQ ( n ) DUP * ;", "3 SQ \\ nine", "", "5 >R", ".\" done\""]

theorem whole_squareLines : ∀ line ∈ squareLines, Whole line := by
  simp only [squareLines, List.forall_mem_cons]
  refine ⟨⟨[.word [':'], .blank ' ', .word ['S', 'Q'], .blank ' ', .comment [' ', 'n', ' '] true,
      .blank ' ', .word "DUP".toList, .blank ' ', .word ['*'], .blank ' ', .word [';']], ?_⟩,
    ⟨[.word ['3'], .blank ' ', .word ['S', 'Q'], .blank ' ', .line " nine".toList], ?_⟩,
    ⟨[], ?_⟩, ⟨[.word ['5'], .blank ' ', .word ['>', 'R']], ?_⟩,
    ⟨[.literal .print ".\"".toList true "done".toList true], ?_⟩, List.forall_mem_nil _⟩
  all_goals decide +kernel

/-- The data stack, the return stack and the output. -/
def remains? (r : EStateM.Result Fault Session Unit) :
    Option (DataStack × List ReturnItem × String) :=
  match r with
  | .ok _ s => some (s.stack, s.returns.items, s.output)
  | .error _ _ => none

theorem remains?_squareLines :
    remains? (evaluateAll squareLines 16 (Session.ofConfig .standard)) =
      some ([.int 9], [.value (.int 5)], "done") := by
  simp only [squareLines, evaluateAll, evaluate, processSource, enqueue,
    Pending.ofSource_eq 20 (by decide : ": SQ ( n ) DUP * ;".toList.length < 20),
    Pending.ofSource_eq 20 (by decide : "3 SQ \\ nine".toList.length < 20),
    Pending.ofSource_eq 20 (by decide : "".toList.length < 20),
    Pending.ofSource_eq 20 (by decide : "5 >R".toList.length < 20),
    Pending.ofSource_eq 20 (by decide : ".\" done\"".toList.length < 20)]
  decide +kernel

theorem ends_joined_squareLines :
    let s := Session.ofConfig .standard
    (∀ line ∈ squareLines, Whole line) ∧ s.mode = .run ∧ s.hasPending = false ∧
      s.cancelled = false ∧ ∃ left whole : Visible,
        left.stack = [.int 9] ∧ left.returns.items = [.value (.int 5)] ∧ left.output = "done" ∧
        Ends (evaluateAll squareLines) s (.done left) ∧
        Ends (evaluate · ("\n".intercalate squareLines)) s (.done whole) ∧
        whole.placeless = left.placeless := by
  intro s
  have hremains := remains?_squareLines
  cases hr : evaluateAll squareLines 16 (Session.ofConfig .standard) with
  | error f t =>
    rw [hr] at hremains
    cases hremains
  | ok a t =>
    rw [hr] at hremains
    obtain ⟨hstack, hrest⟩ := Prod.mk.inj (Option.some.inj hremains)
    obtain ⟨hreturns, houtput⟩ := Prod.mk.inj hrest
    have hlines : Ends (evaluateAll squareLines) s (.done t.visible) := ⟨16, congrArg ending? hr⟩
    obtain ⟨whole, hwhole, hsame⟩ := ends_joined whole_squareLines rfl rfl rfl hlines
    exact ⟨whole_squareLines, rfl, rfl, rfl, t.visible, whole, hstack, hreturns, houtput, hlines,
      hwhole, hsame⟩

end Action

end StackLang
