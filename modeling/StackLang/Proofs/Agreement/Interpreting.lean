import StackLang.Proofs.Agreement.Tokens
import StackLang.Proofs.Call.Running

/-!
# Interpreting and compiling agree

The tokens of a source can be evaluated as they are, or they can become the body of a new word that
is then called.  If all of them are portable it makes no difference to the values on the stack, the
memory and the output, nor to the cause of an error, unless the return stack is full in one of the
two ways and not in the other.

* `Ending.Concurs`: two evaluations that come to the same end.
* `Parallel.concurs`: the runs, by induction on the steps of the first.
* `evaluate_concurs_definition`: an evaluation and the one of the definition and its call.
-/

namespace StackLang

def Visible.board (v : Visible) : Board :=
  ⟨v.stack, v.cells, v.output⟩

/-- The evaluations succeed with the same values, memory and output, or fail with the same, and for
the same cause. -/
inductive Ending.Concurs : Ending → Ending → Prop
  | done {left left' : Visible} (h : left'.board = left.board) :
    Concurs (.done left) (.done left')
  | failed {e e' : ScriptError} {left left' : Visible} (hc : e'.cause = e.cause)
    (h : left'.board = left.board) : Concurs (.failed e left) (.failed e' left')

/-- The evaluation was cancelled, or found the return stack full. -/
def Ending.CutShort (x : Ending) : Prop :=
  ∃ e left, x = .failed e left ∧
    (e.cause = .cancelled ∨ ∃ depth, e.cause = .returnStackOverflow depth)

open Session Action

variable {k : Scene} {f : CallFrame} {below : List ReturnItem} {s t s' t' : Session} {x y : Ending}
  {fault fault' : Fault} {depth : Nat}

/-! ## Failures -/

theorem Fault.IsFull.cutShort (h : fault.IsFull)
    (hx : ending? (.error fault s : EStateM.Result Fault Session Unit) = some x) : x.CutShort := by
  obtain ⟨e, depth, rfl, he⟩ := h
  cases hx
  exact ⟨e, s.visible, rfl, .inr ⟨depth, he⟩⟩

/-- A step in which an operation fails fails with it, and drops the evaluation in flight. -/
theorem exists_checkedStep_of_error (hc : s.cancelled = false) (h : operation s = .error fault s') :
    ∃ u, checked step s = .error fault u ∧ u.board = s'.board := by
  have hstep : step s = .error fault s' := by rw [step_of_running hc, bind_apply, h]
  unfold checked
  rw [hstep]
  cases fault with
  | script e => exact ⟨s'.abort e, rfl, rfl⟩
  | breach b => exact ⟨s', rfl, rfl⟩
  | outOfFuel => exact ⟨s', rfl, rfl⟩

/-- Runs that fail for the same cause, and not because a rule of the machine is broken. -/
theorem concurs_of_errors (hf : fault.Concurs fault') (hb : t.board = s.board)
    (hn : ∀ b, fault ≠ .breach b)
    (hx : ending? (.error fault s : EStateM.Result Fault Session Unit) = some x)
    (hy : ending? (.error fault' t : EStateM.Result Fault Session Unit) = some y) :
    x.Concurs y := by
  cases fault with
  | script e =>
    cases fault' with
    | script e' =>
      cases hx
      cases hy
      exact .failed hf hb
    | breach b => exact hf.elim
    | outOfFuel => exact hf.elim
  | breach b => exact (hn b rfl).elim
  | outOfFuel => cases hx

/-- A step behind which no source is used up. -/
theorem checkedStep_of_operation (hc : s.cancelled = false) (h : operation s = .ok () t)
    (ht : t.frame = none → unusedSources t.sources = .ok t.sources) :
    checked step s = .ok () t := by
  refine checked_ok ?_
  rw [step_of_running hc, bind_apply, h]
  exact dropUsedSources_of_unused ht

/-! ## The end of the tokens -/

/-- Portable code calls no word that is hidden. -/
theorem Staged.not_callsHidden (h : Staged k s t) (hd : s.dictionary.Sound) : ¬ s.CallsHidden := by
  rintro ⟨i, e, hi, he, hv⟩
  obtain ⟨g, hg, hi⟩ := Option.bind_eq_some_iff.1 hi
  obtain ⟨op, hop, hi⟩ := Option.bind_eq_some_iff.1 hi
  have hcalls : g.code.Calls g.word i := ⟨op, Array.mem_of_getElem? hop, hi⟩
  rw [h.left.1] at hd he
  rcases h.portable g (by simp [active, hg]) i hcalls with hp | ⟨e', w, he', hb, -⟩
  · obtain ⟨e', code, he', hv', -⟩ := hp.frame
    rw [he] at he'
    cases he'
    rw [hv] at hv'
    cases hv'
  · rw [he] at he'
    cases he'
    rw [(hd i e he).hidden hv] at hb
    cases hb

/-- The first session has no tokens left, and drops its source; the second one leaves its word. -/
theorem Homeward.concurs_end (hk : k.Unrolls f)
    (h : Homeward k none (some f) below (.call none :: below) s t) (hnil : k.source.tokens = [])
    {n : Nat} (hx : ending? (runPending n { s with sources := [] }) = some x)
    (hy : Ends runPending t y) : x.Concurs y := by
  obtain ⟨u, hu, hidle, hb⟩ := h.exists_end hk hnil
  rw [ends_runPending_of_takeSteps hu] at hy
  obtain ⟨m, hy⟩ := hy
  rw [runPending_of_idle hidle] at hy
  rw [runPending_of_idle (by simp [hasPending, h.frame.1])] at hx
  cases hx
  cases hy
  exact .done hb

/-! ## Runs -/

/-- What holds between the steps of an evaluation that calls no hidden word. -/
structure Session.Lawful (s : Session) : Prop where
  valid : s.Valid Able
  tracked : ∃ depth, s.Tracked depth

theorem Session.Lawful.idle (h : s.Lawful) : s.builtin = none :=
  h.tracked.elim fun _ h => h.idle

/-- A step of portable code or tokens does not break a rule, and what held before it holds behind
it. -/
theorem Staged.lawful (h : Staged k s t) (hs : s.Lawful) :
    (∀ b s', operation s ≠ .error (.breach b) s') ∧
      ∀ s', checked step s = .ok () s' → s'.Lawful := by
  have hn := h.not_callsHidden hs.valid.entries
  refine ⟨fun b s' hb => ?_, fun s' hs' => ⟨?_, ?_⟩⟩
  · have hop := triple_operation s ⟨hs.valid, hn⟩
    rw [hb] at hop
    exact hop
  · have hstep := triple_step s ⟨hs.valid, hn⟩
    rw [eq_ok_of_checked hs'] at hstep
    exact hstep
  · obtain ⟨depth, htracked⟩ := hs.tracked
    exact ⟨depth, tracked_step htracked hs.valid.linked (eq_ok_of_checked hs')⟩

namespace Parallel

theorem staged (h : Parallel k f below s t) : Staged k s t :=
  h.elim (·.toStaged) (·.toStaged)

/-- A word runs in the second session, between two tokens of the first as well. -/
theorem frame_ne_none (h : Parallel k f below s t) : t.frame ≠ none := by
  rcases h with h | h
  · obtain ⟨g, -, ht⟩ := h.frame
    simp [ht]
  · simp [h.frame.2]

/-- Without a running word the first session stands between two tokens. -/
theorem homeward (h : Parallel k f below s t) (hf : s.frame = none) :
    Homeward k none (some f) below (.call none :: below) s t := by
  rcases h with h | h
  · obtain ⟨g, hs, -⟩ := h.frame
    rw [hf] at hs
    cases hs
  · exact h

/-- The runs come to the same end, by induction on the steps of the first session. -/
theorem concurs {n : Nat} (hk : k.Unrolls f) (h : Parallel k f below s t) (hs : s.Lawful)
    (hne : s.frame = none → k.source.tokens ≠ []) (hx : ending? (runPending n s) = some x)
    (hy : Ends runPending t y) (hxs : ¬ x.CutShort) (hys : ¬ y.CutShort) : x.Concurs y := by
  induction n generalizing k f s t with
  | zero =>
    have hp : s.hasPending = true :=
      (hasPending_iff s).2 (.inr (by rw [h.staged.left.2]; exact List.cons_ne_nil _ _))
    rw [runPending, StackLang.get_bind, if_pos hp] at hx
    cases hx
  | succ n ih =>
    have hp : s.hasPending = true :=
      (hasPending_iff s).2 (.inr (by rw [h.staged.left.2]; exact List.cons_ne_nil _ _))
    obtain ⟨hbreach, hlawful⟩ := h.staged.lawful hs
    obtain ⟨steps, u, k', f', hsteps, hu, huc, hk', hconcurs⟩ :=
      h.follows hk hs.idle hs.valid.linked hne
    rw [runPending_succ, if_pos hp] at hx
    rw [ends_runPending_of_takeSteps hsteps] at hy
    have hup : u.hasPending = true := (hasPending_iff u).2 (.inl hu)
    generalize hsop : operation s = r at hconcurs
    generalize huop : operation u = r' at hconcurs
    cases hconcurs with
    | @ok s' u' _ h' =>
      have hustep : checked step u = .ok () u' :=
        checkedStep_of_operation huc huop fun hf => (h'.frame_ne_none hf).elim
      have hy' : Ends runPending u' y := by
        exact (ends_runPending_of_step hup hustep y).1 hy
      by_cases hend : s'.frame = none ∧ k'.source.tokens = []
      · -- The step has used up the source, which is dropped with it.
        have hdrop : unusedSources s'.sources = .ok [] := by
          rw [h'.staged.left.2, unusedSources, Pending.isExhausted, hend.2, hk'.closed]
          rfl
        have hstep : checked step s = .ok () { s' with sources := [] } := by
          refine checked_ok ?_
          rw [step_of_running h.staged.running.1, bind_apply, hsop]
          dsimp only
          rw [dropUsedSources_of_idle hend.1, hdrop]
        rw [hstep] at hx
        exact (h'.homeward hend.1).concurs_end hk' hend.2 hx hy'
      · have hunused (hf : s'.frame = none) : unusedSources s'.sources = .ok s'.sources := by
          have hne' : k'.source.tokens ≠ [] := fun hnil => hend ⟨hf, hnil⟩
          rw [h'.staged.left.2, unusedSources, if_neg]
          simpa [Pending.isExhausted] using hne'
        have hstep := checkedStep_of_operation h.staged.running.1 hsop hunused
        rw [hstep] at hx
        exact ih hk' h' (hlawful s' hstep) (fun hf hnil => hend ⟨hf, hnil⟩) hx hy'
    | error hf hb =>
      obtain ⟨s'', hs'', hbs⟩ := exists_checkedStep_of_error h.staged.running.1 hsop
      obtain ⟨u'', hu'', hbu⟩ := exists_checkedStep_of_error huc huop
      rw [hs''] at hx
      refine concurs_of_errors hf (hbu.trans (hb.trans hbs.symm)) ?_ hx ?_
      · rintro b rfl
        exact hbreach b _ hsop
      · exact (ends_runPending_of_failedStep hup hu'' y).1 hy
    | fullLeft hfull r =>
      obtain ⟨s'', hs'', -⟩ := exists_checkedStep_of_error h.staged.running.1 hsop
      rw [hs''] at hx
      exact (hxs (hfull.cutShort hx)).elim
    | fullRight hfull r =>
      obtain ⟨u'', hu'', -⟩ := exists_checkedStep_of_error huc huop
      have hend := (ends_runPending_of_failedStep hup hu'' y).1 hy
      exact (hys (hfull.cutShort hend)).elim

end Parallel

/-! ## A definition and its call -/

section

variable {name : String} {token : Token} {l : Option Location} {e : Entry} {code : Code}
  {observers : Observers}

/-- The name of the newest word is read, and the word gets its frame, or the return stack is
full. -/
theorem exists_operation_newest (hf : s.frame = none) (hx : token.lexeme = .word name)
    (hname : e.name = Text.uppercase name) (hv : e.visible = true)
    (honly : e.compileOnly = false) (hb : e.body = .compiled code) :
    (∃ fault u, operation ((s.knowing l (s.dictionary.push e)).reading [token] none []) =
      .error fault u ∧ fault.IsFull) ∨
    ∃ r calls observers, s.returns.push? (.call none) = some r ∧
      operation ((s.knowing l (s.dictionary.push e)).reading [token] none []) =
        .ok () { (s.knowing (some token.location) (s.dictionary.push e)).reading [] none [] with
          returns := r
          calls
          frame := some ⟨s.dictionary.size, e.name, code, 0⟩
          observers } := by
  let u := (s.knowing (some token.location) (s.dictionary.push e)).reading [] none []
  have hfind : u.dictionary.find? name = some (s.dictionary.size, e) := by
    show (s.dictionary.push e).find? name = _
    rw [Dictionary.find?_push, if_pos]
    simp [Dictionary.answers, hv, hname]
  have hcall : operation ((s.knowing l (s.dictionary.push e)).reading [token] none []) =
      callCompiled s.dictionary.size e.name code
        { u with observers := u.observers.record (.starting e.name e.signature) } := by
    rw [operation_outside (s := s.knowing l (s.dictionary.push e)) hf, hx]
    show word token.location name u = _
    rw [word_of_find? hfind, if_neg (by rw [honly]; simp), if_neg (by simp [u, isCompiling,
      definition?, reading])]
    exact call_of_compiled (s := u) (Dictionary.get?_push_self _ _) hb
  rw [hcall, callCompiled_eq]
  dsimp only [u, reading, knowing]
  rw [hf]
  cases hr : s.returns.push? (.call none) with
  | none => exact .inl ⟨_, _, rfl, _, _, rfl, rfl⟩
  | some r => exact .inr ⟨r, _, _, rfl, rfl⟩

end

/-- The tokens of a definition and of a call of its word, without their locations. -/
def Lexeme.definedAndCalled (name : String) (body : List Lexeme) : List Lexeme :=
  .word ":" :: .word name :: (body ++ [.word ";", .word name])

namespace Lexeme

/-- The tokens of a text that defines a word and calls it. -/
theorem exists_of_definedAndCalled {name : String} {body : List Lexeme} {tokens : List Token}
    (h : tokens.map (·.lexeme) = definedAndCalled name body) :
    ∃ colon named inner semicolon called,
      tokens = colon :: named :: (inner ++ [semicolon, called]) ∧ colon.lexeme = .word ":" ∧
        named.lexeme = .word name ∧ inner.map (·.lexeme) = body ∧ semicolon.lexeme = .word ";" ∧
        called.lexeme = .word name := by
  unfold definedAndCalled at h
  obtain ⟨colon, rest, rfl, hcolon, h⟩ := List.map_eq_cons_iff.1 h
  obtain ⟨named, rest, rfl, hnamed, h⟩ := List.map_eq_cons_iff.1 h
  obtain ⟨inner, ends, rfl, hinner, h⟩ := List.map_eq_append_iff.1 h
  obtain ⟨semicolon, rest, rfl, hsemicolon, h⟩ := List.map_eq_cons_iff.1 h
  obtain ⟨called, rest, rfl, hcalled, h⟩ := List.map_eq_cons_iff.1 h
  obtain rfl := List.map_eq_nil_iff.1 h
  exact ⟨colon, named, inner, semicolon, called, rfl, hcolon, hnamed, hinner, hsemicolon, hcalled⟩

end Lexeme

/-- Before its first token an evaluation stands beside the newest word, which has just been
called. -/
theorem homeward_of_called {d : Dictionary} {source : Pending} {r : ReturnStack}
    (calls : List CallItem) (l : Option Location) (observers : Observers) (hf : s.frame = none)
    (hc : s.cancelled = false) (hl : Linked none s.returns.items)
    (hr : s.returns.push? (.call none) = some r) :
    Homeward ⟨s.dictionary, source, d, ⟨[], none⟩⟩ none (some f) s.returns.items
      (.call none :: s.returns.items) { s with sources := [source] }
      { (s.knowing l d).reading [] none [] with
        returns := r, calls, frame := some f, observers } where
  board := rfl
  builtin := rfl
  running := ⟨hc, hc⟩
  left := ⟨rfl, rfl⟩
  right := ⟨rfl, rfl⟩
  portable g hg := by
    have hnone : active { s with sources := [source] } = [] := by
      show s.frame.toList ++ ReturnStack.callers s.returns.items = []
      rw [hf, ReturnStack.callers_of_linked hl]
      rfl
    rw [hnone] at hg
    cases hg
  frame := ⟨hf, rfl⟩
  items := ⟨rfl, ReturnStack.items_of_push? hr⟩

/-- If the evaluation of a definition and a call does not find the return stack full, it comes to
the call of the new word, whose code is that of the tokens. -/
theorem exists_homeward_of_definition {name : String} {colon named semicolon called : Token}
    {body : List Token} (source : Pending) (hf : s.frame = none) (hc : s.cancelled = false)
    (hb : s.builtin = none) (hl : Linked none s.returns.items) (hr : s.dictionary.Roles)
    (hm : s.dictionary.Means ":" (.defining .colon))
    (hm' : s.dictionary.Means ";" (.defining .semicolon))
    (htype : s.dictionary.Means "TYPE" (.output .type)) (hcolon : colon.lexeme = .word ":")
    (hnamed : named.lexeme = .word name) (hsemicolon : semicolon.lexeme = .word ";")
    (hcalled : called.lexeme = .word name) (hbody : ∀ z ∈ body, z.lexeme.Portable s.dictionary)
    (hy : Ends runPending (s.reading (colon :: named :: (body ++ [semicolon, called])) none []) y)
    (hys : ¬ y.CutShort) :
    ∃ e f u, f.next = 0 ∧
      f.code.ops = (body.flatMap fun z => z.lexeme.ops s.dictionary) ++ [.exit] ∧
      Ends runPending u y ∧
      Homeward ⟨s.dictionary, source, s.dictionary.push e, ⟨[], none⟩⟩ none (some f) s.returns.items
        (.call none :: s.returns.items) { s with sources := [source] } u := by
  have hn : named.name? = some name := by
    rw [Token.name?, hnamed]
    rfl
  obtain ⟨steps, l, e, code, o, hsteps, hname, hv, -, honly, hcode, hops⟩ :=
    exists_takeSteps_definition [] hf hb hc hr hm hm' htype hcolon hn hsemicolon hbody called []
  let v : Session := { s with observers := o }
  let w : Session := (v.knowing l (v.dictionary.push e)).reading [called] none []
  have hw : Ends runPending w y := (ends_runPending_of_takeSteps hsteps y).1 hy
  have hp : w.hasPending = true := (hasPending_iff w).2 (.inr (List.cons_ne_nil _ _))
  rcases exists_operation_newest (s := v) (l := l) hf hcalled hname hv honly hcode with
    ⟨fault, u, hu, hfull⟩ | ⟨r, calls, o', hr', hu⟩
  · obtain ⟨u', hstep, -⟩ := exists_checkedStep_of_error (s := w) hc hu
    have hend := (ends_runPending_of_failedStep hp hstep y).1 hw
    exact (hys (hfull.cutShort hend)).elim
  · have hstep := checkedStep_of_operation (s := w) hc hu fun h => by cases h
    refine ⟨e, ⟨s.dictionary.size, e.name, code, 0⟩, _, rfl, hops, ?_,
      homeward_of_called calls (some called.location) o' hf hc hl hr'⟩
    exact (ends_runPending_of_step hp hstep y).1 hw

section

variable {config : Config} {moves : List Move} {source definition : String}

/-- In step mode an evaluation is queued, and nothing runs. -/
theorem eq_done_of_step (hp : s.hasPending = false) (hm : s.mode = .step)
    (hx : Ends (evaluate · source) s x) : x = .done s.visible := by
  obtain ⟨n, hx⟩ := hx
  let t : Session := { s with sources := [.ofSource inputPath source] }
  have hdrop : ∃ sources, checked dropUsedSources t = .ok () { t with sources } := by
    have hunused : ∃ sources, unusedSources t.sources = .ok sources := by
      show ∃ sources, unusedSources [_] = _
      unfold unusedSources
      split <;> exact ⟨_, rfl⟩
    obtain ⟨sources, hu⟩ := hunused
    refine ⟨sources, checked_ok ?_⟩
    rw [dropUsedSources_of_idle (s := t) (idle_of_hasPending hp).1, hu]
  obtain ⟨sources, hdrop⟩ := hdrop
  dsimp only at hx
  rw [evaluate_of_step hm, sources_append_of_idle hp, hdrop] at hx
  cases hx
  rfl

/-- A cancelled evaluation ends with its first step. -/
theorem cutShort_of_cancelled (hp : s.hasPending = false) (hm : s.mode ≠ .step)
    (hc : s.cancelled = true) (hx : Ends (evaluate · source) s x) : x.CutShort := by
  obtain ⟨n, hx⟩ := hx
  let t : Session := { s with sources := [.ofSource inputPath source] }
  have hpending : t.hasPending = true := (hasPending_iff t).2 (.inr (List.cons_ne_nil _ _))
  dsimp only at hx
  rw [evaluate_of_run hm, sources_append_of_idle hp] at hx
  cases n with
  | zero =>
    rw [runPending, StackLang.get_bind, if_pos hpending] at hx
    cases hx
  | succ n =>
    rw [runPending_succ, if_pos hpending, checked_script (step_of_cancelled (s := t) hc)] at hx
    cases hx
    exact ⟨_, _, rfl, .inl rfl⟩

/-- The evaluations concur where they run at once. -/
theorem concurs_of_running {name : String} (hs : play moves (ofConfig config) = .ok s)
    (hp : s.hasPending = false) (hc : s.cancelled = false) (hm : s.mode ≠ .step)
    (hcolon : s.dictionary.Means ":" (.defining .colon))
    (hsemicolon : s.dictionary.Means ";" (.defining .semicolon))
    (htype : s.dictionary.Means "TYPE" (.output .type))
    (hportable : ∀ x ∈ Token.ofSource inputPath source, x.lexeme.Portable s.dictionary)
    (hdefinition : (Token.ofSource inputPath definition).map (·.lexeme) =
      Lexeme.definedAndCalled name ((Token.ofSource inputPath source).map (·.lexeme)))
    (hx : Ends (evaluate · source) s x) (hy : Ends (evaluate · definition) s y)
    (hxs : ¬ x.CutShort) (hys : ¬ y.CutShort) : x.Concurs y := by
  obtain ⟨hf, hsources⟩ := idle_of_hasPending hp
  have hvalid := valid_play (valid_ofConfig config nofun) hs
  have htracked := tracked_play (valid_ofConfig config nofun) (tracked_ofConfig config) hs
  have hroles := roles_of_visits (Visits.ending hs)
  have hlinked : Linked none s.returns.items := hf ▸ hvalid.linked
  obtain ⟨colon, named, inner, semicolon, called, htokens, hlcolon, hlnamed, hlinner, hlsemicolon,
    hlcalled⟩ := Lexeme.exists_of_definedAndCalled hdefinition
  have hinner : ∀ z ∈ inner, z.lexeme.Portable s.dictionary := by
    intro z hz
    have hmem : z.lexeme ∈ inner.map (·.lexeme) := List.mem_map_of_mem hz
    rw [hlinner] at hmem
    obtain ⟨w, hw, heq⟩ := List.mem_map.1 hmem
    exact heq ▸ hportable w hw
  let p := Pending.ofSource inputPath source
  have hx : Ends runPending { s with sources := [p] } x :=
    (ends_evaluate hp source hm s.observers x).1 hx
  have hy : Ends runPending (s.reading (colon :: named :: (inner ++ [semicolon, called])) none [])
      y := htokens ▸ (ends_evaluate hp definition hm s.observers y).1 hy
  obtain ⟨e, f, u, hnext, hops, hu, hhome⟩ := exists_homeward_of_definition p hf hc htracked.idle
    hlinked hroles hcolon hsemicolon htype hlcolon hlnamed hlsemicolon hlcalled hinner hy hys
  have hfits : Scene.Fits ⟨s.dictionary, p, s.dictionary.push e, ⟨[], none⟩⟩ := by
    refine ⟨hroles, fun i e' hi => ?_⟩
    rw [Dictionary.get?_push, if_neg (Nat.ne_of_lt (Dictionary.lt_size_of_get? hi))]
    exact hi
  have hunrolls : Scene.Unrolls ⟨s.dictionary, p, s.dictionary.push e, ⟨[], none⟩⟩ f := by
    refine ⟨hfits, htype, rfl, rfl, hportable, ?_⟩
    have hmap := congrArg (List.flatMap (Lexeme.ops s.dictionary)) hlinner
    rw [List.flatMap_map, List.flatMap_map] at hmap
    rw [hnext, List.drop_zero, hops, hmap]
    rfl
  by_cases hnil : p.tokens = []
  · have hq : Queued { s with sources := [p] } p := ⟨hf, rfl, hc, rfl⟩
    rw [hq.ends_dropped, Pending.isExhausted, hnil] at hx
    obtain ⟨n, hx⟩ := hx
    exact hhome.concurs_end hunrolls hnil hx hu
  · have hable : s.Valid Able := ⟨hvalid.toConsistent, fun g hg => by rw [hf] at hg; cases hg⟩
    have hlawful : Lawful { s with sources := [p] } := by
      have henqueued := valid_enqueue hable inputPath source
      rw [sources_append_of_idle hp] at henqueued
      exact ⟨henqueued, _, htracked.words, htracked.idle, htracked.room, htracked.limit⟩
    obtain ⟨n, hx⟩ := hx
    exact Parallel.concurs hunrolls (.inr hhome) hlawful (fun _ => hnil) hx hu hxs hys

/-- Interpreting and compiling agree: portable tokens that are evaluated as they are, and the same
tokens as the body of a new word that is then called, leave the same values, memory and output, and
both succeed or both fail for the same cause, if both come to an end that no full return stack and
no cancellation has brought about. -/
theorem evaluate_concurs_definition {name : String} (hs : play moves (ofConfig config) = .ok s)
    (hp : s.hasPending = false) (hcolon : s.dictionary.Means ":" (.defining .colon))
    (hsemicolon : s.dictionary.Means ";" (.defining .semicolon))
    (htype : s.dictionary.Means "TYPE" (.output .type))
    (hportable : ∀ x ∈ Token.ofSource inputPath source, x.lexeme.Portable s.dictionary)
    (hdefinition : (Token.ofSource inputPath definition).map (·.lexeme) =
      Lexeme.definedAndCalled name ((Token.ofSource inputPath source).map (·.lexeme)))
    (hx : Ends (evaluate · source) s x) (hy : Ends (evaluate · definition) s y)
    (hxs : ¬ x.CutShort) (hys : ¬ y.CutShort) : x.Concurs y := by
  by_cases hm : s.mode = .step
  · rw [eq_done_of_step hp hm hx, eq_done_of_step hp hm hy]
    exact .done rfl
  · have hc : s.cancelled = false := by
      cases hc : s.cancelled with
      | false => rfl
      | true => exact (hxs (cutShort_of_cancelled hp hm hc hx)).elim
    exact concurs_of_running hs hp hc hm hcolon hsemicolon htype hportable hdefinition hx hy hxs hys

end

/-- `SQUARE` puts the number aside for a moment, as it may inside of its own call. -/
def squareMoves : List Move :=
  .enqueue inputPath ": SQUARE DUP >R R> * ;" :: List.replicate 6 .step

def stackLeft? : Ending → Option DataStack
  | .done left => some left.stack
  | _ => none

/-- What is left of a call of `SQUARE`, and of a word that calls it. -/
theorem stackLeft_square :
    (play squareMoves (ofConfig .standard)).toOption.map (fun s =>
        ["5 SQUARE", ": W 5 SQUARE ; W"].map fun source =>
          (ending? (runPending 18 { s with
            sources := s.sources ++ [.ofSource inputPath source] })).bind stackLeft?) =
      some [some [.int 25], some [.int 25]] := by
  rw [squareMoves, play, show Move.run (.enqueue inputPath ": SQUARE DUP >R R> * ;")
    (ofConfig .standard) = .ok () { ofConfig .standard with
      sources := [] ++ [.ofSource inputPath ": SQUARE DUP >R R> * ;"] } from rfl]
  simp only [List.map_cons, List.map_nil]
  rw [Pending.ofSource_eq 30 (by decide), Pending.ofSource_eq 30 (by decide),
    Pending.ofSource_eq 30 (by decide)]
  decide +kernel

theorem exists_ends_of_stackLeft? {source : String} {stack : DataStack} {fuel : Nat}
    (hm : s.mode ≠ .step)
    (h : (ending? (runPending fuel { s with
      sources := s.sources ++ [.ofSource inputPath source] })).bind stackLeft? = some stack) :
    ∃ left, Ends (evaluate · source) s (.done left) ∧ left.stack = stack := by
  obtain ⟨x, hx, hstack⟩ := Option.bind_eq_some_iff.1 h
  rw [← evaluate_of_run hm] at hx
  cases x with
  | done left => exact ⟨left, ⟨fuel, hx⟩, Option.some.inj hstack⟩
  | failed e left => cases hstack
  | broken b => cases hstack

def squareCode : Code :=
  #[⟨some ⟨inputPath, 1, 10⟩, .callBuiltin 0⟩, ⟨some ⟨inputPath, 1, 14⟩, .callBuiltin 17⟩,
    ⟨some ⟨inputPath, 1, 17⟩, .callBuiltin 18⟩, ⟨some ⟨inputPath, 1, 20⟩, .callBuiltin 22⟩,
    ⟨none, .exit⟩]

/-- The new word, and what the words mean that it calls and that it takes to define another. -/
structure SquareView where
  mode : Mode
  pending : Bool
  square : Option (Nat × Bool × Bool × Body)
  means : List (Option Body)
  called : List (Option (Body × Bool))
deriving DecidableEq

def squareView (s : Session) : SquareView where
  mode := s.mode
  pending := s.hasPending
  square := (s.dictionary.find? "SQUARE").map fun (i, e) => (i, e.visible, e.immediate, e.body)
  means := [":", ";", "TYPE"].map fun name => (s.dictionary.find? name).map (·.2.body)
  called := [0, 17, 18, 22].map fun i => (s.dictionary.get? i).map fun e => (e.body, e.immediate)

theorem squareView_of_squareMoves :
    (play squareMoves (ofConfig .standard)).toOption.map squareView = some
      { mode := .run
        pending := false
        square := some (96, true, false, .compiled squareCode)
        means := [some (.builtin (.defining .colon)), some (.builtin (.defining .semicolon)),
          some (.builtin (.output .type))]
        called := [some (.builtin (.stack .dup), false),
          some (.builtin (.returns .toReturn), false),
          some (.builtin (.returns .fromReturn), false),
          some (.builtin (.math .multiply), false)] } := by
  rw [squareMoves, play, show Move.run (.enqueue inputPath ": SQUARE DUP >R R> * ;")
    (ofConfig .standard) = .ok () { ofConfig .standard with
      sources := [] ++ [.ofSource inputPath ": SQUARE DUP >R R> * ;"] } from rfl]
  rw [Pending.ofSource_eq 30 (by decide)]
  decide +kernel

/-- `SQUARE` may stand anywhere. -/
theorem portable_square {d : Dictionary} {e : Entry} (he : d.get? 96 = some e)
    (hv : e.visible = true) (hb : e.body = .compiled squareCode)
    (hd : [0, 17, 18, 22].map (fun i => (d.get? i).map fun e => (e.body, e.immediate)) =
      [some (.builtin (.stack .dup), false), some (.builtin (.returns .toReturn), false),
        some (.builtin (.returns .fromReturn), false),
        some (.builtin (.math .multiply), false)]) : d.Portable 96 := by
  refine ⟨(· = 96), ?_, rfl⟩
  rintro _ rfl
  refine ⟨e, squareCode, he, hv, hb, ?_⟩
  have called {i : Nat} {w : Builtin}
      (h : ∃ a, d.get? i = some a ∧ a.body = .builtin w ∧ a.immediate = false)
      (hw : w.isSituated = false ∨ ∃ r, w = .returns r) : d.Callable (· = 96) i := by
    obtain ⟨a, ha, hbody, himmediate⟩ := h
    exact .inr ⟨a, w, ha, hbody, himmediate, hw⟩
  obtain ⟨hdup, hputs, htakes, hmultiply⟩ : _ ∧ _ ∧ _ ∧ _ := by simpa using hd
  rintro j ⟨x, hx, hj⟩
  simp only [squareCode, List.mem_toArray, List.mem_cons, List.not_mem_nil, or_false] at hx
  rcases hx with rfl | rfl | rfl | rfl | rfl <;> cases hj
  · exact called hdup (.inl rfl)
  · exact called hputs (.inr ⟨_, rfl⟩)
  · exact called htakes (.inr ⟨_, rfl⟩)
  · exact called hmultiply (.inl rfl)

/-- The tokens of the call, and of the definition of `W` and its call. -/
theorem ofSource_square :
    (Token.ofSource inputPath "5 SQUARE").map (·.lexeme) =
        [.number (.int 5), .word "SQUARE"] ∧
      (Token.ofSource inputPath ": W 5 SQUARE ; W").map (·.lexeme) =
        Lexeme.definedAndCalled "W" [.number (.int 5), .word "SQUARE"] := by
  rw [Token.ofSource_eq 30 (by decide), Token.ofSource_eq 30 (by decide)]
  decide +kernel

/-- `SQUARE` and the same inside of `W`. -/
theorem evaluate_concurs_definition_square :
    ∃ s left left', play squareMoves (ofConfig .standard) = .ok s ∧ s.hasPending = false ∧
      Ends (evaluate · "5 SQUARE") s (.done left) ∧
      Ends (evaluate · ": W 5 SQUARE ; W") s (.done left') ∧ left.stack = [.int 25] ∧
      (Ending.done left).Concurs (.done left') := by
  have hview := squareView_of_squareMoves
  have hleft := stackLeft_square
  cases hs : play squareMoves (ofConfig .standard) with
  | error f =>
    rw [hs] at hview
    cases hview
  | ok s =>
    rw [hs] at hview hleft
    have hview := Option.some.inj hview
    have hp : s.hasPending = false := congrArg SquareView.pending hview
    have hmode : s.mode = .run := congrArg SquareView.mode hview
    have hm : s.mode ≠ .step := by simp [hmode]
    obtain ⟨hcolon, hsemicolon, htype⟩ : _ ∧ _ ∧ _ := by
      simpa [squareView] using congrArg SquareView.means hview
    have hsquare : (s.dictionary.find? "SQUARE").map _ = some _ := congrArg SquareView.square hview
    obtain ⟨⟨i, e⟩, hf, he⟩ := Option.map_eq_some_iff.1 hsquare
    obtain ⟨rfl, hv, hi, hb⟩ : i = 96 ∧ e.visible = true ∧ e.immediate = false ∧
      e.body = .compiled squareCode := by simpa using he
    obtain ⟨hcall, hdefine⟩ : _ ∧ _ := by simpa using Option.some.inj hleft
    obtain ⟨left, hx, hstack⟩ := exists_ends_of_stackLeft? hm hcall
    obtain ⟨left', hy, -⟩ := exists_ends_of_stackLeft? hm hdefine
    have hwhole : ∀ v : Visible, ¬ (Ending.done v).CutShort := by
      rintro v ⟨f, w, hfail, -⟩
      cases hfail
    have hportable : ∀ x ∈ Token.ofSource inputPath "5 SQUARE", x.lexeme.Portable s.dictionary := by
      intro x hx
      have hmem : x.lexeme ∈ (Token.ofSource inputPath "5 SQUARE").map (·.lexeme) :=
        List.mem_map_of_mem hx
      rw [ofSource_square.1] at hmem
      obtain hnumber | hword : x.lexeme = .number (.int 5) ∨ x.lexeme = .word "SQUARE" := by
        simpa using hmem
      · exact hnumber ▸ .number _
      · have he : s.dictionary.get? 96 = some e := (Dictionary.find?_eq_some_iff.1 hf).2.1
        exact hword ▸ .compiled hf hi (portable_square he hv hb (congrArg SquareView.called hview))
    refine ⟨s, left, left', rfl, hp, hx, hy, hstack, ?_⟩
    exact evaluate_concurs_definition hs hp hcolon hsemicolon htype hportable
      (ofSource_square.1 ▸ ofSource_square.2) hx hy (hwhole left) (hwhole left')

end StackLang
