import StackLang.Proofs.Agreement.Building

/-!
# Tokens and the code that was compiled for them

One session reads portable tokens, and the other runs the code of a word that was defined by them.
A token takes one step, and its code may take several.  Behind it the sessions are where they were,
one token further on, or both of them have just called the same word.

* `Scene.Unrolls`: the code that is left is that of the tokens that are left.
* `Parallel`: the sessions between two tokens, or inside of a call.
* `Parallel.follows`: one step of the first session, and those of the second that belong to it.
* `Homeward.exists_end`: behind the last token the word comes to its end.
-/

namespace StackLang

/-- The frame with some more of its instructions behind it. -/
def CallFrame.skip (f : CallFrame) (count : Nat) : CallFrame :=
  { f with next := f.next + count }

/-- The code that is left of the word is that of the tokens that are left to the first session.  The
second one has come to the end of its source. -/
structure Scene.Unrolls (k : Scene) (f : CallFrame) : Prop extends k.Fits where
  type : k.dictionary.Means "TYPE" (.output .type)
  closed : k.source.definition = none
  spent : k.source' = ⟨[], none⟩
  portable : ∀ x ∈ k.source.tokens, x.lexeme.Portable k.dictionary
  ops : f.code.ops.drop f.next =
    (k.source.tokens.flatMap fun x => x.lexeme.ops k.dictionary) ++ [.exit]

/-- The scene when these tokens are left. -/
def Scene.leaving (k : Scene) (tokens : List Token) : Scene :=
  { k with source := ⟨tokens, none⟩ }

/-- The first session stands between two tokens, and the second between the instructions for them;
or both are in the same call from there. -/
def Parallel (k : Scene) (f : CallFrame) (below : List ReturnItem) (s t : Session) : Prop :=
  Abreast k none (some f) below (.call none :: below) s t ∨
    Homeward k none (some f) below (.call none :: below) s t

open Session Action

namespace Scene.Unrolls

variable {k : Scene} {f : CallFrame} {x : Token} {xs : List Token}

theorem source (h : k.Unrolls f) (hx : k.source.tokens = x :: xs) : k.source = ⟨x :: xs, none⟩ := by
  rw [← hx, ← h.closed]

/-- The operations of the first token come first. -/
theorem drop_eq (h : k.Unrolls f) (hx : k.source.tokens = x :: xs) :
    f.code.ops.drop f.next = x.lexeme.ops k.dictionary ++
      ((xs.flatMap fun y => y.lexeme.ops k.dictionary) ++ [.exit]) := by
  rw [h.ops, hx, List.flatMap_cons, List.append_assoc]

/-- Behind the operations of a token those of the others are left. -/
theorem skip (h : k.Unrolls f) (hx : k.source.tokens = x :: xs) (count : Nat)
    (hops : f.code.ops.drop (f.next + count) =
      (xs.flatMap fun y => y.lexeme.ops k.dictionary) ++ [.exit]) :
    (k.leaving xs).Unrolls (f.skip count) where
  toFits := ⟨h.roles, h.known⟩
  type := h.type
  closed := rfl
  spent := h.spent
  portable y hy := h.portable y (hx ▸ List.mem_cons_of_mem x hy)
  ops := hops

end Scene.Unrolls

/-! ## Operations -/

namespace Action

variable {s t : Session} {token : Token} {tokens : List Token} {rest : List Pending}
  {f : CallFrame} {l : Option Location} {v : Value} {op : Op}

/-- Outside of a definition a token is run and not recorded. -/
theorem operation_outside (hf : s.frame = none) :
    operation (s.reading (token :: tokens) none rest) =
      runLexeme token.location token.lexeme
        ((s.knowing (some token.location) s.dictionary).reading tokens none rest) := by
  rw [operation_token hf, bind_apply]
  cases runLexeme token.location token.lexeme
    ((s.knowing (some token.location) s.dictionary).reading tokens none rest) <;> rfl

theorem operation_op (hf : t.frame = some f) (hx : f.code[f.next]? = some ⟨l, op⟩) :
    operation t =
      runOp f op { t with frame := some (f.skip 1), location := l.or t.location } := by
  rw [operation_of_frame hf, runInstruction_eq hx]
  rfl

/-- The session in which the word has pushed a value. -/
def pushing (v : Value) (f : CallFrame) (l : Option Location) (t : Session) : Session :=
  { t with stack := v :: t.stack, frame := some (f.skip 1), location := l.or t.location }

theorem operation_push (hf : t.frame = some f) (hx : f.code[f.next]? = some ⟨l, .push v⟩) :
    operation t = .ok () (pushing v f l t) := by
  rw [operation_op hf hx]
  rfl

theorem takeSteps_push (hc : t.cancelled = false) (hf : t.frame = some f)
    (hx : f.code[f.next]? = some ⟨l, .push v⟩) (steps : Nat) :
    takeSteps (steps + 1) t = takeSteps steps (pushing v f l t) := by
  have hp : t.frame ≠ none := by
    rw [hf]
    exact Option.some_ne_none f
  exact takeSteps_of_operation hc (.inl hp) (operation_push hf hx) fun h => by cases h

/-- `TYPE` prints as much of a text as the number above it says. -/
theorem run_type {name text : String} {n : Int64} {stack : DataStack}
    (ht : t.stack = .int n :: .string text :: stack) :
    (Builtin.output .type).run (entering name t) =
      print (String.ofList (text.toList.take n.toInt.toNat))
        (entering name { t with stack }) := by
  unfold Builtin.run OutputWord.run
  dsimp only
  rw [bind_apply, @operands_ok _ _ _ (n, text) stack]
  · rfl
  · show (_ : Operand (Int64 × String)) t.stack = _
    rw [ht]
    rfl

/-- The length of a text is enough for all of it. -/
theorem take_length {text : String} (h : text.length < 2 ^ 63) :
    String.ofList (text.toList.take (Int64.ofNat text.length).toInt.toNat) = text := by
  rw [Int64.toInt_ofNat_of_lt h, Int.toNat_natCast, ← String.length_toList, List.take_length,
    String.ofList_toList]

end Action

variable {k : Scene} {c c' : Option CallFrame} {below below' : List ReturnItem}
  {s t s' t' : Session} {f : CallFrame} {x : Token} {xs : List Token} {ops : List Op}

namespace Homeward

section

variable (h : Homeward k c c' below below' s t)
include h

theorem worked (hw : Worked s t s' t') : Homeward k c c' below below' s' t' := by
  obtain ⟨b, o, o', rfl, rfl⟩ := hw
  exact ⟨⟨rfl, h.builtin, h.running, h.left, h.right, h.portable⟩, h.frame, h.items⟩

/-- What is told does not matter. -/
theorem told (o o' : Observers) :
    Homeward k c c' below below' { s with observers := o } { t with observers := o' } :=
  ⟨⟨h.board, h.builtin, h.running, h.left, h.right, h.portable⟩, h.frame, h.items⟩

/-- Both sessions call the same word. -/
theorem callCompiled {i : Nat} {name : String} {code : Code}
    (hf : CallFrame.Portable k.dictionary ⟨i, name, code, 0⟩) :
    Concurs (fun _ => Abreast k c c' below below') (callCompiled i name code s)
      (Action.callCompiled i name code t) := by
  refine concurs_callCompiled fun r r' hs ht => ?_
  have hi : r.items = .call c :: below := by
    rw [ReturnStack.items_of_push? hs, h.frame.1, h.items.1]
  have hi' : r'.items = .call c' :: below' := by
    rw [ReturnStack.items_of_push? ht, h.frame.2, h.items.2]
  refine ⟨⟨h.board, h.builtin, h.running, h.left, h.right, fun y hy => ?_⟩, ⟨_, rfl, rfl⟩, [], hi,
    hi'⟩
  rcases List.mem_cons.1 hy with rfl | hy
  · exact hf
  · refine h.portable y ?_
    have hcallers : ReturnStack.callers r.items = s.active := by
      rw [hi, ReturnStack.callers_call, active, h.frame.1, h.items.1]
    exact hcallers ▸ hy

end

/-- The first session has taken a token, and the second some instructions. -/
theorem next (h : Homeward k none (some f) below (.call none :: below) s t)
    (l l' : Option Location) (tokens : List Token) (count : Nat) :
    Homeward (k.leaving tokens) none (some (f.skip count)) below (.call none :: below)
      ((s.knowing l s.dictionary).reading tokens none [])
      { t with frame := some (f.skip count), location := l' } :=
  ⟨⟨h.board, h.builtin, h.running, ⟨h.left.1, rfl⟩, h.right, h.portable⟩, ⟨h.frame.1, rfl⟩, h.items⟩

theorem operation_eq (h : Homeward k c c' below below' s t) (hf : s.frame = none)
    (hk : k.source = ⟨x :: xs, none⟩) : operation s = runLexeme x.location x.lexeme
      ((s.knowing (some x.location) s.dictionary).reading xs none []) := by
  have hs := reading_of_sources h.left.2
  rw [hk] at hs
  calc operation s = operation (s.reading (x :: xs) none []) := congrArg operation hs
    _ = _ := operation_outside hf

end Homeward

/-! ## Tokens -/

/-- One step of the first session, and those of the second that belong to it; the last of them does
what that of the first does, or both fail. -/
def Follows (below : List ReturnItem) (s t : Session) : Prop :=
  ∃ steps u k' f', takeSteps steps t = .ok () u ∧ u.frame ≠ none ∧ u.cancelled = false ∧
    Scene.Unrolls k' f' ∧ Concurs (fun _ => Parallel k' f' below) (operation s) (operation u)

section

variable (hk : k.Unrolls f) (hx : k.source.tokens = x :: xs)
  (h : Homeward k none (some f) below (.call none :: below) s t)
include hk hx h

/-- The number is pushed by the token, and by its instruction. -/
theorem follows_number {n : Number} (hl : x.lexeme = .number n) : Follows below s t := by
  obtain ⟨l, hi, hops⟩ := Code.exists_of_drop ((hk.drop_eq hx).trans (by rw [hl]; rfl))
  refine ⟨0, t, k.leaving xs, f.skip 1, rfl, by simp [h.frame.2], h.running.2,
    hk.skip hx 1 hops, ?_⟩
  rw [h.operation_eq h.frame.1 (hk.source hx), hl, operation_push h.frame.2 hi]
  have hnext := h.next (some x.location) (l.or t.location) xs 1
  refine .ok () (.inr (hnext.worked ?_))
  show Worked _ _ _ { { t with frame := some (f.skip 1), location := l.or t.location } with
    stack := .ofNumber n :: t.stack }
  rw [show t.stack = s.stack from congrArg Board.stack h.board]
  exact worked_setStack hnext.board _

/-- The text and its length are pushed by the token, and by its two instructions. -/
theorem follows_push {text : String} (hl : x.lexeme = .string .push text) :
    Follows below s t := by
  obtain ⟨l, hi, hops⟩ := Code.exists_of_drop ((hk.drop_eq hx).trans (by rw [hl]; rfl))
  obtain ⟨l', hi', hops'⟩ := Code.exists_of_drop hops
  refine ⟨1, _, k.leaving xs, f.skip 2, takeSteps_push h.running.2 h.frame.2 hi 0,
    Option.some_ne_none _, h.running.2, hk.skip hx 2 hops', ?_⟩
  rw [h.operation_eq h.frame.1 (hk.source hx), hl, operation_push rfl hi']
  have hnext := h.next (some x.location) (l'.or (l.or t.location)) xs 2
  refine .ok () (.inr (hnext.worked ?_))
  show Worked _ _ _ { { t with frame := some (f.skip 2), location := l'.or (l.or t.location) } with
    stack := .int (Int64.ofNat text.length) :: .string text :: t.stack }
  rw [show t.stack = s.stack from congrArg Board.stack h.board]
  exact worked_setStack hnext.board _

/-- The token prints its text, and the code pushes it and calls the word that prints it. -/
theorem follows_print {text : String} (hl : x.lexeme = .string .print text)
    (ht : text.length < 2 ^ 63) (hb : s.builtin = none) : Follows below s t := by
  obtain ⟨index, e, hfind, hbody⟩ := hk.type
  have he := (Dictionary.find?_eq_some_iff.1 hfind).2.1
  obtain ⟨l, hi, hops⟩ := Code.exists_of_drop ((hk.drop_eq hx).trans
    (by rw [hl, Lexeme.ops, hfind]; rfl))
  obtain ⟨l', hi', hops⟩ := Code.exists_of_drop hops
  obtain ⟨l'', hi'', hops⟩ := Code.exists_of_drop hops
  have hsteps : takeSteps 2 t =
      .ok () (pushing (.int (Int64.ofNat text.length)) (f.skip 1) l'
        (pushing (.string text) f l t)) :=
    (takeSteps_push h.running.2 h.frame.2 hi 1).trans (takeSteps_push (f := f.skip 1)
      (t := pushing (.string text) f l t) h.running.2 rfl hi' 0)
  refine ⟨2, _, k.leaving xs, f.skip 3, hsteps, Option.some_ne_none _, h.running.2,
    hk.skip hx 3 hops, ?_⟩
  have hnext := h.next (some x.location) (l''.or (l'.or (l.or t.location))) xs 3
  have he' : t.dictionary.get? index = some e := h.right.1 ▸ hk.known index e he
  have hb' : t.builtin = none := h.builtin.trans hb
  -- The word finds the text and its length on the stack, and leaves what was below them.
  let u : Session := { t with
    stack := .int (Int64.ofNat text.length) :: .string text :: t.stack
    frame := some (f.skip 3)
    location := l''.or (l'.or (l.or t.location))
    observers := t.observers.record (.starting e.name e.signature) }
  let u' : Session := { u with
    stack := t.stack
    output := t.output ++ text
    observers := u.observers.record (.output text) }
  have hrun : (Builtin.output .type).run (entering e.name u) = .ok () (entering e.name u') := by
    rw [run_type (t := u) rfl, take_length ht]
    rfl
  obtain ⟨o, ho⟩ := exists_callBuiltin hrun hb'
  have hcall : operation (pushing (.int (Int64.ofNat text.length)) (f.skip 1) l'
      (pushing (.string text) f l t)) = callBuiltin e.name (.output .type) u := by
    rw [operation_op (f := f.skip 2) rfl hi'']
    exact call_of_builtin he' hbody
  rw [h.operation_eq h.frame.1 (hk.source hx), hl, hcall, ho]
  exact .ok () (.inr (hnext.worked (worked_print hnext.board text _ _)))

/-- A name calls its word, and so does the instruction for it. -/
theorem exists_call {name : String} {index : Nat} {e : Entry} (hl : x.lexeme = .word name)
    (hfind : k.dictionary.find? name = some (index, e)) (hi : e.immediate = false) :
    ∃ u v, operation s = call index u ∧ operation t = call index v ∧ u.builtin = s.builtin ∧
      (k.leaving xs).Unrolls (f.skip 1) ∧
      Homeward (k.leaving xs) none (some (f.skip 1)) below (.call none :: below) u v := by
  have he := (Dictionary.find?_eq_some_iff.1 hfind).2.1
  have honly := (hk.roles index e he).compileOnly_of_plain hi
  obtain ⟨l, hi', hops⟩ := Code.exists_of_drop ((hk.drop_eq hx).trans
    (by rw [hl, Lexeme.ops, hfind]; rfl))
  refine ⟨(s.knowing (some x.location) s.dictionary).reading xs none [],
    { t with frame := some (f.skip 1), location := l.or t.location }, ?_, ?_, rfl,
    hk.skip hx 1 hops, h.next ..⟩
  · have hdict : ((s.knowing (some x.location) s.dictionary).reading xs none []).dictionary =
        k.dictionary := h.left.1
    rw [h.operation_eq h.frame.1 (hk.source hx), hl]
    dsimp only [runLexeme]
    rw [word_of_find? (hdict ▸ hfind), if_neg (by rw [honly]; simp), if_neg]
    exact fun hc => by cases hc
  · rw [operation_op h.frame.2 hi']
    dsimp only
    split <;> rfl

theorem follows_builtin {name : String} {index : Nat} {e : Entry} {w : Builtin}
    (hl : x.lexeme = .word name) (hfind : k.dictionary.find? name = some (index, e))
    (hi : e.immediate = false) (hbody : e.body = .builtin w) (hw : w.isSituated = false)
    (hb : s.builtin = none) : Follows below s t := by
  have he := (Dictionary.find?_eq_some_iff.1 hfind).2.1
  obtain ⟨u, v, hu, hv, hub, hk', h'⟩ := exists_call hk hx h hl hfind hi
  refine ⟨0, t, _, _, rfl, by simp [h.frame.2], h.running.2, hk', ?_⟩
  rw [hu, hv, call_of_builtin ((congrArg (·.get? index) h'.left.1).trans he) hbody,
    call_of_builtin ((congrArg (·.get? index) h'.right.1).trans (hk.known index e he)) hbody]
  have hub := hub.trans hb
  have htold := h'.told (u.observers.record (.starting e.name e.signature))
    (v.observers.record (.starting e.name e.signature))
  exact (concurs_callBuiltin_of_concurring (concurring_of_roles hk.roles he hi hbody hw) htold.board
    hub (h'.builtin.trans hub)).mono fun _ _ _ hworked => Or.inr (htold.worked hworked)

theorem follows_compiled {name : String} {index : Nat} {e : Entry} (hl : x.lexeme = .word name)
    (hfind : k.dictionary.find? name = some (index, e)) (hi : e.immediate = false)
    (hportable : k.dictionary.Portable index) : Follows below s t := by
  obtain ⟨e', code, he, -, hbody, hframe⟩ := hportable.frame
  obtain ⟨u, v, hu, hv, -, hk', h'⟩ := exists_call hk hx h hl hfind hi
  refine ⟨0, t, _, _, rfl, by simp [h.frame.2], h.running.2, hk', ?_⟩
  rw [hu, hv, call_of_compiled ((congrArg (·.get? index) h'.left.1).trans he) hbody,
    call_of_compiled ((congrArg (·.get? index) h'.right.1).trans (hk.known index e' he)) hbody]
  exact ((h'.told _ _).callCompiled (hframe e'.name 0)).mono fun _ _ _ => .inl

end

/-- As long as the first session has something to do, the second one keeps up with it. -/
theorem Parallel.follows (hk : k.Unrolls f) (h : Parallel k f below s t) (hb : s.builtin = none)
    (hl : Linked s.frame s.returns.items) (hne : s.frame = none → k.source.tokens ≠ []) :
    Follows below s t := by
  rcases h with h | h
  · obtain ⟨g, hs, ht⟩ := h.frame
    refine ⟨0, t, k, f, rfl, by simp [ht], h.running.2, hk, ?_⟩
    rw [operation_of_frame hs, operation_of_frame ht]
    exact h.concurs_runInstruction hk.toFits hs hl
  · cases hx : k.source.tokens with
    | nil => exact (hne h.frame.1 hx).elim
    | cons x xs =>
      have hportable := hk.portable x (hx ▸ List.mem_cons_self)
      generalize hlexeme : x.lexeme = lexeme at hportable
      cases hportable with
      | number n => exact follows_number hk hx h hlexeme
      | push text => exact follows_push hk hx h hlexeme
      | print ht => exact follows_print hk hx h hlexeme ht hb
      | builtin hf hi hbody hw => exact follows_builtin hk hx h hlexeme hf hi hbody hw hb
      | compiled hf hi hp => exact follows_compiled hk hx h hlexeme hf hi hp

/-- Behind the last token the word is left, and then nothing is in flight. -/
theorem Homeward.exists_end (hk : k.Unrolls f)
    (h : Homeward k none (some f) below (.call none :: below) s t) (hx : k.source.tokens = []) :
    ∃ u, takeSteps 1 t = .ok () u ∧ u.hasPending = false ∧ u.board = s.board := by
  have hops := hk.ops
  rw [hx] at hops
  obtain ⟨l, hi, -⟩ := Code.exists_of_drop hops
  have hu : ReturnStack.unwind t.returns.items t.returns.depth =
      (some none, below, t.returns.depth - 1) := by
    rw [h.items.2]
    rfl
  obtain ⟨r, hr, -, -⟩ := ReturnStack.exists_exitCall hu
  obtain ⟨o, ho⟩ := exists_finishWord f.name { t with
    frame := none
    returns := r
    calls := t.calls.tail
    location := l.or t.location }
  let u := { t with
    frame := none
    returns := r
    calls := t.calls.tail
    location := l.or t.location
    observers := o }
  have hoperation : operation t = .ok () u := by
    rw [operation_op h.frame.2 hi]
    show leaveWord f _ = _
    rw [leaveWord_eq, hr]
    exact ho
  have hdrop : unusedSources u.sources = .ok [] := by
    rw [show u.sources = _ from h.right.2, hk.spent]
    rfl
  have hstep : checked step t = .ok () { u with sources := [] } := by
    refine checked_ok ?_
    rw [step_of_running h.running.2, bind_apply, hoperation]
    dsimp only
    rw [dropUsedSources_of_idle rfl, hdrop]
  refine ⟨{ u with sources := [] }, ?_, rfl, h.board⟩
  rw [takeSteps_succ, if_pos ((hasPending_iff t).2 (.inl (by simp [h.frame.2]))), hstep]
  rfl

end StackLang
