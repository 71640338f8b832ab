import StackLang.Proofs.Agreement.Tokens
import StackLang.Proofs.Call.Directions
import StackLang.Proofs.Saved.Faithful
import StackLang.Proofs.Words.Building
import StackLang.Proofs.Words.Foundation

/-!
# Texts that are printed

Outside of a definition `." text"` prints its text.  Inside of one it compiles three instructions:
the text, its length, and a call of what `TYPE` means there.  What follows in the body neither
changes them nor jumps between them, and a built-in word stays what it is.  So where `TYPE` means
the built-in word, the three instructions print the text whenever they run, and leave everything
else as it was.

* `Definition.Embeds`: instructions that stand in a definition, with no way in but the first one.
* `takeSteps_printing`: what the three instructions do.
* `Code.PrintsAt`: a text is printed whenever a word with this code comes to a place.
* `Session.prints_of_literal`: compiled or not, the text is printed.
-/

namespace StackLang

open Session Action

/-! ## Instructions that stay where they are -/

/-- The code has these instructions one behind the other from `p` on. -/
def Code.HasAt (code : Code) (p : Nat) (xs : List Instruction) : Prop :=
  ∀ k x, xs[k]? = some x → code[p + k]? = some x

theorem Code.HasAt.lt_size {code : Code} {p k : Nat} {xs : List Instruction}
    (h : code.HasAt p xs) (hk : k < xs.length) : p + k < Array.size code :=
  (Array.getElem?_eq_some_iff.1 (h k _ (List.getElem?_eq_getElem hk))).1

theorem Code.HasAt.push {code : Code} {p : Nat} {xs : List Instruction} (h : code.HasAt p xs)
    (x : Instruction) : Code.HasAt (Array.push code x) p xs := fun k y hy => by
  have hget := h k y hy
  rw [Code.getElem?_push_of_lt x (Array.getElem?_eq_some_iff.1 hget).1, hget]

namespace Definition

variable {d d' : Definition} {p : Nat} {xs : List Instruction}

/-- The definition has these instructions from `p` on, and no branch lands behind the first of
them. -/
structure Embeds (xs : List Instruction) (p : Nat) (d : Definition) : Prop where
  orderly : d.Orderly
  code : d.code.HasAt p xs
  avoids : ∀ k, 0 < k → k < xs.length → d.Avoids (p + k)

/-- Instructions without a target stay where they are, and apart from all branches. -/
theorem kept_embeds (hxs : ∀ x ∈ xs, x.op.target? = none) : Kept (Embeds xs p) where
  word := by
    intro l w d d' hd hw
    have hchanges := changes_compileStep hd.orderly hw
    refine ⟨hchanges.orderly hd.orderly, fun k x hx => ?_, fun k hk hlt => ?_⟩
    · have hget := hd.code k x hx
      have hwait : p + k ∉ d.waiting := fun hi => by
        obtain ⟨y, hy, ht⟩ := hd.orderly.branch _ hi
        rw [hget] at hy
        cases hy
        rw [hxs x (List.mem_of_getElem? hx)] at ht
        cases ht
      rw [(hchanges.growsInto.kept (Array.getElem?_eq_some_iff.1 hget).1 hwait).1, hget]
    · exact (hd.avoids k hk hlt).next hchanges (.inl (hd.code.lt_size hlt))
  record text hd :=
    ⟨⟨hd.orderly.distinct, hd.orderly.branch⟩, hd.code, fun k hk hlt =>
      have ha := hd.avoids k hk hlt
      ⟨ha.pos, ha.le_size, ha.back, ha.branch⟩⟩

/-- Instructions without a target that have just been appended. -/
theorem embeds_append (ho : d.Orderly) (hb : d.Bounded) (hxs : ∀ x ∈ xs, x.op.target? = none) :
    Embeds xs d.code.size { d with code := d.code ++ xs.toArray } := by
  have old {i : Nat} (hi : i < d.code.size) : (d.code ++ xs.toArray)[i]? = d.code[i]? :=
    Array.getElem?_append_left hi
  refine ⟨⟨ho.distinct, fun i hi => ?_⟩, fun k x hx => ?_, fun k hk hlt => ?_⟩
  · exact old (ho.lt_size hi) ▸ ho.branch i hi
  · show (d.code ++ xs.toArray)[d.code.size + k]? = some x
    simp [Array.getElem?_append_right, hx]
  · refine ⟨by omega, by simp; omega, fun c hc hn => ?_, fun i x hx hn => ?_⟩
    · have hle := hb.back c hc _ hn
      omega
    · by_cases hi : i < d.code.size
      · have hle := hb.branch i x _ ((old hi).symm.trans hx) hn
        omega
      · replace hx : (d.code ++ xs.toArray)[i]? = some x := hx
        rw [Array.getElem?_append_right (Nat.not_lt.1 hi), List.getElem?_toArray] at hx
        rw [hxs x (List.mem_of_getElem? hx)] at hn
        cases hn

/-- It stays the definition of the same entry. -/
theorem kept_word (index : Nat) : Kept fun d => d.word = index where
  word := by
    intro l w d d' hd hw
    rw [← build_singleton] at hw
    exact (same_of_build hw).word.trans hd
  record _ h := h

/-- Branches of an open definition have been compiled one by one. -/
theorem kept_orderly : Kept fun d => d.Orderly ∧ d.Bounded where
  word h hw :=
    have hchanges := changes_compileStep h.1 hw
    ⟨hchanges.orderly h.1, h.2.next hchanges⟩
  record _ h := ⟨⟨h.1.distinct, h.1.branch⟩, ⟨h.2.back, h.2.branch⟩⟩

end Definition

/-! ## The three instructions -/

/-- A text, its length, and a call of the word at an index. -/
def printing (l : Option Location) (text : String) (index : Nat) : List Instruction :=
  [⟨l, .push (.string text)⟩, ⟨l, .push (.int (Int64.ofNat text.length))⟩, ⟨l, .callBuiltin index⟩]

theorem target?_printing {l : Option Location} {text : String} {index : Nat} :
    ∀ x ∈ printing l text index, x.op.target? = none := by
  simp [printing, Op.target?]

namespace Session

/-- The text has been printed, and the data stack, the cells and the dictionary are as they were. -/
structure Prints (text : String) (s t : Session) : Prop where
  output : t.output = s.output ++ text
  stack : t.stack = s.stack
  cells : t.cells = s.cells
  dictionary : t.dictionary = s.dictionary

variable {config : Config} {text : String} {s t u : Session} {f : CallFrame}

/-- If the word is `TYPE`, the three instructions print the text.  Only the place and the observers
are not as they were. -/
theorem takeSteps_printing {l : Option Location} {index : Nat} {e : Entry}
    (hf : s.frame = some f) (hc : s.cancelled = false) (hb : s.builtin = none)
    (hcode : f.code.HasAt f.next (printing l text index))
    (he : s.dictionary.get? index = some e) (hbody : e.body = .builtin (.output .type))
    (hlength : text.length < 2 ^ 63) :
    ∃ location observers, takeSteps 3 s = .ok () { s with
      output := s.output ++ text
      frame := some (f.skip 3)
      location
      observers } := by
  have htext : f.code[f.next]? = some ⟨l, .push (.string text)⟩ := hcode 0 _ rfl
  have hlen : (f.skip 1).code[(f.skip 1).next]? =
    some ⟨l, .push (.int (Int64.ofNat text.length))⟩ := hcode 1 _ rfl
  have hcall : (f.skip 2).code[(f.skip 2).next]? = some ⟨l, .callBuiltin index⟩ := hcode 2 _ rfl
  -- The word finds the text and its length on the stack, and leaves what was below them.
  let u : Session := { s with
    stack := .int (Int64.ofNat text.length) :: .string text :: s.stack
    frame := some (f.skip 3)
    location := l.or (l.or (l.or s.location))
    observers := s.observers.record (.starting e.name e.signature) }
  let v : Session := { u with
    stack := s.stack
    output := s.output ++ text
    observers := u.observers.record (.output text) }
  have hrun : (Builtin.output .type).run (entering e.name u) = .ok () (entering e.name v) := by
    rw [run_type (t := u) rfl, take_length hlength]
    rfl
  obtain ⟨o, ho⟩ := exists_callBuiltin hrun hb
  have hoperation : operation (pushing (.int (Int64.ofNat text.length)) (f.skip 1) l
      (pushing (.string text) f l s)) = .ok () { v with observers := o } := by
    rw [operation_op (f := f.skip 2) rfl hcall, ← ho]
    exact call_of_builtin he hbody
  refine ⟨v.location, o, ?_⟩
  calc takeSteps 3 s = takeSteps 2 (pushing (.string text) f l s) := takeSteps_push hc hf htext 2
    _ = takeSteps 1 (pushing _ (f.skip 1) l (pushing (.string text) f l s)) :=
      takeSteps_push (f := f.skip 1) (t := pushing (.string text) f l s) hc rfl hlen 1
    _ = takeSteps 0 { v with observers := o } :=
      takeSteps_of_operation hc (.inl (Option.some_ne_none _)) hoperation fun h => by cases h
    _ = _ := rfl

end Session

/-- In any session of any run, a word with this code that is at `p` prints the text with its next
three steps, if the evaluation is not cancelled.  It changes nothing else, and no other way leads
between these steps. -/
structure Code.PrintsAt (config : Config) (code : Code) (p : Nat) (text : String) : Prop where
  prints : ∀ moves s f, play moves (ofConfig config) = .ok s → s.frame = some f → f.code = code →
    f.next = p → s.cancelled = false → ∃ t, takeSteps 3 s = .ok () t ∧ s.Prints text t ∧
      t.frame = some (f.skip 3) ∧ t.returns = s.returns
  entered : ∀ moves s t f, play moves (ofConfig config) = .ok s → step s = .ok () t →
    t.frame = some f → f.code = code → p < f.next → f.next < p + 3 →
      s.frame = some { f with next := f.next - 1 }

/-- Where `TYPE` was found, the three instructions print their text behind the end of the
definition. -/
theorem Definition.Embeds.printsAt {config : Config} {y : Definition} {l : Option Location}
    {text : String} {index p : Nat} {e : Entry} (hy : y.Embeds (printing l text index) p)
    (he : builtins.get? index = some e) (hbody : e.body = .builtin (.output .type))
    (hlength : text.length < 2 ^ 63) :
    Code.PrintsAt config (y.code.push ⟨none, .exit⟩) p text where
  prints := by
    rintro moves s f hs hf hcode rfl hc
    have hidle := (tracked_play (valid_ofConfig config nofun) (tracked_ofConfig config) hs).idle
    obtain ⟨location, observers, ht⟩ := takeSteps_printing hf hc hidle (hcode ▸ hy.code.push _)
      (get?_of_builtins (.ending hs) he) hbody hlength
    exact ⟨_, ht, ⟨rfl, rfl, rfl, rfl⟩, rfl, rfl⟩
  entered := by
    intro moves s t f hs ht hf hcode hlt hlt'
    -- The instruction before is the one for the text or the one for its length.
    obtain ⟨v, hv⟩ : ∃ v, f.code[f.next - 1]? = some ⟨l, .push v⟩ := by
      have hpush := hcode ▸ hy.code.push ⟨none, .exit⟩
      obtain h | h : f.next - 1 = p + 0 ∨ f.next - 1 = p + 1 := by omega
      · exact ⟨_, h ▸ hpush 0 _ rfl⟩
      · exact ⟨_, h ▸ hpush 1 _ rfl⟩
    have havoids : y.Avoids f.next := by
      have ha := hy.avoids (f.next - p) (by omega) (show _ < 3 by omega)
      rwa [Nat.add_sub_cancel' (Nat.le_of_lt hlt)] at ha
    refine (arrives_from_literal (suspended_of_play hs) ht hf (by omega) hv fun j x hx => ?_).1
    rw [hcode] at hx
    exact havoids.closed hx

namespace Session

/-! ## The token -/

/-- What the token says that the next operation reads. -/
def nextLexeme? (s : Session) : Option Lexeme :=
  match s.frame with
  | some _ => none
  | none => (s.sources.head?.bind (·.nextToken?)).map (·.1.lexeme)

variable {config : Config} {text : String} {s t u v : Session} {d : Definition}

theorem exists_of_nextLexeme? {x : Lexeme} (h : s.nextLexeme? = some x) :
    s.frame = none ∧ ∃ token tokens rest, token.lexeme = x ∧
      s = s.reading (token :: tokens) s.definition? rest := by
  unfold nextLexeme? at h
  cases hf : s.frame with
  | some f =>
    rw [hf] at h
    cases h
  | none =>
    rw [hf] at h
    obtain ⟨⟨token, behind⟩, htoken, rfl⟩ := Option.map_eq_some_iff.1 h
    obtain ⟨source, hsource, htoken⟩ := Option.bind_eq_some_iff.1 htoken
    obtain ⟨rest, hs⟩ := List.head?_eq_some_iff.1 hsource
    unfold Pending.nextToken? at htoken
    split at htoken
    · cases htoken
    · rename_i tokens htokens
      cases htoken
      refine ⟨rfl, token, tokens, rest, rfl, ?_⟩
      rw [definition?_of_sources hs, ← htokens]
      exact reading_of_sources hs

theorem hasPending_of_nextLexeme? {x : Lexeme} (h : s.nextLexeme? = some x) :
    s.hasPending = true := by
  obtain ⟨-, token, tokens, rest, -, hs⟩ := exists_of_nextLexeme? h
  rw [hs]
  exact (hasPending_iff _).2 (.inr (List.cons_ne_nil _ _))

/-- Outside of a definition the text is printed at once. -/
theorem prints_of_outside (hx : s.nextLexeme? = some (.string .print text))
    (hc : s.isCompiling = false) (hu : step s = .ok () u) : s.Prints text u := by
  obtain ⟨hf, token, tokens, rest, hl, hs⟩ := exists_of_nextLexeme? hx
  obtain ⟨v, hv, hu⟩ := exists_of_step_dropped hu
  rw [hs, definition?_eq_none hc, operation_outside hf, hl] at hv
  obtain ⟨sources, rfl, -⟩ := exists_of_dropUsedSources hu
  cases hv
  exact ⟨rfl, rfl, rfl, rfl⟩

/-- Inside of a definition the three instructions are compiled, if `TYPE` means anything. -/
theorem stringLiteral_reading (l : Location) (tokens : List Token) (rest : List Pending) :
    stringLiteral l .print text (s.reading tokens (some d) rest) =
      match s.dictionary.find? "TYPE" with
      | none => raise (.unknownWord "TYPE" []) (s.reading tokens (some d) rest)
      | some (index, _) => .ok () (s.reading tokens (some { d with
          code := d.code ++ (printing (some l) text index).toArray }) rest) := by
  have hc : (s.reading tokens (some d) rest).isCompiling = true := rfl
  have hdict : (s.reading tokens (some d) rest).dictionary = s.dictionary := rfl
  unfold stringLiteral
  dsimp only
  rw [StackLang.get_bind, if_pos hc, StackLang.get_bind, hdict]
  cases s.dictionary.find? "TYPE" with
  | none => rfl
  | some found =>
    dsimp only
    rw [bind_apply, compile_reading]
    dsimp only
    rw [bind_apply, compile_reading]
    dsimp only
    rw [compile_reading]
    rfl

/-- Apart from that nothing happens. -/
theorem compiled_of_inside (hx : s.nextLexeme? = some (.string .print text))
    (hd : s.definition? = some d) (hu : step s = .ok () u) :
    s.Prints "" u ∧ ∃ l index e token, s.dictionary.find? "TYPE" = some (index, e) ∧
      u.definition? = some (Definition.record
        { d with code := d.code ++ (printing l text index).toArray } token) := by
  obtain ⟨hf, token, tokens, rest, hl, hs⟩ := exists_of_nextLexeme? hx
  obtain ⟨v, hv, hu⟩ := exists_of_step_dropped hu
  rw [hs, hd, operation_token hf, hl] at hv
  obtain ⟨_, w, hw, hv⟩ := exists_of_bind hv
  have hw := (stringLiteral_reading token.location tokens rest).symm.trans hw
  have hdict : (s.knowing (some token.location) s.dictionary).dictionary = s.dictionary := rfl
  rw [hdict] at hw
  cases hfind : s.dictionary.find? "TYPE" with
  | none =>
    rw [hfind] at hw
    cases hw
  | some found =>
    rw [hfind] at hw
    cases hw
    cases hv
    have hdropped := eq_of_dropUsedSources (s := (s.knowing (some token.location)
      s.dictionary).reading tokens (some (Definition.record _ token.text)) rest) hf rfl hu
    subst hdropped
    exact ⟨⟨(String.append_empty).symm, rfl, rfl, rfl⟩, _, found.1, found.2, token.text, rfl, rfl⟩

/-! ## Whole runs -/

/-- Whether it is compiled or not, a text is printed.  Say a token `." text"` is read at any place
in a run.  Outside of a definition it prints the text at once.  Inside of one it changes nothing but
the definition, and if a semicolon closes that one later, then in the code that it installs there is
a place for the text.  Where `TYPE` meant the built-in word when the token was read, the text is
printed whenever a word with this code is at that place, whatever was defined before or is defined
since; if it meant another word, that is called there.  The length of a text has to fit into an
integer.  Every sequence of requests is a run, by `exists_play_eq_perform`. -/
theorem prints_of_literal {before : List Move} (hs : play before (ofConfig config) = .ok s)
    (hx : s.nextLexeme? = some (.string .print text)) (hlength : text.length < 2 ^ 63)
    (hu : step s = .ok () u) :
    (s.isCompiling = false → s.Prints text u) ∧
      ∀ d, s.definition? = some d → s.Prints "" u ∧
        ∃ l index e, s.dictionary.find? "TYPE" = some (index, e) ∧
          ∀ during v next? t, play during u = .ok v →
            (∀ w, Visits during u w → w.isCompiling = true) →
            v.nextBuiltin? = some (.defining .semicolon, next?) → step v = .ok () t →
            ∃ code source, t.dictionary = v.dictionary.modify d.word (Entry.filled code source) ∧
              code.HasAt d.code.size (printing l text index) ∧
              (e.body = .builtin (.output .type) → code.PrintsAt config d.code.size text) := by
  have hvalid : s.Valid AbleOrBlank := valid_play (valid_ofConfig config nofun) hs
  refine ⟨fun hc => prints_of_outside hx hc hu, fun d hd => ?_⟩
  obtain ⟨hprints, l, index, e, token, hfind, hu'⟩ := compiled_of_inside hx hd hu
  refine ⟨hprints, l, index, e, hfind, fun during v next? t hv hopen hsemicolon ht => ?_⟩
  have hvalid' := valid_step hvalid (hasPending_of_nextLexeme? hx) hu
  obtain ⟨y, hy, -, hdict⟩ := closed_of_semicolon ((Visits.ending hv).valid hvalid') hsemicolon ht
  -- What was compiled for the text stays as it is until the semicolon.
  have hstart : u.Building fun y =>
      y.Embeds (printing l text index) d.code.size ∧ y.word = d.word := fun y hy => by
    obtain ⟨ho, hb⟩ := building_of_visits Definition.kept_orderly
      (fun _ _ _ => ⟨Definition.orderly_opened .., Definition.bounded_opened ..⟩) (.ending hs) d hd
    rw [hu'] at hy
    cases hy
    exact ⟨(Definition.kept_embeds target?_printing).record token
      (Definition.embeds_append ho hb target?_printing), rfl⟩
  obtain ⟨hembeds, hword⟩ := building_of_compiling
    ((Definition.kept_embeds target?_printing).and (Definition.kept_word d.word)) hvalid' hopen
    hstart (.ending hv) y hy
  refine ⟨_, y.source, hword ▸ hdict, hembeds.code.push _, fun hbody => ?_⟩
  have hget := get?_builtins_of_visits (.ending hs) (Dictionary.find?_eq_some_iff.1 hfind).2.1
    (by rw [Entry.isBuiltin, hbody])
  exact hembeds.printsAt hget hbody hlength

/-- The sessions before and behind the step behind the moves, behind another step, and behind the
moves and further ones. -/
def compiling? (before after : List Move) : Option (Session × Session × Session × Session) := do
  let s ← (play before (ofConfig .standard)).toOption
  let u ← behindStep? s
  let t ← behindStep? u
  let w ← (play (before ++ after) (ofConfig .standard)).toOption
  return (s, u, t, w)

theorem of_compiling? {before after : List Move} {w : Session}
    (h : compiling? before after = some (s, u, t, w)) :
    play before (ofConfig .standard) = .ok s ∧ step s = .ok () u ∧ step u = .ok () t ∧
      play (before ++ after) (ofConfig .standard) = .ok w := by
  unfold compiling? at h
  obtain ⟨s', hs, h⟩ := Option.bind_eq_some_iff.1 h
  obtain ⟨u', hu, h⟩ := Option.bind_eq_some_iff.1 h
  obtain ⟨t', ht, h⟩ := Option.bind_eq_some_iff.1 h
  obtain ⟨w', hw, h⟩ := Option.bind_eq_some_iff.1 h
  cases h
  exact ⟨eq_ok_of_toOption hs, of_behindStep? hu, of_behindStep? ht, eq_ok_of_toOption hw⟩

/-- What is read and what `TYPE` means before the first step, where the open definition goes, what
is next before the second step and what it installs, and what runs and what `TYPE` means later. -/
structure CompilingView where
  lexeme : Option Lexeme
  meaning : Option Body
  slot : Option (Nat × Nat)
  compiling : Bool
  semicolon : Option (Builtin × Option String)
  installed : Option Body
  frame : Option CallFrame
  cancelled : Bool
  later : Option Nat
deriving DecidableEq

def compilingView : Session × Session × Session × Session → CompilingView
  | (s, u, t, w) => ⟨s.nextLexeme?, (s.dictionary.find? "TYPE").map (·.2.body),
      s.definition?.map fun d => (d.word, d.code.size), u.isCompiling, u.nextBuiltin?,
      (t.dictionary.get? 96).map (·.body), w.frame, w.cancelled,
      (w.dictionary.find? "TYPE").map (·.1)⟩

/-- `TYPE` is redefined behind the definition of `W`, and `W` goes on to print its text. -/
theorem prints_of_literal_behind_redefinition :
    let source := ": W .\" hé\" ; : TYPE 2DROP ; W"
    ∃ s t, play (.enqueue inputPath source :: List.replicate 7 .step) (ofConfig .standard) = .ok s ∧
      s.frame.map (·.name) = some "W" ∧ (s.dictionary.find? "TYPE").map (·.1) = some 97 ∧
      takeSteps 3 s = .ok () t ∧ s.Prints "hé" t := by
  intro source
  let code : Code := (printing (some ⟨inputPath, 1, 5⟩) "hé" 93).toArray.push ⟨none, .exit⟩
  have hrun : (compiling? [.enqueue inputPath source, .step] (List.replicate 6 .step)).map
      compilingView = some ⟨some (.string .print "hé"), some (.builtin (.output .type)),
        some (96, 0), true, some (.defining .semicolon, some ":"), some (.compiled code),
        some ⟨96, "W", code, 0⟩, false, some 97⟩ := by
    unfold compiling?
    simp only [play, List.cons_append, show Move.run (.enqueue inputPath source)
      (ofConfig .standard) = .ok () { ofConfig .standard with
        sources := [] ++ [.ofSource inputPath source] } from rfl]
    rw [Pending.ofSource_eq 50 (by decide)]
    decide +kernel
  obtain ⟨⟨s, u, t, w⟩, hcompiling, hview⟩ := Option.map_eq_some_iff.1 hrun
  obtain ⟨hs, hu, ht, hw⟩ := of_compiling? hcompiling
  simp only [compilingView, CompilingView.mk.injEq] at hview
  obtain ⟨hlexeme, hmeaning, hslot, hcompiles, hsemicolon, hinstalled, hframe, hcancelled,
    hlater⟩ := hview
  obtain ⟨d, hd, hslot⟩ := Option.map_eq_some_iff.1 hslot
  obtain ⟨hword, hsize⟩ := Prod.mk.inj hslot
  obtain ⟨-, l, index, e, hfind, hclosed⟩ :=
    (prints_of_literal hs hlexeme (by decide +kernel) hu).2 d hd
  obtain ⟨code', text, hinstalls, -, hprinting⟩ :=
    hclosed [] u _ t rfl (fun _ h => eq_of_visits_nil h ▸ hcompiles) hsemicolon ht
  have hmeaning : e.body = .builtin (.output .type) := by
    rw [hfind] at hmeaning
    exact Option.some.inj hmeaning
  -- The code that runs is the one that was installed.
  have hcode : code' = code := by
    rw [hinstalls, hword, Dictionary.get?_modify_eq, if_pos rfl] at hinstalled
    obtain ⟨x, hx, hbody⟩ := Option.map_eq_some_iff.1 hinstalled
    obtain ⟨slot, -, rfl⟩ := Option.map_eq_some_iff.1 hx
    exact Body.compiled.inj hbody
  obtain ⟨w', hw', hprints, -, -⟩ :=
    (hprinting hmeaning).prints _ w _ hw hframe hcode.symm hsize.symm hcancelled
  exact ⟨w, w', hw, hframe ▸ rfl, hlater, hw', hprints⟩

/-- Behind a `TYPE` of the user, a compiled text is handed to that word and not printed, while an
interpreted one is printed as ever. -/
theorem perform_print_behind_type : ∃ s t t',
    perform 30 [.evaluate ": TYPE 2DROP ;"] (ofConfig .standard) = .ok s ∧
      perform 30 [.evaluate ".\" hi\""] s = .ok t ∧ t.output = "hi" ∧
      perform 30 [.evaluate ": W .\" hi\" ; W"] s = .ok t' ∧ t'.output = "" ∧
      t'.hasPending = false ∧ t'.stack = [] := by
  have hrun : (perform 30 [.evaluate ": TYPE 2DROP ;"] (ofConfig .standard)).toOption.bind
      (fun s => (perform 30 [.evaluate ".\" hi\""] s).toOption.bind fun t =>
        (perform 30 [.evaluate ": W .\" hi\" ; W"] s).toOption.map fun t' =>
          (t.output, t'.output, t'.hasPending, t'.stack)) = some ("hi", "", false, []) := by
    simp only [perform, Request.run, evaluate, processSource, enqueue]
    rw [Pending.ofSource_eq 50 (by decide), Pending.ofSource_eq 50 (by decide),
      Pending.ofSource_eq 50 (by decide)]
    decide +kernel
  obtain ⟨s, hs, hrun⟩ := Option.bind_eq_some_iff.1 hrun
  obtain ⟨t, ht, hrun⟩ := Option.bind_eq_some_iff.1 hrun
  obtain ⟨t', ht', hview⟩ := Option.map_eq_some_iff.1 hrun
  simp only [Prod.mk.injEq] at hview
  obtain ⟨houtput, houtput', hpending, hstack⟩ := hview
  exact ⟨s, t, t', eq_ok_of_toOption hs, eq_ok_of_toOption ht, houtput, eq_ok_of_toOption ht',
    houtput', hpending, hstack⟩

end Session

end StackLang
