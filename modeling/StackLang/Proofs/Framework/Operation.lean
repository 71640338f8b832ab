import StackLang.Proofs.Framework.Indifferent
import StackLang.Proofs.Session.Steps

/-!
# What an operation does

An operation calls a word, or leaves one, or does neither.  A property that is kept where neither
happens still holds where a word is called or left, so what a whole operation keeps follows from
what calls and exits do.

* `Session.nextCallee?`: the word that the next operation calls.
* `Quiet`: what an operation keeps that neither calls nor leaves a word.
* `Quiet.triple_operation`: what it keeps with calls and exits.
-/

namespace StackLang

namespace Session

/-- The dictionary entry that a token calls: that of a name which is not to be compiled. -/
def tokenCallee? (s : Session) (token : Token) : Option Nat :=
  match token.lexeme with
  | .word name => (s.dictionary.find? name).bind fun (index, e) =>
    if e.compileOnly && !s.isCompiling || s.isCompiling && !e.immediate then none else some index
  | _ => none

/-- The dictionary entry that the next operation calls. -/
def nextCallee? (s : Session) : Option Nat :=
  match s.frame with
  | some _ => s.callee?
  | none => (s.sources.head?.bind (·.nextToken?)).bind fun (token, _) => s.tokenCallee? token

theorem nextCallee?_of_frame {s : Session} {f : CallFrame} (hf : s.frame = some f) :
    s.nextCallee? = f.code[f.next]?.bind fun x => x.op.callee? f.word := by
  unfold nextCallee? callee?
  rw [hf]
  rfl

end Session

namespace Action

/-- Keeping a token changes the first source at most. -/
theorem triple_recordToken_of {Q : Session → Prop} {F : Fault → Session → Prop}
    (hQ : ∀ (t : Session) (sources : List Pending), Q t → Q { t with sources }) (token : Token) :
    Triple Q (recordToken token) (fun _ => Q) F := by
  refine Triple.view fun s => ?_
  split
  · refine Triple.modify fun t ht => ?_
    split
    · exact hQ t _ ht
    · exact ht
  · exact Triple.pure fun _ ht => ht

/-- From `s` an operation that neither calls nor leaves a word keeps `P`, or fails with `E`. -/
structure Quiet (s : Session) (P : Session → Prop) (E : Fault → Session → Prop) : Prop
    extends Detached P E where
  start : P s
  advance : ∀ {f : CallFrame} (location : Option Location), s.frame = some f →
    P { s with frame := some { f with next := f.next + 1 }, location }
  ranOff : ∀ {f : CallFrame}, s.frame = some f → E (.breach (.ranOff f.next f.name)) s
  runOp : ∀ {f : CallFrame} {op : Op}, s.frame = some f → op.callee? f.word = none →
    op ≠ .exit → Triple P (runOp f op) (fun _ => P) E

section

variable {s u : Session} {P Q : Session → Prop} {E F : Fault → Session → Prop}

section

variable (hP : Detached P E) (hu : P u) (hQ : ∀ t, P t → Q t) {token : Token}
  (hcall : ∀ index, u.tokenCallee? token = some index →
    Triple (fun t => P t ∧ t.dictionary = u.dictionary) (call index) (fun _ => Q) F)
  (hF : u.tokenCallee? token = none → ∀ e t, E e t → F e t)
include hP hu hQ hcall hF

/-- A word that is neither run nor compiled is complained about before anything is called. -/
theorem Detached.triple_word {location : Location} {name : String}
    (hname : token.lexeme = .word name) :
    Triple (· = u) (word location name) (fun _ => Q) F := by
  have hcallee : u.tokenCallee? token = (u.dictionary.find? name).bind fun (index, e) =>
      if e.compileOnly && !u.isCompiling || u.isCompiling && !e.immediate then none
      else some index := by
    rw [Session.tokenCallee?, hname]
  refine Triple.bind (Q := fun found t => t = u ∧ u.dictionary.find? name = some found) ?_
    fun (index, e) => ?_
  · rintro t rfl
    unfold lookup
    cases hfind : t.dictionary.find? name with
    | none => exact hF (by rw [hcallee, hfind, Option.bind_none]) _ _ (hP.fails _ hu)
    | some found => exact ⟨rfl, rfl⟩
  · refine Triple.of_fact (fun _ h => h.2) fun hfind => ?_
    refine Triple.mono (P := (· = u)) ?_ (fun _ h => h.1) fun _ _ h => h
    rw [hfind, Option.bind_some] at hcallee
    refine Triple.get_bind ?_
    rintro v rfl
    dsimp only at hcallee ⊢
    split
    · rename_i honly
      refine triple_raise_bind fun t ht => hF ?_ _ _ (hP.fails _ (ht ▸ hu))
      rw [hcallee, honly, Bool.true_or, if_pos rfl]
    · rename_i honly
      split
      · rename_i hcompile
        refine ((hP.triple_compile _ _).weaken (hF ?_)).mono (fun t ht => ht ▸ hu) fun _ => hQ
        rw [hcallee, hcompile, Bool.or_true, if_pos rfl]
      · rename_i hcompile
        have hstart : ∀ t, t = v → P t ∧ t.dictionary = v.dictionary := by
          rintro t rfl
          exact ⟨hu, rfl⟩
        refine (hcall index ?_).mono hstart fun _ _ h => h
        rw [hcallee, Bool.eq_false_iff.2 honly, Bool.eq_false_iff.2 hcompile]
        rfl

theorem Detached.triple_runLexeme (location : Location) :
    Triple (· = u) (runLexeme location token.lexeme) (fun _ => Q) F := by
  have stay {p : Action Unit} (hp : Triple P p (fun _ => P) E)
      (hn : u.tokenCallee? token = none) : Triple (· = u) p (fun _ => Q) F :=
    (hp.weaken (hF hn)).mono (fun t ht => ht ▸ hu) fun _ => hQ
  cases hl : token.lexeme with
  | number value => exact stay (hP.triple_literal _ _) (by rw [Session.tokenCallee?, hl])
  | string form text =>
    exact stay (hP.triple_stringLiteral _ _ _) (by rw [Session.tokenCallee?, hl])
  | word name => exact hP.triple_word hu hQ hcall hF hl

/-- The place is noted before the token is run, and the token kept behind it. -/
theorem Detached.triple_runToken
    (hsources : ∀ (t : Session) (sources : List Pending), Q t → Q { t with sources }) :
    Triple (· = u) (runToken token) (fun _ => Q) F := by
  refine Triple.get_bind ?_
  rintro v rfl
  refine Triple.bind (Q := fun _ t => t = { v with location := some token.location })
    (Triple.modify fun t ht => by rw [ht]) fun _ => ?_
  have hv := hP.apart (some token.location) v.stack v.dictionary v.cells v.sources hu
  refine (hP.triple_runLexeme hv hQ hcall hF token.location).bind fun _ => ?_
  split
  · exact triple_recordToken_of hsources token
  · exact Triple.pure fun _ ht => ht

end

namespace Quiet

variable (hP : Quiet s P E) (hQ : ∀ t, P t → Q t)
  (hcall : ∀ index, s.nextCallee? = some index →
    Triple (fun t => P t ∧ t.dictionary = s.dictionary) (call index) (fun _ => Q) F)
  (hF : s.nextCallee? = none → ∀ e t, E e t → F e t)
include hP hQ hcall hF

theorem triple_runInstruction {f : CallFrame} (hf : s.frame = some f)
    (hleave : s.nextCallee? = none → ∀ location, Triple (· = { s with
      frame := some { f with next := f.next + 1 }, location }) (leaveWord f) (fun _ => Q) F) :
    Triple (· = s) (runInstruction f) (fun _ => Q) F := by
  have hnext := Session.nextCallee?_of_frame hf
  rintro t rfl
  cases hx : f.code[f.next]? with
  | none =>
    unfold runInstruction
    rw [hx]
    exact hF (by rw [hnext, hx, Option.bind_none]) _ _ (hP.ranOff hf)
  | some x =>
    rw [hx, Option.bind_some] at hnext
    rw [Session.runInstruction_eq hx]
    cases hc : x.op.callee? f.word with
    | some index =>
      rw [runOp_of_callee? hc]
      exact hcall index (hnext.trans hc) _ ⟨hP.advance _ hf, rfl⟩
    | none =>
      by_cases hop : x.op = .exit
      · rw [hop]
        exact hleave (hnext.trans hc) _ _ rfl
      · exact (((hP.runOp hf hc hop).weaken (hF (hnext.trans hc))).mono (fun _ h => h)
          fun _ => hQ) _ (hP.advance _ hf)

theorem triple_operation
    (hsources : ∀ (t : Session) (sources : List Pending), Q t → Q { t with sources })
    (hleave : ∀ f, s.frame = some f → s.nextCallee? = none → ∀ location, Triple (· = { s with
      frame := some { f with next := f.next + 1 }, location }) (leaveWord f) (fun _ => Q) F) :
    Triple (· = s) operation (fun _ => Q) F := by
  refine Triple.get_bind ?_
  rintro u rfl
  cases hf : u.frame with
  | some f => exact hP.triple_runInstruction hQ hcall hF hf (hleave f hf)
  | none =>
    rintro t rfl
    have hnext : t.nextCallee? =
        (t.sources.head?.bind (·.nextToken?)).bind fun (token, _) => t.tokenCallee? token := by
      rw [Session.nextCallee?, hf]
    dsimp only
    rw [bind_apply, nextToken?]
    cases hsrc : t.sources with
    | nil => exact hQ _ hP.start
    | cons source rest =>
      cases htoken : source.nextToken? with
      | none =>
        simp only [htoken]
        exact hQ _ hP.start
      | some found =>
        obtain ⟨token, behind⟩ := found
        have hcompiling : Session.isCompiling { t with sources := behind :: rest } =
            t.isCompiling := by
          rw [Session.isCompiling, Session.isCompiling, Session.definition?_of_sources rfl,
            Session.definition?_of_sources hsrc, Pending.definition_of_nextToken? htoken]
        have hcallee : t.nextCallee? =
            Session.tokenCallee? { t with sources := behind :: rest } token := by
          rw [hnext, hsrc, List.head?_cons, Option.bind_some, htoken, Option.bind_some]
          show t.tokenCallee? token = _
          rw [Session.tokenCallee?, Session.tokenCallee?, hcompiling]
        simp only [htoken]
        exact hP.toDetached.triple_runToken (u := { t with sources := behind :: rest })
          (hP.setSources hP.start _) hQ (fun index hi => hcall index (hcallee.trans hi))
          (fun hn => hF (hcallee.trans hn)) hsources _ rfl

end Quiet

end

end Action

end StackLang
