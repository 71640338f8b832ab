import StackLang.Proofs.Definition.Edits
import StackLang.Proofs.Framework.Triple

/-!
# What definitions do not take away

A property that depends neither on the words and cells of a session nor on its sources is kept by
every built-in word, those that compile and define included.  The errors of built-in words are
raised at the place and in the name of the session they run in, and the only rule of the machine
that one of them checks is that a finished body has no stray branch.

* `Detached`: such a property, with what a failure leaves.
* `Detached.triple_builtin`: every built-in word keeps it.
* `Detached.triple_literal`, `Detached.triple_stringLiteral`: so do the tokens that are no words.
* `Indifferent`: a property that does not depend on what the observers have been told, either.
-/

namespace StackLang.Action

/-- `P` does not depend on the words, cells and sources either, nor on the place. -/
structure Detached (P : Session → Prop) (E : Fault → Session → Prop) : Prop
    extends Resilient P E where
  apart : ∀ {s : Session} (location : Option Location) (stack : DataStack)
    (dictionary : Dictionary) (cells : CellStore) (sources : List Pending), P s →
      P { s with location, stack, dictionary, cells, sources }
  stray : ∀ {s : Session} (word : String) (index : Nat) (target : Target), P s →
    E (.breach (.strayTarget word index target)) s

/-- The property does not depend on what the observers have been told, either. -/
structure Indifferent (P : Session → Prop) (E : Fault → Session → Prop) : Prop
    extends Detached P E, Insensitive P E where

namespace Detached

variable {α : Type} {P : Session → Prop} {E : Fault → Session → Prop} (hP : Detached P E)
include hP

/-! ## The open definition -/

theorem setDictionary {s : Session} (h : P s) (dictionary : Dictionary) :
    P { s with dictionary } :=
  hP.apart s.location s.stack dictionary s.cells s.sources h

theorem setSources {s : Session} (h : P s) (sources : List Pending) : P { s with sources } :=
  hP.apart s.location s.stack s.dictionary s.cells sources h

theorem triple_modifyDictionary (f : Session → Dictionary) :
    Triple P (modify fun s => { s with dictionary := f s }) (fun _ => P) E :=
  Triple.modify fun _ h => hP.setDictionary h _

theorem triple_setDefinition (new : Option Definition) :
    Triple P (setDefinition new) (fun _ => P) E := by
  refine Triple.modify fun s h => ?_
  split
  · exact hP.setSources h _
  · exact h

theorem triple_currentSource : Triple P (discard currentSource) (fun _ => P) E := by
  refine Triple.discard fun s h => ?_
  unfold currentSource
  cases s.sources with
  | nil => exact hP.fails _ h
  | cons source rest => exact h

theorem triple_currentDefinition : Triple P currentDefinition (fun _ => P) E := by
  intro s h
  unfold currentDefinition
  cases s.definition? with
  | none => exact hP.fails _ h
  | some d => exact h

/-- The result of an edit is one of the edit. -/
theorem triple_edit (p : Definition.Edit α) :
    Triple P (edit p) (fun a s => P s ∧ ∃ d d', p d = .ok a d') E := by
  refine hP.triple_currentDefinition.bind fun d => ?_
  cases hd : p d with
  | ok a d' =>
    exact (hP.triple_setDefinition _).bind fun _ => Triple.pure fun _ h => ⟨h, d, d', hd⟩
  | error cause d' =>
    exact (hP.triple_setDefinition _).bind fun _ => triple_raise fun _ h => hP.fails cause h

theorem triple_compile (location : Option Location) (op : Op) :
    Triple P (compile location op) (fun _ => P) E :=
  Triple.discard ((hP.triple_edit _).mono (fun _ h => h) fun _ _ h => h.1)

/-! ## Built-in words -/

theorem triple_control (w : ControlWord) : Triple P w.run (fun _ => P) E :=
  Triple.view fun _ => (hP.triple_edit _).mono (fun _ h => h) fun _ _ h => h.1

theorem triple_define (e : Entry) : Triple P (define e) (fun _ => P) E :=
  fun _ h => hP.setDictionary h _

theorem triple_openDefinition : Triple P DefiningWord.openDefinition (fun _ => P) E := by
  refine Triple.view fun s => ?_
  dsimp only
  split
  · exact triple_raise_bind fun _ h => hP.fails _ h
  · refine hP.triple_currentSource.bind fun _ => hP.triple_nextName.bind fun x => ?_
    refine (hP.triple_define _).bind fun index => ?_
    exact hP.triple_currentSource.bind fun _ => hP.triple_setDefinition _

theorem triple_closeDefinition : Triple P DefiningWord.closeDefinition (fun _ => P) E := by
  refine (hP.triple_edit _).bind fun r => ?_
  cases r with
  | error b =>
    rintro s ⟨h, d, d', hd⟩
    rw [Definition.finish_eq] at hd
    split at hd
    · cases hd
    · split at hd <;> cases hd
      exact hP.stray _ _ _ h
  | ok code =>
    refine Triple.mono (P := P) ?_ (fun _ h => h.1) fun _ _ h => h
    refine hP.triple_currentDefinition.bind fun d => ?_
    exact (hP.triple_setDefinition none).bind fun _ => hP.triple_modifyDictionary _

theorem triple_defining (w : DefiningWord) : Triple P w.run (fun _ => P) E := by
  cases w with
  | colon => exact hP.triple_openDefinition
  | semicolon => exact hP.triple_closeDefinition
  | constant =>
    refine (hP.triple_operands _).bind fun _ => hP.triple_nextName.bind fun x => ?_
    exact (hP.triple_operands _).bind fun v => Triple.discard (hP.triple_define _)
  | «variable» =>
    refine hP.triple_nextName.bind fun x => ?_
    exact (hP.triple_allot 1).bind fun address => Triple.discard (hP.triple_define _)
  | immediate =>
    refine Triple.view fun s => ?_
    split
    · exact Triple.modify fun _ h => hP.setDictionary h _
    · exact triple_raise fun _ h => hP.fails _ h
  | forget =>
    refine hP.triple_nextName.bind fun x => (hP.triple_lookup x.2).bind fun y => ?_
    dsimp only
    split
    · exact Triple.view fun s => triple_raise_bind fun _ h => hP.fails _ h
    · exact hP.triple_modifyDictionary _
  | reset => exact Triple.modify fun s h => hP.apart s.location [] _ _ s.sources h

/-- No built-in word takes the property away. -/
theorem triple_builtin (w : Builtin) : Triple P w.run (fun _ => P) E :=
  hP.triple_run hP.triple_defining hP.triple_control w

/-! ## Tokens -/

theorem triple_literal (location : Location) (v : Value) :
    Triple P (literal location v) (fun _ => P) E := by
  refine Triple.view fun s => ?_
  split
  · exact hP.triple_compile _ _
  · exact hP.triple_push v

theorem triple_stringLiteral (location : Location) (form : StringForm) (text : String) :
    Triple P (stringLiteral location form text) (fun _ => P) E := by
  cases form with
  | display => exact hP.triple_print text
  | push => exact (hP.triple_literal location _).bind fun _ => hP.triple_literal location _
  | print =>
    refine Triple.view fun s => ?_
    split
    · refine Triple.view fun t => ?_
      split
      · exact triple_raise fun _ h => hP.fails _ h
      · refine (hP.triple_compile _ _).bind fun _ => ?_
        exact (hP.triple_compile _ _).bind fun _ => hP.triple_compile _ _
    · exact hP.triple_print text

theorem triple_recordToken (token : Token) : Triple P (recordToken token) (fun _ => P) E := by
  refine Triple.view fun s => ?_
  split
  · exact hP.triple_setDefinition _
  · exact Triple.pure fun _ h => h

end Detached

theorem Indifferent.triple_finishWord {P : Session → Prop} {E : Fault → Session → Prop}
    (hP : Indifferent P E) (name : String) : Triple P (finishWord name) (fun _ => P) E := by
  refine Triple.view fun s => (hP.triple_notify _).bind fun _ => ?_
  split
  · exact hP.triple_notify _
  · exact Triple.pure fun _ h => h

end StackLang.Action
