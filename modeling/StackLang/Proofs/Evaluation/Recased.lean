import StackLang.Proofs.Blur.Runs
import StackLang.Proofs.Evaluation.Queue
import StackLang.Proofs.Token.Recased

/-!
# Letter case makes no difference

Two sources that differ in the letter case of words, numbers and the words that open literals lead
to the same end.  What tells them apart afterwards is the source that the dictionary keeps of the
definitions that were made, and the name in the error about an unknown word; both are the same once
they are put in capitals.

* `EndAlike`: the results of two runs, the same but for that.
* `endAlike_of_recased`: sources in another letter case are evaluated alike, at once or stepwise.
-/

namespace StackLang

/-! ## Capitals -/

def Origin.inCapitals : Origin → Origin
  | .colon source => .colon (source.map Char.toUpper)
  | origin => origin

/-- The entry with the source that it keeps of its definition in capitals. -/
def Entry.inCapitals (e : Entry) : Entry :=
  { e with origin := e.origin.map Origin.inCapitals }

def Dictionary.inCapitals (d : Dictionary) : Dictionary :=
  ⟨d.entries.map Entry.inCapitals⟩

def Cause.inCapitals : Cause → Cause
  | .unknownWord name suggestions => .unknownWord (name.map Char.toUpper) suggestions
  | cause => cause

/-- The error with the name of an unknown word in capitals. -/
def ScriptError.inCapitals (e : ScriptError) : ScriptError :=
  { e with cause := e.cause.inCapitals }

def Fault.inCapitals : Fault → Fault
  | .script e => .script e.inCapitals
  | f => f

def Visible.inCapitals (v : Visible) : Visible :=
  { v with dictionary := v.dictionary.inCapitals }

namespace Blur

theorem map_letters_place (l : Option Location) : l.map letters.place = l := by
  cases l <;> rfl

theorem letters_code (c : Code) : letters.code c = c := by
  have hx : letters.instruction = id := funext fun x => by
    simp only [instruction, map_letters_place, id]
  rw [code, hx, Array.map_id]

theorem letters_returns (r : ReturnStack) : letters.returns r = r := by
  have hframe : letters.frame = id := funext fun f => by
    simp only [frame, letters_code, id]
  have hitem : letters.item = id := funext fun i => by
    cases i with
    | value | loop => rfl
    | call caller => simp only [item, hframe, Option.map_id_fun, id]
  simp only [returns, hitem, List.map_id_fun, id]

theorem letters_dictionary (d : Dictionary) : letters.dictionary d = d.inCapitals := by
  have horigin : letters.origin = Origin.inCapitals := funext fun o => by
    cases o <;> rfl
  have hbody (x : Body) : letters.body x = x := by
    cases x with
    | builtin w => rfl
    | compiled c => exact congrArg Body.compiled (letters_code c)
  have hentry : letters.entry = Entry.inCapitals := funext fun e => by
    simp only [entry, Entry.inCapitals, horigin, hbody, map_letters_place]
  rw [dictionary, Dictionary.inCapitals, hentry]

theorem letters_fault (f : Fault) : letters.fault f = f.inCapitals := by
  cases f with
  | breach | outOfFuel => rfl
  | script e =>
    have hcause : letters.cause e.cause = e.cause.inCapitals := by
      cases e.cause <;> rfl
    have hitem : letters.callItem = id := rfl
    simp only [fault, error, Fault.inCapitals, ScriptError.inCapitals, hcause, hitem,
      map_letters_place, List.map_id_fun, id]
    cases e.calls <;> rfl

end Blur

theorem Near.visible {s t : Session} (h : Near .letters [] s t) :
    t.visible.inCapitals = s.visible.inCapitals := by
  have hr := h.returns
  have hd := h.dictionary
  rw [Blur.letters_returns, Blur.letters_returns] at hr
  rw [Blur.letters_dictionary, Blur.letters_dictionary] at hd
  simp only [Visible.inCapitals, Session.visible, h.stack, hr, hd, h.cells, h.output]

namespace Blur

open Action

variable {b : Blur}

/-! ## Single steps -/

theorem tracks_stepOnce : b.Tracks [] Eq stepOnce stepOnce := by
  refine Tracks.view fun s t h => ?_
  rw [h.hasPending]
  split
  · refine (tracks_checked tracks_step).bindSame fun _ => Tracks.view fun s t h => ?_
    exact Tracks.pure h.hasPending.symm
  · exact Tracks.pure rfl

theorem tracks_stepUntilDone (fuel : Nat) :
    b.Tracks [] Eq (stepUntilDone fuel) (stepUntilDone fuel) := by
  induction fuel with
  | zero => exact fun s t h => .error rfl h
  | succ fuel ih =>
    refine tracks_stepOnce.bindSame fun more => ?_
    split
    · exact ih
    · exact Tracks.pure rfl

end Blur

namespace Action

open Blur

/-- The runs have the same success or failure, and leave the same, but for the letter case of the
sources that the dictionary keeps and of the name of an unknown word.  If one of them runs out of
fuel, the other one does so, too. -/
inductive EndAlike :
    EStateM.Result Fault Session Unit → EStateM.Result Fault Session Unit → Prop where
  | ok {s t : Session} (h : t.visible.inCapitals = s.visible.inCapitals) :
    EndAlike (.ok () s) (.ok () t)
  | error {f f' : Fault} {s t : Session} (hf : f'.inCapitals = f.inCapitals)
    (h : t.visible.inCapitals = s.visible.inCapitals) : EndAlike (.error f s) (.error f' t)

theorem endAlike_of_matches {r r' : EStateM.Result Fault Session Unit}
    (h : letters.Matches [] Eq r r') : EndAlike r r' := by
  cases h with
  | ok _ h => exact .ok h.visible
  | lost hm => exact (hm rfl).elim
  | error hf h =>
    rw [letters_fault, letters_fault] at hf
    exact .error hf h.visible

/-- From the same session, sources that differ in the letter case of words, of numbers and of the
words that open literals are evaluated alike, at once or step by step. -/
theorem endAlike_of_recased {source source' : String} (h : Recased source source') (s : Session)
    (fuel : Nat) :
    EndAlike (evaluate fuel source s) (evaluate fuel source' s) ∧
      EndAlike (evaluateStepwise source fuel s) (evaluateStepwise source' fuel s) := by
  have hevaluate : letters.Tracks [] Eq (evaluate fuel source) (evaluate fuel source') :=
    tracks_processSource (h.map_token_ofSource inputPath) fuel
  have hstepwise : letters.Tracks [] Eq (evaluateStepwise source fuel)
      (evaluateStepwise source' fuel) :=
    hevaluate.bindSame fun _ => tracks_stepUntilDone fuel
  exact ⟨endAlike_of_matches (hevaluate s s (.refl _ s)),
    endAlike_of_matches (hstepwise s s (.refl _ s))⟩

/-- A definition, a call of it, a hexadecimal number and a text. -/
def squareSource : String :=
  ": Sq dup * ; 0x1f sQ s\" Hi\""

/-- The same in other letters.  The text stays as it is. -/
def squareSource' : String :=
  ": sq DUP * ; 0X1F SQ S\" Hi\""

/-- The pieces of these sources. -/
def squarePieces (name double number call opening : String) : List Piece :=
  [.word [':'], .blank ' ', .word name.toList, .blank ' ', .word double.toList, .blank ' ',
    .word ['*'], .blank ' ', .word [';'], .blank ' ', .word number.toList, .blank ' ',
    .word call.toList, .blank ' ', .literal .push opening.toList true ['H', 'i'] true]

theorem recased_square : Recased squareSource squareSource' := by
  refine ⟨squarePieces "Sq" "dup" "0x1f" "sQ" "s\"", squarePieces "sq" "DUP" "0X1F" "SQ" "S\"",
    by decide +kernel, rfl, rfl, ?_⟩
  simp only [squarePieces, List.forall₂_cons]
  exact ⟨.same _, .same _, .word rfl, .same _, .word rfl, .same _, .same _, .same _, .same _,
    .same _, .word rfl, .same _, .word rfl, .same _, .literal (by rfl) _ _ _ _, .nil⟩

theorem stackOf?_square :
    stackOf? (evaluate 16 squareSource (Session.ofConfig .standard)) =
      some [.int 2, .string "Hi", .int 961] := by
  rw [Session.evaluate_of_run (fun h => by cases h), squareSource,
    Pending.ofSource_eq 40 (by decide)]
  decide +kernel

theorem endAlike_of_recased_square :
    let s := Session.ofConfig .standard
    Recased squareSource squareSource' ∧
      EndAlike (evaluate 16 squareSource s) (evaluate 16 squareSource' s) ∧
      EndAlike (evaluateStepwise squareSource 16 s) (evaluateStepwise squareSource' 16 s) ∧
      stackOf? (evaluate 16 squareSource s) = some [.int 2, .string "Hi", .int 961] := by
  intro s
  obtain ⟨hevaluate, hstepwise⟩ := endAlike_of_recased recased_square s 16
  exact ⟨recased_square, hevaluate, hstepwise, stackOf?_square⟩

end Action

end StackLang
