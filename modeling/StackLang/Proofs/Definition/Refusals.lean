import StackLang.Proofs.Definition.Operations

/-!
# What is refused leaves no trace

A step of building looks at the open structures before it changes anything.  `REPEAT` alone looks
twice, and takes the `WHILE` in between; what it finds there is always the `BEGIN`, since a `WHILE`
is only accepted directly inside of one, and nothing is ever put between the two.  So a definition
stands after a refusal as it stood before, whatever has been done to it.

* `Settles`: an edit keeps every `WHILE` on its `BEGIN`, or is refused with nothing changed.
* `settles_compileStep`, `settles_finish`: all of them do.
* `behindAll_of_refused`: what is refused may be left out.
-/

namespace StackLang

theorem Construct.Paired.tail {c : Construct} {rest : List Construct}
    (h : Construct.Paired (c :: rest)) : Construct.Paired rest := by
  cases c with
  | whileExit branch => exact h.2
  | _ => exact h

namespace Definition

/-- Every `WHILE` stays on its `BEGIN` if the edit is accepted; if not, nothing is changed. -/
def Settles {α : Type} (d : Definition) : EStateM.Result Cause Definition α → Prop
  | .ok _ d' => Construct.Paired d'.control
  | .error _ d' => d' = d

theorem Settles.map {α β : Type} {d : Definition} {p : Edit α} (f : α → β) (h : Settles d (p d)) :
    Settles d ((f <$> p) d) := by
  show Settles d (EStateM.map f p d)
  unfold EStateM.map
  cases hp : p d with
  | ok a d' =>
    rw [hp] at h
    exact h
  | error c d' =>
    rw [hp] at h
    exact h

section

variable {d : Definition} (h : Construct.Paired d.control) (l : Option Location)
include h

/-- What is below the innermost structure is paired without it. -/
theorem paired_rest {c : Construct} {rest : List Construct} (hc : d.control = c :: rest) :
    Construct.Paired rest :=
  Construct.Paired.tail (hc ▸ h)

theorem settles_emit (op : Op) : Settles d (emit l op d) :=
  h

theorem settles_compileElse : Settles d (compileElse l d) := by
  rw [compileElse_eq]
  split
  · rename_i branch rest hc
    exact (paired_rest h hc : Construct.Paired rest)
  · rfl
  · rfl

theorem settles_compileThen : Settles d (compileThen d) := by
  rw [compileThen_eq]
  split
  · rename_i hc
    exact paired_rest h hc
  · rename_i hc
    exact paired_rest h hc
  · rfl
  · rfl

theorem settles_compileUntil : Settles d (compileUntil l d) := by
  rw [compileUntil_eq]
  split
  · rename_i hc
    exact paired_rest h hc
  · rfl
  · rfl

theorem settles_compileAgain : Settles d (compileAgain l d) := by
  rw [compileAgain_eq]
  split
  · rename_i hc
    exact paired_rest h hc
  · rfl
  · rfl

/-- The only way to open a `WHILE` is on top of a `BEGIN`. -/
theorem settles_compileWhile : Settles d (compileWhile l d) := by
  rw [compileWhile_eq]
  split
  · rename_i start rest hc
    exact ⟨⟨start, rest, rfl⟩, hc ▸ h⟩
  · rfl
  · rfl

/-- The structure below an accepted `WHILE` is never the wrong one. -/
theorem settles_compileRepeat : Settles d (compileRepeat l d) := by
  rw [compileRepeat_eq]
  split
  · rename_i hc
    exact (paired_rest h hc).tail
  · rename_i branch c rest hne hc
    obtain ⟨⟨start, outer, hbegin⟩, -⟩ : Construct.Paired (.whileExit branch :: c :: rest) := hc ▸ h
    cases hbegin
    exact (hne start rfl).elim
  · rename_i branch hc
    obtain ⟨⟨start, outer, hbegin⟩, -⟩ : Construct.Paired [.whileExit branch] := hc ▸ h
    cases hbegin
  · rfl
  · rfl

theorem settles_compileLoop (plus : Bool) : Settles d (compileLoop l plus d) := by
  rw [compileLoop_eq]
  split
  · rename_i hc
    exact paired_rest h hc
  · rfl
  · rfl

/-- A `LEAVE` is noted in its loop, however deep that lies, and moves no structure. -/
theorem settles_compileLeave : Settles d (compileLeave l d) := by
  rw [compileLeave_eq]
  split
  · rename_i control ha
    obtain ⟨-, -, -, hp⟩ := addLeave?_eq_some ha
    exact hp h
  · rfl

theorem settles_compileUnloop : Settles d (compileUnloop l d) := by
  rw [compileUnloop_eq]
  split
  · rfl
  · exact h

theorem settles_compileLoopIndex (word : String) (depth : Nat) :
    Settles d (compileLoopIndex l word depth d) := by
  rw [compileLoopIndex_eq]
  split
  · rfl
  · exact h

theorem settles_compileStep (w : ControlWord) : Settles d (w.compileStep l d) := by
  cases w with
  | openIf | openBegin | openDo | openQueryDo => exact h
  | openElse => exact settles_compileElse h l
  | closeThen => exact settles_compileThen h
  | closeUntil => exact settles_compileUntil h l
  | closeAgain => exact settles_compileAgain h l
  | openWhile => exact settles_compileWhile h l
  | closeRepeat => exact settles_compileRepeat h l
  | closeLoop => exact settles_compileLoop h l false
  | closePlusLoop => exact settles_compileLoop h l true
  | index => exact settles_compileLoopIndex h l "I" 0
  | outerIndex => exact settles_compileLoopIndex h l "J" 1
  | leave => exact settles_compileLeave h l
  | unloop => exact settles_compileUnloop h l
  | exit | recurse => exact h

/-- Also where a branch that was appended from outside turns out to be astray. -/
theorem settles_finish : Settles d (finish d) := by
  rw [finish_eq]
  split
  · rfl
  · split <;> exact h

end

/-! ## Any sequence of requests -/

/-- What may be asked of a definition: any of the operations, or to append an instruction as it
is, with whatever target it has. -/
inductive Attempt where
  | operation (o : Operation)
  | append (l : Option Location) (op : Op)

namespace Attempt

/-- The answer is the finished code, where it is asked for. -/
def edit : Attempt → Edit (Option (Except Breach Code))
  | operation .finish => some <$> Definition.finish
  | operation o => (fun _ => none) <$> o.edit
  | append l op => (fun _ => none) <$> Definition.emit l op

/-- The definition behind a request, whether it was accepted or not. -/
def behind (a : Attempt) (d : Definition) : Definition :=
  match a.edit d with
  | .ok _ d' => d'
  | .error _ d' => d'

/-- The definition behind some requests. -/
def behindAll : List Attempt → Definition → Definition
  | [], d => d
  | a :: as, d => behindAll as (a.behind d)

/-- The code that is handed over, or the complaint. -/
def answer (a : Attempt) (d : Definition) : Except Cause (Option (Except Breach Code)) :=
  match a.edit d with
  | .ok code _ => .ok code
  | .error c _ => .error c

/-- The answers to some requests, each made to the definition behind those before it. -/
def answers : List Attempt → Definition → List (Except Cause (Option (Except Breach Code)))
  | [], _ => []
  | a :: as, d => a.answer d :: answers as (a.behind d)

theorem behindAll_append (as bs : List Attempt) (d : Definition) :
    behindAll (as ++ bs) d = behindAll bs (behindAll as d) := by
  induction as generalizing d with
  | nil => rfl
  | cons a as ih => exact ih (a.behind d)

theorem settles_edit (a : Attempt) {d : Definition} (h : Construct.Paired d.control) :
    Settles d (a.edit d) := by
  cases a with
  | append l op => exact .map _ (settles_emit h l op)
  | operation o =>
    cases o with
    | control l w => exact .map _ (settles_compileStep h l w)
    | loopIndex l word depth => exact .map _ (settles_compileLoopIndex h l word depth)
    | emit l op _ => exact .map _ (settles_emit h l op)
    | record token => exact h
    | finish => exact .map _ (settles_finish h)

theorem paired_behind (a : Attempt) {d : Definition} (h : Construct.Paired d.control) :
    Construct.Paired (a.behind d).control := by
  have hs := settles_edit a h
  unfold behind
  cases hr : a.edit d with
  | ok code d' =>
    rw [hr] at hs
    exact hs
  | error c d' =>
    rw [hr] at hs
    exact hs.symm ▸ h

/-- Every `WHILE` is on its `BEGIN` at any time. -/
theorem paired_behindAll (as : List Attempt) {d : Definition} (h : Construct.Paired d.control) :
    Construct.Paired (behindAll as d).control := by
  induction as generalizing d with
  | nil => exact h
  | cons a as ih => exact ih (paired_behind a h)

/-- What is refused changes nothing: code, open structures and recorded tokens are as they were,
and whatever is asked for from there on gets the answers that it would have got without it. -/
theorem behindAll_of_refused (word : Nat) (name : String) (location : Location)
    (before more : List Attempt) (a : Attempt) {c : Cause} {d' : Definition}
    (hrefused : a.edit (behindAll before (opened word name location)) = .error c d') :
    let d := behindAll before (opened word name location)
    d' = d ∧
      answers (a :: more) d = .error c :: answers more d ∧
      behindAll (before ++ a :: more) (opened word name location) =
        behindAll (before ++ more) (opened word name location) := by
  intro d
  have hpaired : Construct.Paired d.control :=
    paired_behindAll before (show Construct.Paired (opened word name location).control from trivial)
  have hsame : d' = d := by
    have hs := settles_edit a hpaired
    rwa [hrefused] at hs
  have hbehind : a.behind d = d := by
    unfold behind
    rw [hrefused]
    exact hsame
  have hanswer : a.answer d = .error c := by
    unfold answer
    rw [hrefused]
  refine ⟨hsame, ?_, ?_⟩
  · rw [answers, hanswer, hbehind]
  · rw [behindAll_append, behindAll_append, behindAll, hbehind]

/-- `REPEAT` is refused while the `IF` inside of the loop is open; once that is closed, the loop
and the definition are closed as if nothing had been refused. -/
theorem behindAll_of_refused_repeat :
    let before : List Attempt := [.operation (.control none .openBegin),
      .operation (.control none .openWhile), .operation (.control none .openIf)]
    let again : Attempt := .operation (.control none .closeRepeat)
    let more : List Attempt :=
      [.operation (.control none .closeThen), again, .operation .finish]
    let d := behindAll before (opened 98 "W" ⟨"", 1, 1⟩)
    again.edit d = .error (.unmatched "IF" "THEN") d ∧
      answers (again :: more) d = .error (.unmatched "IF" "THEN") ::
        [.ok none, .ok none, .ok (some (.ok #[⟨none, .branchIfFalse (some 3)⟩,
          ⟨none, .branchIfFalse (some 2)⟩, ⟨none, .branch (some 0)⟩, ⟨none, .exit⟩]))] := by
  refine ⟨rfl, ?_⟩
  exact (behindAll_of_refused 98 "W" ⟨"", 1, 1⟩ _ _ _ rfl).2.1

end Attempt

end Definition

end StackLang
