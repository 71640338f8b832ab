import StackLang.Fault
import StackLang.Text.Uppercase

/-!
# Definitions under construction

A colon definition while it is being built: the code so far, the control structures that are open,
and the tokens of the body as they were written.  A control word emits a branch whose destination
is patched when the structure is closed; a structure can only be closed while it is the innermost
one, with one exception: `LEAVE` belongs to the innermost counted loop, however many other
structures lie in between.

* `emit_eq`, `patch_eq`: what emitting and patching do to the code.
* `popMatching_of_accept`, `popMatching_of_refuse`: a closing word takes the innermost structure,
  or changes nothing.
-/

namespace StackLang

/-- A control structure that is open, with the instruction to patch or to go back to. -/
inductive Construct where
  /-- `IF`, with its branch past the first arm. -/
  | ifArm (branch : Nat)
  /-- `ELSE`, with its branch past the second arm. -/
  | elseArm (branch : Nat)
  /-- `BEGIN`, with the first instruction of the loop. -/
  | loopHead (start : Nat)
  /-- `WHILE`, with its branch out of the loop. -/
  | whileExit (branch : Nat)
  /-- `DO` or `?DO`, with its own instruction and those of its `LEAVE`s. -/
  | counted (marker : Nat) (leaves : List Nat)
deriving Repr, DecidableEq

namespace Construct

/-- The word that opened the structure. -/
def opener : Construct → String
  | ifArm _ => "IF"
  | elseArm _ => "ELSE"
  | loopHead _ => "BEGIN"
  | whileExit _ => "WHILE"
  | counted _ _ => "DO"

/-- The word that would close it. -/
def closer : Construct → String
  | ifArm _ | elseArm _ => "THEN"
  | loopHead _ => "UNTIL"
  | whileExit _ => "REPEAT"
  | counted _ _ => "LOOP"

/-- The complaint about a structure that is in the way. -/
def unclosed (c : Construct) : Cause :=
  .unmatched c.opener c.closer

def isCounted : Construct → Bool
  | counted _ _ => true
  | _ => false

def ifBranch? : Construct → Option Nat
  | ifArm branch => some branch
  | _ => none

/-- The branch that `THEN` patches. -/
def armBranch? : Construct → Option Nat
  | ifArm branch | elseArm branch => some branch
  | _ => none

def start? : Construct → Option Nat
  | loopHead start => some start
  | _ => none

def whileBranch? : Construct → Option Nat
  | whileExit branch => some branch
  | _ => none

def counted? : Construct → Option (Nat × List Nat)
  | counted marker leaves => some (marker, leaves)
  | _ => none

end Construct

structure Definition where
  /-- The index of the reserved dictionary entry. -/
  word : Nat
  name : String
  /-- Where the name stands in the source. -/
  location : Location
  code : Code
  /-- The open control structures, the innermost first. -/
  control : List Construct
  /-- The tokens of the body as they were written. -/
  recorded : Array String
deriving DecidableEq

namespace Definition

/-- An empty definition. -/
def opened (word : Nat) (name : String) (location : Location) : Definition :=
  ⟨word, Text.uppercase name, location, #[], [], #[]⟩

/-- The index of the next instruction. -/
def here (d : Definition) : Nat :=
  d.code.size

/-- The number of counted loops around the next instruction. -/
def loopDepth (d : Definition) : Nat :=
  d.control.countP Construct.isCounted

/-- Keep a token of the body as it was written. -/
def record (d : Definition) (token : String) : Definition :=
  { d with recorded := d.recorded.push token }

/-- The tokens of the body with a space between them. -/
def source (d : Definition) : String :=
  " ".intercalate d.recorded.toList

/-- The complaint about a definition that the end of its source leaves open. -/
def unclosed (d : Definition) : Cause :=
  match d.control with
  | c :: _ => c.unclosed
  | [] => .unmatched ":" ";"

/-- A step of building a definition.  A step that is refused gives the cause. -/
abbrev Edit := EStateM Cause Definition

/-- Append an instruction and give its index. -/
def emit (location : Option Location) (op : Op) : Edit Nat :=
  modifyGet fun d => (d.code.size, { d with code := d.code.push ⟨location, op⟩ })

/-- Change the operation of an instruction. -/
def changeOp (index : Nat) (f : Op → Op) : Edit Unit :=
  modify fun d => { d with code := d.code.modify index fun i => { i with op := f i.op } }

/-- Give a branch its destination. -/
def patch (target index : Nat) : Edit Unit :=
  changeOp index (Op.setTarget (some target))

/-- Open a control structure. -/
def openConstruct (c : Construct) : Edit Unit :=
  modify fun d => { d with control := c :: d.control }

/-- Close the innermost control structure if `accept` takes it.  Otherwise complain about it, or
about the closing word when nothing is open. -/
def popMatching {α : Type} (closer wanted : String) (accept : Construct → Option α) : Edit α :=
  fun d =>
    match d.control with
    | [] => .error (.unmatched closer wanted) d
    | c :: rest =>
      match accept c with
      | some a => .ok a { d with control := rest }
      | none => .error c.unclosed d

/-! ## The control words -/

def compileIf (location : Option Location) : Edit Unit := do
  let branch ← emit location (.branchIfFalse none)
  openConstruct (.ifArm branch)

def compileElse (location : Option Location) : Edit Unit := do
  let skipped ← popMatching "ELSE" "IF" Construct.ifBranch?
  let branch ← emit location (.branch none)
  patch (branch + 1) skipped
  openConstruct (.elseArm branch)

def compileThen : Edit Unit := do
  let branch ← popMatching "THEN" "IF" Construct.armBranch?
  patch (← get).here branch

def compileBegin : Edit Unit := do
  openConstruct (.loopHead (← get).here)

def compileUntil (location : Option Location) : Edit Unit := do
  let start ← popMatching "UNTIL" "BEGIN" Construct.start?
  discard (emit location (.branchIfFalse (some start)))

def compileAgain (location : Option Location) : Edit Unit := do
  let start ← popMatching "AGAIN" "BEGIN" Construct.start?
  discard (emit location (.branch (some start)))

/-- `WHILE` must stand directly inside its `BEGIN`, which stays open below it. -/
def compileWhile (location : Option Location) : Edit Unit := do
  match (← get).control with
  | [] => throw (.unmatched "WHILE" "BEGIN")
  | c :: _ =>
    if c.start?.isNone then throw c.unclosed
    let branch ← emit location (.branchIfFalse none)
    openConstruct (.whileExit branch)

def compileRepeat (location : Option Location) : Edit Unit := do
  let branch ← popMatching "REPEAT" "WHILE" Construct.whileBranch?
  let start ← popMatching "REPEAT" "BEGIN" Construct.start?
  let back ← emit location (.branch (some start))
  patch (back + 1) branch

/-- Open a counted loop, which is skipped for equal bounds if `query` is set.  Its direction and
its end are filled in when it is closed. -/
def compileDo (location : Option Location) (query : Bool) : Edit Unit := do
  let kind := if query then LoopKind.startUnlessEqual .unknown else .start .unknown
  let marker ← emit location (.loop kind none)
  openConstruct (.counted marker [])

/-- The direction of a loop that `+LOOP` is about to close: that of the literal right before it.  A
literal from before the loop does not count. -/
def stepDirection (d : Definition) (marker : Nat) : LoopDirection :=
  match d.code.back? with
  | some ⟨_, .push step⟩ =>
    if d.code.size - 1 > marker then
      match step.int? with
      | some n => if n < 0 then .descending else .ascending
      | none => .unknown
    else .unknown
  | _ => .unknown

/-- The opening operation of a loop whose direction and end are known. -/
def settleLoop (direction : LoopDirection) (behind : Nat) : Op → Op
  | .loop (.startUnlessEqual _) _ => .loop (.startUnlessEqual direction) (some behind)
  | _ => .loop (.start direction) (some behind)

/-- Close a counted loop, with `+LOOP` if `plus` is set. -/
def compileLoop (location : Option Location) (plus : Bool) : Edit Unit := do
  let (marker, leaves) ← popMatching (if plus then "+LOOP" else "LOOP") "DO" Construct.counted?
  let d ← get
  let direction := if plus then d.stepDirection marker else .ascending
  let back ← emit location (.loop (if plus then .nextBy else .next) (some (marker + 1)))
  changeOp marker (settleLoop direction (back + 1))
  leaves.forM (patch (back + 1))

/-- The open structures with one more `LEAVE` in the innermost counted loop, if there is one. -/
def addLeave? (leave : Nat) : List Construct → Option (List Construct)
  | [] => none
  | .counted marker leaves :: rest => some (.counted marker (leave :: leaves) :: rest)
  | c :: rest => (addLeave? leave rest).map (c :: ·)

def compileLeave (location : Option Location) : Edit Unit := do
  let d ← get
  match addLeave? d.here d.control with
  | none => throw (.unmatched "LEAVE" "DO")
  | some control =>
    discard (emit location (.loop .leave none))
    modify ({ · with control })

def compileUnloop (location : Option Location) : Edit Unit := do
  if (← get).loopDepth = 0 then throw (.unmatched "UNLOOP" "DO")
  discard (emit location (.loop .unloop (some 0)))

/-- The word for the index of the loop `depth` loops further out needs that many loops around it,
and one more. -/
def compileLoopIndex (location : Option Location) (word : String) (depth : Nat) : Edit Unit := do
  if (← get).loopDepth ≤ depth then throw (.unmatched word "DO")
  discard (emit location (.loopIndex depth))

/-! ## Finishing -/

/-- The first instruction with a branch that leaves the code, and its target. -/
def strayTarget? (code : Code) : Option (Nat × Target) :=
  code.toList.zipIdx.findSome? fun (instruction, index) =>
    match instruction.op.target? with
    | some (some target) => if target < code.size then none else some (index, some target)
    | some none => some (index, none)
    | none => none

/-- Close the definition: every structure must be closed, and a final exit is appended.  The
finished code is handed over; it is a breach if one of its branches leaves it. -/
def finish : Edit (Except Breach Code) := do
  match (← get).control with
  | c :: _ => throw c.unclosed
  | [] =>
    discard (emit none .exit)
    let d ← get
    match strayTarget? d.code with
    | some (index, target) => return .error (.strayTarget d.name index target)
    | none =>
      set { d with code := #[] }
      return .ok d.code

/-! ## What the steps do -/

theorem emit_eq (location : Option Location) (op : Op) (d : Definition) :
    emit location op d =
      .ok d.code.size { d with code := d.code.push ⟨location, op⟩ } := rfl

theorem patch_eq (target index : Nat) (d : Definition) :
    patch target index d = .ok () { d with
      code := d.code.modify index fun i => { i with op := i.op.setTarget (some target) } } := rfl

theorem popMatching_of_accept {α : Type} {closer wanted : String} {accept : Construct → Option α}
    {d : Definition} {c : Construct} {rest : List Construct} {a : α}
    (hd : d.control = c :: rest) (ha : accept c = some a) :
    popMatching closer wanted accept d = .ok a { d with control := rest } := by
  simp [popMatching, hd, ha]

theorem popMatching_of_refuse {α : Type} {closer wanted : String} {accept : Construct → Option α}
    {d : Definition} {c : Construct} {rest : List Construct}
    (hd : d.control = c :: rest) (ha : accept c = none) :
    popMatching closer wanted accept d = .error c.unclosed d := by
  simp [popMatching, hd, ha]

end Definition

end StackLang
