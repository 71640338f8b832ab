/-!
# Built-in words

The words that every session starts with, by family, and what the dictionary says about each: its
name, a summary, its effect on the stack, and when it runs.

* `Builtin.mem_all`: the list of built-in words is complete.
* `Builtin.nodup_names`: no name is given twice.
-/

namespace StackLang

/-- Words that rearrange the data stack. -/
inductive StackWord where
  | dup | drop | swap | copySecond | rot | rotBack | nip | tuck | dupPair | dropPair | swapPair
  | overPair | depth | pick | roll | clear | dupNonzero
deriving Repr, DecidableEq

/-- Words that move values to the return stack and back. -/
inductive ReturnWord where
  | toReturn | fromReturn | copyReturn
deriving Repr, DecidableEq

/-- Arithmetic, comparison and bits. -/
inductive MathWord where
  | add | subtract | multiply | divide | mod | divMod | scale | negate | abs | min | max
  | increment | decrement | addTwo | subtractTwo | double | halve | equal | notEqual | less
  | greater | lessEqual | greaterEqual | zeroEqual | zeroLess | zeroGreater | zeroNotEqual | and
  | or | xor | invert | shiftLeft | shiftRight | pushTrue | pushFalse | not
deriving Repr, DecidableEq

/-- Words on memory cells. -/
inductive MemoryWord where
  | fetch | store | addTo | cells | allot | here
deriving Repr, DecidableEq

/-- Words that change the dictionary. -/
inductive DefiningWord where
  | colon | semicolon | constant | variable | immediate | forget | reset
deriving Repr, DecidableEq

/-- Words that build the body of a definition. -/
inductive ControlWord where
  | openIf | openElse | closeThen | openBegin | closeUntil | closeAgain | openWhile
  | closeRepeat | openDo | openQueryDo | closeLoop | closePlusLoop | index | outerIndex | leave
  | unloop | exit | recurse
deriving Repr, DecidableEq

/-- Words that print. -/
inductive OutputWord where
  | print | printStack | newLine | space | spaces | emit | type | words | see
deriving Repr, DecidableEq

inductive Builtin where
  | stack (w : StackWord)
  | returns (w : ReturnWord)
  | math (w : MathWord)
  | memory (w : MemoryWord)
  | defining (w : DefiningWord)
  | control (w : ControlWord)
  | output (w : OutputWord)
deriving Repr, DecidableEq

/-- When a word runs. -/
inductive Role where
  /-- When it is executed. -/
  | plain
  /-- Also while a definition is being compiled. -/
  | immediate
  /-- Only while a definition is being compiled. -/
  | compileOnly
deriving Repr, DecidableEq

/-- What the dictionary says about a word. -/
structure WordSpec where
  name : String
  summary : String
  signature : String
  role : Role

def StackWord.spec : StackWord → WordSpec
  | .dup => ⟨"DUP", "Duplicate the top of the stack.", "a -- a a", .plain⟩
  | .drop => ⟨"DROP", "Discard the top of the stack.", "a -- ", .plain⟩
  | .swap => ⟨"SWAP", "Exchange the top two values.", "a b -- b a", .plain⟩
  | .copySecond => ⟨"OVER", "Copy the second value to the top.", "a b -- a b a", .plain⟩
  | .rot => ⟨"ROT", "Rotate the third value to the top.", "a b c -- b c a", .plain⟩
  | .rotBack => ⟨"-ROT", "Rotate the top value to third place.", "a b c -- c a b", .plain⟩
  | .nip => ⟨"NIP", "Drop the second value.", "a b -- b", .plain⟩
  | .tuck => ⟨"TUCK", "Copy the top value below the second.", "a b -- b a b", .plain⟩
  | .dupPair => ⟨"2DUP", "Duplicate the top pair.", "a b -- a b a b", .plain⟩
  | .dropPair => ⟨"2DROP", "Drop the top pair.", "a b -- ", .plain⟩
  | .swapPair => ⟨"2SWAP", "Exchange the top two pairs.", "a b c d -- c d a b", .plain⟩
  | .overPair => ⟨"2OVER", "Copy the second pair to the top.", "a b c d -- a b c d a b", .plain⟩
  | .depth => ⟨"DEPTH", "Push the number of values on the stack.", " -- depth", .plain⟩
  | .pick =>
    ⟨"PICK", "Copy the nth value to the top, 0 is the top itself.", "... n -- ... value", .plain⟩
  | .roll => ⟨"ROLL", "Move the nth value to the top.", "... n -- ... value", .plain⟩
  | .clear => ⟨"CLEAR", "Empty the data stack.", "... -- ", .plain⟩
  | .dupNonzero => ⟨"?DUP", "Duplicate the top value if it's non-zero.", "a -- a a | 0", .plain⟩

def StackWord.all : List StackWord :=
  [.dup, .drop, .swap, .copySecond, .rot, .rotBack, .nip, .tuck, .dupPair, .dropPair, .swapPair,
    .overPair, .depth, .pick, .roll, .clear, .dupNonzero]

def ReturnWord.spec : ReturnWord → WordSpec
  | .toReturn => ⟨">R", "Move the top value to the return stack.", "a -- R: -- a", .plain⟩
  | .fromReturn =>
    ⟨"R>", "Move the top of the return stack to the data stack.", " -- a R: a -- ", .plain⟩
  | .copyReturn =>
    ⟨"R@", "Copy the top of the return stack to the data stack.", " -- a R: a -- a", .plain⟩

def ReturnWord.all : List ReturnWord :=
  [.toReturn, .fromReturn, .copyReturn]

def MathWord.spec : MathWord → WordSpec
  | .add => ⟨"+", "Add two numbers.", "a b -- sum", .plain⟩
  | .subtract => ⟨"-", "Subtract the top number from the second.", "a b -- difference", .plain⟩
  | .multiply => ⟨"*", "Multiply two numbers.", "a b -- product", .plain⟩
  | .divide =>
    ⟨"/", "Divide the second number by the top, rounding down.", "a b -- quotient", .plain⟩
  | .mod => ⟨"MOD", "Remainder of a floored division.", "a b -- remainder", .plain⟩
  | .divMod =>
    ⟨"/MOD", "Floored division giving both remainder and quotient.",
      "a b -- remainder quotient", .plain⟩
  | .scale =>
    ⟨"*/", "Multiply then divide without overflowing the intermediate product.",
      "a b c -- result", .plain⟩
  | .negate => ⟨"NEGATE", "Negate a number.", "a -- -a", .plain⟩
  | .abs => ⟨"ABS", "Absolute value.", "a -- |a|", .plain⟩
  | .min => ⟨"MIN", "The smaller of two numbers.", "a b -- min", .plain⟩
  | .max => ⟨"MAX", "The larger of two numbers.", "a b -- max", .plain⟩
  | .increment => ⟨"1+", "Increment.", "a -- a+1", .plain⟩
  | .decrement => ⟨"1-", "Decrement.", "a -- a-1", .plain⟩
  | .addTwo => ⟨"2+", "Add two.", "a -- a+2", .plain⟩
  | .subtractTwo => ⟨"2-", "Subtract two.", "a -- a-2", .plain⟩
  | .double => ⟨"2*", "Double.", "a -- a*2", .plain⟩
  | .halve => ⟨"2/", "Halve, rounding down.", "a -- a/2", .plain⟩
  | .equal => ⟨"=", "Are the values equal?", "a b -- flag", .plain⟩
  | .notEqual => ⟨"<>", "Are the values different?", "a b -- flag", .plain⟩
  | .less => ⟨"<", "Is a less than b?", "a b -- flag", .plain⟩
  | .greater => ⟨">", "Is a greater than b?", "a b -- flag", .plain⟩
  | .lessEqual => ⟨"<=", "Is a less than or equal to b?", "a b -- flag", .plain⟩
  | .greaterEqual => ⟨">=", "Is a greater than or equal to b?", "a b -- flag", .plain⟩
  | .zeroEqual => ⟨"0=", "Is the value zero?", "a -- flag", .plain⟩
  | .zeroLess => ⟨"0<", "Is the value negative?", "a -- flag", .plain⟩
  | .zeroGreater => ⟨"0>", "Is the value positive?", "a -- flag", .plain⟩
  | .zeroNotEqual => ⟨"0<>", "Is the value non-zero?", "a -- flag", .plain⟩
  | .and => ⟨"AND", "Bitwise and.", "a b -- result", .plain⟩
  | .or => ⟨"OR", "Bitwise or.", "a b -- result", .plain⟩
  | .xor => ⟨"XOR", "Bitwise exclusive or.", "a b -- result", .plain⟩
  | .invert => ⟨"INVERT", "Flip every bit.", "a -- ~a", .plain⟩
  | .shiftLeft => ⟨"LSHIFT", "Shift left.", "a count -- result", .plain⟩
  | .shiftRight => ⟨"RSHIFT", "Logical shift right.", "a count -- result", .plain⟩
  | .pushTrue => ⟨"TRUE", "Push the true flag.", " -- -1", .plain⟩
  | .pushFalse => ⟨"FALSE", "Push the false flag.", " -- 0", .plain⟩
  | .not => ⟨"NOT", "Logical not.", "a -- flag", .plain⟩

def MathWord.all : List MathWord :=
  [.add, .subtract, .multiply, .divide, .mod, .divMod, .scale, .negate, .abs, .min, .max,
    .increment, .decrement, .addTwo, .subtractTwo, .double, .halve, .equal, .notEqual, .less,
    .greater, .lessEqual, .greaterEqual, .zeroEqual, .zeroLess, .zeroGreater, .zeroNotEqual,
    .and, .or, .xor, .invert, .shiftLeft, .shiftRight, .pushTrue, .pushFalse, .not]

def MemoryWord.spec : MemoryWord → WordSpec
  | .fetch => ⟨"@", "Fetch the value stored at an address.", "address -- value", .plain⟩
  | .store => ⟨"!", "Store a value at an address.", "value address -- ", .plain⟩
  | .addTo => ⟨"+!", "Add to the value stored at an address.", "n address -- ", .plain⟩
  | .cells => ⟨"CELLS", "Convert a count of cells to a memory size.", "n -- size", .plain⟩
  | .allot => ⟨"ALLOT", "Reserve n more cells of memory.", "n -- ", .plain⟩
  | .here => ⟨"HERE", "The address the next reserved cell will get.", " -- address", .plain⟩

def MemoryWord.all : List MemoryWord :=
  [.fetch, .store, .addTo, .cells, .allot, .here]

def DefiningWord.spec : DefiningWord → WordSpec
  | .colon => ⟨":", "Start a new word definition.", " -- ", .immediate⟩
  | .semicolon => ⟨";", "End the current word definition.", " -- ", .compileOnly⟩
  | .constant => ⟨"CONSTANT", "Define a word that pushes the given value.", "value -- ", .plain⟩
  | .variable =>
    ⟨"VARIABLE", "Reserve a cell and define a word that pushes its address.", " -- ", .plain⟩
  | .immediate => ⟨"IMMEDIATE", "Make the latest word run at compile time.", " -- ", .immediate⟩
  | .forget => ⟨"FORGET", "Remove a word and everything defined after it.", " -- ", .plain⟩
  | .reset =>
    ⟨"RESET", "Clear the stack and forget this session's definitions.", "... -- ", .plain⟩

def DefiningWord.all : List DefiningWord :=
  [.colon, .semicolon, .constant, .variable, .immediate, .forget, .reset]

def ControlWord.spec : ControlWord → WordSpec
  | .openIf =>
    ⟨"IF", "Run the following code only if the flag is true.", "flag -- ", .compileOnly⟩
  | .openElse => ⟨"ELSE", "Code to run when the IF flag was false.", " -- ", .compileOnly⟩
  | .closeThen => ⟨"THEN", "End an IF.", " -- ", .compileOnly⟩
  | .openBegin => ⟨"BEGIN", "Start an indefinite loop.", " -- ", .compileOnly⟩
  | .closeUntil =>
    ⟨"UNTIL", "Loop back to BEGIN until the flag is true.", "flag -- ", .compileOnly⟩
  | .closeAgain => ⟨"AGAIN", "Loop back to BEGIN forever.", " -- ", .compileOnly⟩
  | .openWhile =>
    ⟨"WHILE", "Leave a BEGIN loop when the flag is false.", "flag -- ", .compileOnly⟩
  | .closeRepeat => ⟨"REPEAT", "Loop back to BEGIN.", " -- ", .compileOnly⟩
  | .openDo => ⟨"DO", "Start a counted loop.", "limit start -- ", .compileOnly⟩
  | .openQueryDo =>
    ⟨"?DO", "Start a counted loop that may run zero times.", "limit start -- ", .compileOnly⟩
  | .closeLoop => ⟨"LOOP", "Step the loop index by one.", " -- ", .compileOnly⟩
  | .closePlusLoop =>
    ⟨"+LOOP", "Step the loop index by the given amount.", "step -- ", .compileOnly⟩
  | .index => ⟨"I", "The index of the innermost loop.", " -- index", .compileOnly⟩
  | .outerIndex => ⟨"J", "The index of the next outer loop.", " -- index", .compileOnly⟩
  | .leave => ⟨"LEAVE", "Leave the innermost loop right away.", " -- ", .compileOnly⟩
  | .unloop => ⟨"UNLOOP", "Drop the innermost loop's control frame.", " -- ", .compileOnly⟩
  | .exit => ⟨"EXIT", "Return from the current word.", " -- ", .compileOnly⟩
  | .recurse => ⟨"RECURSE", "Call the word being defined.", " -- ", .compileOnly⟩

def ControlWord.all : List ControlWord :=
  [.openIf, .openElse, .closeThen, .openBegin, .closeUntil, .closeAgain, .openWhile,
    .closeRepeat, .openDo, .openQueryDo, .closeLoop, .closePlusLoop, .index, .outerIndex, .leave,
    .unloop, .exit, .recurse]

def OutputWord.spec : OutputWord → WordSpec
  | .print => ⟨".", "Print and remove the top value.", "value -- ", .plain⟩
  | .printStack => ⟨".S", "Print the stack without changing it.", " -- ", .plain⟩
  | .newLine => ⟨"CR", "Print a new line.", " -- ", .plain⟩
  | .space => ⟨"SPACE", "Print a space.", " -- ", .plain⟩
  | .spaces => ⟨"SPACES", "Print n spaces.", "count -- ", .plain⟩
  | .emit => ⟨"EMIT", "Print the character with the given code.", "code -- ", .plain⟩
  | .type => ⟨"TYPE", "Print a string.", "string count -- ", .plain⟩
  | .words => ⟨"WORDS", "List every known word.", " -- ", .plain⟩
  | .see => ⟨"SEE", "Show the definition of the following word.", " -- ", .plain⟩

def OutputWord.all : List OutputWord :=
  [.print, .printStack, .newLine, .space, .spaces, .emit, .type, .words, .see]

namespace Builtin

def spec : Builtin → WordSpec
  | stack w => w.spec
  | returns w => w.spec
  | math w => w.spec
  | memory w => w.spec
  | defining w => w.spec
  | control w => w.spec
  | output w => w.spec

/-- All built-in words, in the order in which a session defines them. -/
def all : List Builtin :=
  StackWord.all.map stack ++ ReturnWord.all.map returns ++ MathWord.all.map math ++
    MemoryWord.all.map memory ++ DefiningWord.all.map defining ++ ControlWord.all.map control ++
    OutputWord.all.map output

theorem mem_all (b : Builtin) : b ∈ all := by
  rcases b with w | w | w | w | w | w | w <;> cases w <;> decide

theorem nodup_names : (all.map (·.spec.name)).Nodup := by
  decide +kernel

end Builtin

end StackLang
