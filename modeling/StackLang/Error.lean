import StackLang.Location
import StackLang.Text.Uppercase
import StackLang.Value

/-!
# Errors

Why an evaluation can fail, with the data that explains it.  The wording is in `Cause.message` and
the advice in `Cause.hint`.  A script error adds where it happened and which words were running.

* `withLocation_of_some`: a location that is known is never replaced.
-/

namespace StackLang

inductive Cause where
  | stackUnderflow (word : String) (needed available : Nat)
  | unknownWord (name : String) (suggestions : List String)
  | divisionByZero (dividend : Value)
  | typeMismatch (word expected found : String)
  /-- A word of definitions outside of one. -/
  | compileOnly (word : String)
  /-- A control word whose partner is missing. -/
  | unmatched (opener expected : String)
  | invalidAddress (word : String) (address : Int64)
  | memoryExhausted (word : String) (requested available : Nat)
  | missingName (word : String)
  | returnStackOverflow (depth : Nat)
  | cancelled
  | io (message : String)
deriving DecidableEq

namespace Cause

/-- The ending of a counted noun. -/
def plural (count : Nat) : String :=
  if count = 1 then "" else "s"

/-- The closing words about names that look like an unknown one. -/
def didYouMean : List String → String
  | [] => ""
  | [only] => ". Did you mean '" ++ only ++ "'?"
  | several => ". Did you mean one of: " ++ ", ".intercalate several ++ "?"

/-- What went wrong. -/
def message : Cause → String
  | stackUnderflow word needed available =>
    s!"Stack underflow: '{word}' needs {needed} value" ++ plural needed ++
      s!", but the stack only has {available}."
  | unknownWord name suggestions => s!"Unknown word: '{name}'" ++ didYouMean suggestions
  | divisionByZero dividend => "Division by zero: Cannot divide " ++ dividend.text ++ " by 0."
  | typeMismatch word expected found =>
    s!"Type mismatch: '{word}' expects {expected}, but found {found}."
  | compileOnly word => s!"'{word}' is a compile-only word."
  | unmatched opener expected => s!"Unmatched '{opener}': missing '{expected}'."
  | invalidAddress word address =>
    s!"Invalid address: '{word}' can't access cell " ++ toString address.toInt ++ "."
  | memoryExhausted word requested available =>
    s!"Out of memory: '{word}' asked for {requested} cell" ++ plural requested ++
      s!", but only {available} are left."
  | missingName word => s!"'{word}' needs a name to follow it."
  | returnStackOverflow depth => s!"Return stack overflow: more than {depth} items."
  | cancelled => "Evaluation cancelled."
  | io message => "I/O error: " ++ message

/-- Advice for the words whose operands are most often forgotten. -/
def underflowHints : List (String × String) :=
  [("+", "The '+' word adds two numbers together. Try: 3 5 +"),
    ("-", "The '-' word subtracts (second - top). Try: 10 3 -"),
    ("*", "The '*' word multiplies two numbers. Try: 4 7 *"),
    ("/", "The '/' word divides (second / top). Try: 20 4 /"),
    ("DUP", "DUP duplicates the top value. Push a value first: 5 DUP"),
    ("DROP", "DROP removes the top value. Push a value first: 5 DROP"),
    ("SWAP", "SWAP exchanges top two values. Try: 1 2 SWAP"),
    ("OVER", "OVER copies the second value to top. Try: 1 2 OVER"),
    ("ROT", "ROT rotates three values. Try: 1 2 3 ROT"),
    (".", "The '.' word prints and removes top value. Try: 42 .")]

/-- What to do about it. -/
def hint : Cause → String
  | stackUnderflow word needed available =>
    (underflowHints.lookup (Text.uppercase word)).getD
      s!"Try pushing {needed - available} more value(s) before using '{word}'."
  | unknownWord _ _ => "Forth words are case-insensitive. Use WORDS to list available words."
  | divisionByZero _ => "Check the value on top of the stack before dividing."
  | typeMismatch word _ _ => s!"Use .S to look at the stack before calling '{word}'."
  | compileOnly _ => "It can only be used inside a colon definition (: word ... ;)."
  | unmatched opener expected =>
    s!"Every '{opener}' needs a matching '{expected}'. " ++
      "Check that your control structures are balanced."
  | invalidAddress _ _ => "Only use addresses returned by VARIABLE, HERE or ALLOT."
  | memoryExhausted _ _ _ => "Allot fewer cells, or raise the cell limit of the session."
  | missingName word =>
    s!"Write the new name right after '{word}', for example: {word} NAME"
  | returnStackOverflow _ => "Check for recursion without a base case."
  | cancelled => "The evaluation was stopped before it finished."
  | io _ => "Check that the file exists and can be read."

end Cause

/-- A running word and the place that it was called from. -/
structure CallItem where
  word : String
  location : Location
deriving Repr, DecidableEq

def CallItem.text (c : CallItem) : String :=
  c.location.text ++ ": " ++ c.word

/-- A failure, where it happened, and the words that were running, innermost first. -/
structure ScriptError where
  location : Option Location
  cause : Cause
  calls : Option (List CallItem)
deriving DecidableEq

namespace ScriptError

/-- A failure outside of any script. -/
def ofCause (cause : Cause) : ScriptError :=
  ⟨none, cause, none⟩

/-- The error with a location, if it has none yet. -/
def withLocation (e : ScriptError) (l : Option Location) : ScriptError :=
  { e with location := e.location.or l }

theorem withLocation_of_some {e : ScriptError} {l : Location} (h : e.location = some l)
    (m : Option Location) : e.withLocation m = e := by
  cases e
  simp_all [withLocation]

/-- The error as it is shown: the location, what went wrong, and the running words with the
innermost first. -/
def text (e : ScriptError) : String :=
  let place := match e.location with
    | some l => l.text ++ ": "
    | none => ""
  let calls := match e.calls with
    | none | some [] => ""
    | some calls => "\n\nCall stack\n" ++ String.join (calls.map fun c => "  " ++ c.text ++ "\n")
  place ++ e.cause.message ++ calls

def hint (e : ScriptError) : String :=
  e.cause.hint

/-- Can the session go on after the error?  It can after every error of a script. -/
def isRecoverable (_ : ScriptError) : Bool :=
  true

end ScriptError

end StackLang
