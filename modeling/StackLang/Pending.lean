import StackLang.Definition
import StackLang.Token.Scan

/-!
# Sources in evaluation

A source that waits to be evaluated: the tokens still to come, and the definition that is being
built from it.  Tokens do not depend on what the evaluation does, so they are read ahead.

* `nextToken?_ofSource`: the tokens come in the order of the source.
-/

namespace StackLang

structure Pending where
  tokens : List Token
  definition : Option Definition
deriving DecidableEq

namespace Pending

def ofSource (path source : String) : Pending :=
  ⟨Token.ofSource path source, none⟩

/-- The next token, and the source behind it. -/
def nextToken? (p : Pending) : Option (Token × Pending) :=
  match p.tokens with
  | [] => none
  | t :: rest => some (t, { p with tokens := rest })

/-- Have all tokens been used up? -/
def isExhausted (p : Pending) : Bool :=
  p.tokens.isEmpty

/-- The complaint about a definition that is still open. -/
def unclosed? (p : Pending) : Option Cause :=
  p.definition.map Definition.unclosed

theorem nextToken?_ofSource (path source : String) :
    (ofSource path source).nextToken?.map (·.1) = (Token.ofSource path source).head? := by
  unfold nextToken? ofSource
  cases Token.ofSource path source <;> rfl

end Pending

end StackLang
