import StackLang.Cursor
import StackLang.Number
import StackLang.Text.Quoted
import StackLang.Text.Uppercase

/-!
# Tokens

What a source consists of once blanks and comments are gone: numbers, string literals and words,
each with the location where it begins.

* `StringForm.ofWord?_opening`: every string form is known by its own opening word.
-/

namespace StackLang

/-- What is to be done with the text of a string literal. -/
inductive StringForm where
  /-- Print the text when it is executed: `." text"`. -/
  | print
  /-- Push the text and its length: `S" text"`. -/
  | push
  /-- Print the text right away, also while compiling: `.( text)`. -/
  | display
deriving Repr, DecidableEq

/-- The word that opens the literal. -/
def StringForm.opening : StringForm → String
  | print => ".\""
  | push => "S\""
  | display => ".("

/-- The character that closes the literal. -/
def StringForm.closing : StringForm → Char
  | print | push => '"'
  | display => ')'

/-- The form that a word opens, in any letter case. -/
def StringForm.ofWord? (word : String) : Option StringForm :=
  [print, push, display].find? (·.opening == Text.uppercase word)

theorem StringForm.ofWord?_opening (form : StringForm) : ofWord? form.opening = some form := by
  cases form <;> decide +kernel

/-- A token without its location. -/
inductive Lexeme where
  | number (value : Number)
  | string (form : StringForm) (text : String)
  | word (text : String)
deriving DecidableEq

/-- The lexeme as it is written in a source. -/
def Lexeme.text : Lexeme → String
  | number value => value.text
  | string form text => form.opening ++ " " ++ text ++ form.closing.toString
  | word text => text

/-- The lexeme as a name to be defined.  A string literal is none. -/
def Lexeme.name? : Lexeme → Option String
  | number value => some value.text
  | string _ _ => none
  | word text => some text

structure Token where
  location : Location
  lexeme : Lexeme
deriving DecidableEq

namespace Token

/-- The token as it is written in a source. -/
def text (t : Token) : String :=
  t.lexeme.text

/-- The token as a name to be defined. -/
def name? (t : Token) : Option String :=
  t.lexeme.name?

/-- The token with its location, numbers with their kind and texts in quotes. -/
def described (t : Token) : String :=
  let lexeme := match t.lexeme with
    | .number value => value.tagged
    | .string form text => form.opening ++ " " ++ Text.quoted text
    | .word text => text
  t.location.text ++ ": " ++ lexeme

end Token

end StackLang
