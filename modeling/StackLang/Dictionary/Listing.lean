import StackLang.Dictionary
import StackLang.Text.Column

/-!
# Listings

Compiled code as a numbered list of instructions, the definition of a word as `SEE` prints it, and
the names of the dictionary as `WORDS` prints them.
-/

namespace StackLang

/-- The name of the word that an operation calls, in a comment. -/
def Dictionary.calledName (d : Dictionary) : Op → String
  | .callBuiltin index | .callWord index =>
    match d.get? index with
    | some e => "  ( " ++ e.name ++ " )"
    | none => ""
  | _ => ""

/-- One line for each instruction: its index, the operation, and what `note` adds. -/
def Code.listing (code : Code) (note : Op → String) : String :=
  String.join (code.toList.zipIdx.map fun (instruction, index) =>
    Text.flushRight 4 (toString index) ++ ": " ++ instruction.op.text ++
      note instruction.op ++ "\n")

/-- The definition of a word. -/
def Dictionary.describe (d : Dictionary) (e : Entry) : String :=
  let immediate := if e.immediate then " IMMEDIATE" else ""
  match e.body with
  | .builtin _ => ": " ++ e.name ++ " ( primitive ) ;" ++ immediate ++ " " ++ e.signature ++ "\n"
  | .compiled code =>
    ": " ++ e.name ++ "\n" ++ code.listing d.calledName ++ ";" ++ immediate ++ "\n"

/-- The definition of the word that a name means. -/
def Dictionary.describeWord? (d : Dictionary) (name : String) : Option String :=
  (d.find? name).map fun (_, e) => d.describe e

/-- The names in columns of fifteen characters, five to a line. -/
def Dictionary.listing (d : Dictionary) : String :=
  String.join (d.names.zipIdx.map fun (name, index) =>
    Text.flushLeft 15 name ++ if (index + 1) % 5 = 0 then "\n" else "") ++ "\n"

end StackLang
