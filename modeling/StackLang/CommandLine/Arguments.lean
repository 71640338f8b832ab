import StackLang.Session

/-!
# Arguments

What the command line asks for: the files to run, the directories to look for them, the mode of
evaluation, and the file to save the words in.  A value follows its option, or an equals sign in the
same argument.  After `--` every argument is a file.

* `ofList_files`: arguments that are no options are files, in their order.
-/

namespace StackLang

structure Arguments where
  /-- The files to run, in this order.  Without any, the standard input is run line by line. -/
  files : List String
  /-- The directories in which files are looked for. -/
  libraries : List String
  /-- The mode of evaluation, if one was asked for. -/
  mode : Option Mode
  /-- The file that the words are saved in when all is done. -/
  save : Option String
deriving Repr, DecidableEq

/-- What an option sets. -/
inductive Setting where
  /-- One more directory in which files are looked for. -/
  | library
  | mode
  | save
deriving Repr, DecidableEq

namespace Setting

/-- The name of the option. -/
def text : Setting → String
  | library => "lib"
  | mode => "mode"
  | save => "save"

def ofText? (s : String) : Option Setting :=
  [library, mode, save].find? (·.text == s)

theorem ofText?_text (setting : Setting) : ofText? setting.text = some setting := by
  cases setting <;> decide

end Setting

/-- Why arguments cannot be understood. -/
inductive UsageError where
  | unknownOption (argument : String)
  | missingValue (setting : Setting)
  | repeated (setting : Setting)
  | unknownMode (text : String)
deriving Repr, DecidableEq

def UsageError.text : UsageError → String
  | unknownOption argument => s!"unexpected argument '{argument}'"
  | missingValue setting => s!"a value is required for '--{setting.text}'"
  | repeated setting => s!"'--{setting.text}' cannot be used more than once"
  | unknownMode text => Mode.unknown text

namespace Arguments

def empty : Arguments :=
  ⟨[], [], none, none⟩

/-- Does an argument stand for something else than a file or a value? -/
def isOption (argument : String) : Bool :=
  argument.toList.head? == some '-' && argument != "-"

/-- The setting that an argument names after two dashes, and the value behind an equals sign. -/
def setting? (argument : String) : Option (Setting × Option String) :=
  match argument.toList with
  | '-' :: '-' :: body =>
    let value := match body.dropWhile (· != '=') with
      | [] => none
      | _ :: value => some (String.ofList value)
    (Setting.ofText? (String.ofList (body.takeWhile (· != '=')))).map (·, value)
  | _ => none

/-- Take over the value of a setting.  Only directories can be given more than once. -/
def set (a : Arguments) (setting : Setting) (value : String) : Except UsageError Arguments :=
  match setting with
  | .library => .ok { a with libraries := a.libraries ++ [value] }
  | .mode =>
    if a.mode.isSome then .error (.repeated setting)
    else match Mode.ofText? value with
      | some mode => .ok { a with mode := some mode }
      | none => .error (.unknownMode value)
  | .save =>
    if a.save.isSome then .error (.repeated setting) else .ok { a with save := some value }

/-- Take over the arguments that are left. -/
def add (a : Arguments) : List String → Except UsageError Arguments
  | [] => .ok a
  | argument :: rest =>
    if argument = "--" then .ok { a with files := a.files ++ rest }
    else if isOption argument then
      match setting? argument, rest with
      | none, _ => .error (.unknownOption argument)
      | some (setting, some value), rest => do (← a.set setting value).add rest
      | some (setting, none), value :: rest =>
        if isOption value then .error (.missingValue setting)
        else do (← a.set setting value).add rest
      | some (setting, none), [] => .error (.missingValue setting)
    else add { a with files := a.files ++ [argument] } rest

/-- The meaning of the arguments of a command. -/
def ofList (arguments : List String) : Except UsageError Arguments :=
  empty.add arguments

theorem ofList_files {files : List String} (h : ∀ file ∈ files, isOption file = false) :
    ofList files = .ok { empty with files := files } := by
  suffices grow : ∀ a : Arguments, a.add files = .ok { a with files := a.files ++ files } by
    simpa [empty, ofList] using grow empty
  induction files with
  | nil => intro a; simp [add]
  | cons file files ih =>
    intro a
    have hfile := h file (by simp)
    have hdash : file ≠ "--" := by
      rintro rfl
      exact absurd hfile (by decide)
    unfold add
    simp [hdash, hfile, ih fun f hf => h f (by simp [hf])]

end Arguments

end StackLang
