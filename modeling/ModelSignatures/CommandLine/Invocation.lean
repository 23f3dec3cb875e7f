/-!
# Invocations

What the arguments of the program ask for. Arguments are read from left to right, and the first that
asks for help or the version, or that cannot be understood, settles the answer. The options for the
status output may stand before or after the name of a command. They are accepted and change nothing
here: status lines have no colours, and nothing is logged. A flag may be given once before the name
and once after it.
-/

namespace ModelSignatures

/-- What the program is to do with its input. -/
inductive Command
  /-- Write the signatures of classes, as text or as JSON. -/
  | generate (json : Bool)
  /-- Format a signature, or only check that it is formatted. -/
  | format (check : Bool)
deriving DecidableEq, Repr

/-- What the arguments ask for. -/
inductive Invocation
  /-- Run a command on the input that is named, if one is. -/
  | run (command : Command) (input : Option String)
  | version
  | help
  /-- The arguments make no sense. -/
  | badUsage
deriving DecidableEq, Repr

namespace Invocation

/-- The variable that names the input of `generate` where no argument does. -/
def inputVariable : String := "RBS_ACTIVEMODEL_INPUT"

/-! ### Single arguments -/

/-- What one argument says. -/
inductive Argument
  /-- A double dash, behind which nothing is an option. -/
  | separator
  /-- An option with two dashes, without them. -/
  | long (name : String)
  /-- Options of one letter each. -/
  | short (letters : List Char)
  | value (text : String)
deriving DecidableEq, Repr

/-- What an argument says. A single dash is a value. -/
def Argument.ofString (text : String) : Argument :=
  match text.toList with
  | ['-', '-'] => separator
  | '-' :: '-' :: name => long (String.ofList name)
  | '-' :: letter :: letters => short (letter :: letters)
  | _ => value text

/-- What options of one letter ask for: nothing but the `v` of verbosity goes on. -/
def ofLetters (hasVersion : Bool) : List Char → Option Invocation
  | [] => none
  | 'v' :: letters => ofLetters hasVersion letters
  | 'h' :: _ => some help
  | 'V' :: _ => some (if hasVersion then version else badUsage)
  | _ => some badUsage

/-! ### Commands -/

/-- The options and values behind the name of a command, as far as they are read. -/
structure Given where
  /-- Whether `--plain` was given. -/
  plain : Bool := false
  /-- Whether the flag of the command was given. -/
  flag : Bool := false
  /-- The input that was named. -/
  input : Option String := none
  /-- Whether a double dash was given. -/
  valuesOnly : Bool := false

/-- The command with an input named, which may be named only once and not by an empty text. -/
def Given.withInput (given : Given) (text : String) : Option Given :=
  if given.input.isNone && text != "" then some { given with input := some text } else none

/-- Reads the arguments behind the name of a command whose own flag is `flagName`; `finish` tells
what the arguments ask for once all are read. -/
def ofCommandArguments (flagName : String) (finish : Given → Invocation) (given : Given) :
    List String → Invocation
  | [] => finish given
  | argument :: arguments =>
    match given.valuesOnly, Argument.ofString argument with
    | false, .separator =>
      ofCommandArguments flagName finish { given with valuesOnly := true } arguments
    | false, .long name =>
      if name = "help" then help
      else if name = "verbose" then ofCommandArguments flagName finish given arguments
      else if name = "plain" ∧ ¬given.plain then
        ofCommandArguments flagName finish { given with plain := true } arguments
      else if name = flagName ∧ ¬given.flag then
        ofCommandArguments flagName finish { given with flag := true } arguments
      else badUsage
    | false, .short letters =>
      match ofLetters false letters with
      | some invocation => invocation
      | none => ofCommandArguments flagName finish given arguments
    | _, _ =>
      match given.withInput argument with
      | some given => ofCommandArguments flagName finish given arguments
      | none => badUsage

/-- Ends the arguments of `generate`, whose input `variable` names where they do not. -/
def finishGenerate (fromVariable : Option String) (given : Given) : Invocation :=
  match given.input, fromVariable with
  | some input, _ => run (.generate given.flag) (some input)
  | none, some "" => badUsage
  | none, input => run (.generate given.flag) input

/-- Ends the arguments of `fmt`. -/
def finishFormat (given : Given) : Invocation :=
  run (.format given.flag) given.input

/-- What the arguments behind `help` ask for: at most one command may be named. -/
def ofHelpArguments : List String → Invocation
  | [] => help
  | [name] => if ["generate", "fmt", "help"].contains name then help else badUsage
  | _ => badUsage

/-- Reads all arguments, with the value of the input variable. -/
def ofArguments (fromVariable : Option String) (plain : Bool) : List String → Invocation
  | [] => badUsage
  | argument :: arguments =>
    match Argument.ofString argument with
    | .separator => badUsage
    | .long name =>
      if name = "help" then help
      else if name = "version" then version
      else if name = "verbose" then ofArguments fromVariable plain arguments
      else if name = "plain" ∧ ¬plain then ofArguments fromVariable true arguments
      else badUsage
    | .short letters =>
      match ofLetters true letters with
      | some invocation => invocation
      | none => ofArguments fromVariable plain arguments
    | .value "generate" => ofCommandArguments "json" (finishGenerate fromVariable) {} arguments
    | .value "fmt" => ofCommandArguments "check" finishFormat {} arguments
    | .value "help" => ofHelpArguments arguments
    | .value _ => badUsage

end Invocation

/-! ### Inputs -/

/-- Where the input of a command comes from. -/
inductive InputSource
  | standardInput
  | file (path : String)
deriving DecidableEq, Repr

/-- The pieces of a text between its slashes. -/
def InputSource.components : List Char → List (List Char)
  | '/' :: cs => [] :: components cs
  | c :: cs =>
    match components cs with
    | piece :: pieces => (c :: piece) :: pieces
    | [] => [[c]]
  | [] => [[]]

/-- The source of an input: standard input where none is named, or where the path is a dash, perhaps
with components behind it that lead nowhere else. -/
def InputSource.ofInput (input : Option String) : InputSource :=
  match input with
  | none => standardInput
  | some path =>
    match components path.toList with
    | ['-'] :: rest =>
      if rest.all fun piece ↦ piece == [] || piece == ['.'] then standardInput else file path
    | _ => file path

end ModelSignatures
