import ModelSignatures.CommandLine.Invocation
import ModelSignatures.Descriptor.Json
import ModelSignatures.Generator.Batch
import ModelSignatures.Json.Parser
import ModelSignatures.Json.Printer

/-!
# Responses

What the program answers to an invocation, once its input is read: the text for standard output, the
lines on the state of each class, and the error that it ends with, if it does. `Invocation.respond`
is a function of the invocation and the input, so running the program is no more than reading the
one and printing the other.
-/

namespace ModelSignatures

/-! ### Reading descriptors -/

/-- Why an input holds no descriptors. -/
inductive DescriptorInputError
  | notJson
  | invalidList
  | invalidDescriptor
deriving DecidableEq, Repr

/-- The wording of an error. -/
def DescriptorInputError.message : DescriptorInputError → String
  | notJson => "Invalid JSON in descriptor input"
  | invalidList => "Invalid class descriptor list"
  | invalidDescriptor => "Invalid class descriptor"

/-- The descriptors that a JSON value holds: those of a list, or a single one. -/
def ClassDescriptor.allOfJson (j : Json) : Except DescriptorInputError (List ClassDescriptor) :=
  match j with
  | .array items =>
    match items.mapM ClassDescriptor.ofJson? with
    | some ds => .ok ds
    | none => .error .invalidList
  | _ =>
    match ClassDescriptor.ofJson? j with
    | some d => .ok [d]
    | none => .error .invalidDescriptor

/-- The descriptors that a text holds. -/
def ClassDescriptor.allOfText (text : String) :
    Except DescriptorInputError (List ClassDescriptor) :=
  match Json.parse? text with
  | some j => allOfJson j
  | none => .error .notJson

/-! ### Reports -/

namespace Report

/-- The signatures of a report, each below a comment with its file, with empty lines between
them. -/
def text (r : Report) : String :=
  "\n".intercalate (r.generated.map fun g ↦ "# " ++ g.path ++ "\n" ++ g.text)

/-- The signatures of a report as JSON. -/
def toJson (r : Report) : Json :=
  .array (r.generated.map fun g ↦
    .object [("class", .string g.className), ("path", .string g.path), ("rbs", .string g.text)])

/-- A line for each class without a signature: those with nothing to declare first, then those that
failed. -/
def statusLines (r : Report) : List String :=
  (r.skipped.map fun name ↦ "skipped " ++ name ++ ": nothing to declare") ++
    r.failures.map fun failure ↦ "failed " ++ failure.1 ++ ": " ++ failure.2.message

/-- The error that a report ends with when a class failed. -/
def failureMessage (r : Report) : String :=
  toString r.failures.length ++ " of " ++ toString r.length ++ " classes failed"

end Report

/-! ### Responses -/

/-- What the program answers. -/
structure Response where
  /-- Zero for success, one for an error and two for arguments that make no sense. -/
  exitCode : Nat
  standardOutput : String
  /-- The lines on the state of each class or of the input. -/
  status : List String
  /-- The error, followed by what caused it. -/
  errors : List String
deriving DecidableEq, Repr

namespace Response

/-- The answer of a command that succeeds. -/
def success (standardOutput : String) : Response :=
  ⟨0, standardOutput, [], []⟩

/-- The answer of a command that fails before it writes anything. -/
def failure (errors : List String) : Response :=
  ⟨1, "", [], errors⟩

end Response

/-- The answer to a report. -/
def Report.respond (r : Report) (json : Bool) : Response :=
  let output := if json then r.toJson.pretty 0 ++ "\n" else r.text
  if r.failures.isEmpty then ⟨0, output, r.statusLines, []⟩
  else ⟨1, output, r.statusLines, [r.failureMessage]⟩

/-- The error chain of a text that is no signature. -/
def formatErrors (e : SyntaxError) : List String :=
  ["Failed to parse RBS input", e.message]

/-- The answer of a command to the text of its input, which is called `inputName`. -/
def Command.respond (command : Command) (inputName text : String) : Response :=
  match command with
  | generate json =>
    match ClassDescriptor.allOfText text with
    | .ok ds => (Report.ofDescriptors ds).respond json
    | .error e => .failure [e.message]
  | format false =>
    match Signature.format text with
    | .ok formatted => .success formatted
    | .error e => .failure (formatErrors e)
  | format true =>
    match Signature.isCanonical text with
    | .ok true => .success ""
    | .ok false =>
      ⟨1, "", ["would reformat " ++ inputName], ["Input is not canonically formatted"]⟩
    | .error e => .failure (formatErrors e)

namespace InputSource

/-- The error for an input that cannot be read. -/
def readError : InputSource → String
  | standardInput => "Failed to read from stdin"
  | file path => "Failed to read file: " ++ path

end InputSource

namespace Invocation

/-- The answer to a question for the version. -/
def versionLine : String := "rbs-activemodel 0.1.0\n"

/-- What the arguments may be. -/
def usage : String :=
  "\n".intercalate
    ["Generate RBS signatures for ActiveModel classes",
      "",
      "Usage: rbs-activemodel [OPTIONS] <COMMAND>",
      "",
      "Commands:",
      "  generate [INPUT] [--json]  Write signatures for class descriptors (JSON)",
      "  fmt [INPUT] [--check]      Print RBS source in canonical layout, or check it",
      "  help                       Print this message",
      "",
      "Options:",
      "  -v, --verbose  Increase verbosity",
      "      --plain    Disable colors in status output",
      "  -h, --help     Print help",
      "  -V, --version  Print version",
      ""]

/-- The source whose text the invocation needs, if it needs one. -/
def source? : Invocation → Option InputSource
  | run _ input => some (.ofInput input)
  | _ => none

/-- The answer to an invocation, with the text of its source or nothing where that cannot be
read. -/
def respond (invocation : Invocation) (text : Option String) : Response :=
  match invocation with
  | run command input =>
    match text with
    | some text => command.respond (input.getD "<stdin>") text
    | none => .failure [(InputSource.ofInput input).readError]
  | version => .success versionLine
  | help => .success usage
  | badUsage => ⟨2, "", [], []⟩

end Invocation

end ModelSignatures
