import ModelSignatures.CommandLine.Response

/-!
# The program

Reads the arguments and the input that they name, and prints the answer.
-/

namespace ModelSignatures

/-- All that is left on a stream. -/
partial def readToEnd (stream : IO.FS.Stream) (text : String) : IO String := do
  let line ← stream.getLine
  if line.isEmpty then return text else readToEnd stream (text ++ line)

/-- The text of a source. -/
def readSource (source : InputSource) : IO String := do
  match source with
  | .standardInput => readToEnd (← IO.getStdin) ""
  | .file path => IO.FS.readFile path

/-- The text of a source, or nothing where it cannot be read. -/
def readSource? (source : Option InputSource) : IO (Option String) := do
  match source with
  | none => return none
  | some source =>
    try
      return some (← readSource source)
    catch _ =>
      return none

/-- The lines of an error and its causes. -/
def errorReport (errors : List String) : List String :=
  if errors.isEmpty then []
  else "Error:" :: errors.zipIdx.map fun (message, index) ↦
    "   " ++ toString index ++ ": " ++ message

end ModelSignatures

open ModelSignatures in
/-- The program. -/
def main (arguments : List String) : IO UInt32 := do
  let namedInput ← IO.getEnv Invocation.inputVariable
  let invocation := Invocation.ofArguments namedInput false arguments
  let response := invocation.respond (← readSource? invocation.source?)
  IO.print response.standardOutput
  for line in response.status do
    IO.eprintln line
  for line in errorReport response.errors do
    IO.eprintln line
  if invocation = .badUsage then
    IO.eprint Invocation.usage
  return response.exitCode.toUInt32
