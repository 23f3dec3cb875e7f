import ModelSignatures.Descriptor.Basic
import ModelSignatures.Generator.Error

/-!
# The namespace of a generated signature

The lines that open the class and the constants around it, the outermost first, and the lines that
close them. All names are checked before any constant is looked up, and the constants are settled
from the outside in, so the outermost fault is the one reported.
-/

namespace ModelSignatures

namespace ClassDescriptor

/-- The line that opens a constant of the given kind, whose path is named in an error. -/
def openingLine (segment path : String) : ConstantKind → Except GenerationError String
  | .ofClass superclass =>
    match ConstantPath.explicitSuperclass superclass with
    | none => .ok ("class " ++ segment)
    | some name =>
      if ConstantPath.isConstantPath name then .ok ("class " ++ segment ++ " < ::" ++ name)
      else .error (.invalidName name)
  | .ofModule => .ok ("module " ++ segment)
  | .ofValue => .error (.unresolved path)

/-- What an enclosing constant is. -/
def kindOf (d : ClassDescriptor) (path : String) : Except GenerationError ConstantKind :=
  match d.enclosing.find? path with
  | some kind => .ok kind
  | none => .error (.unresolved path)

/-- The lines that open the given segments, of which the last is the class itself. -/
def openingLines (d : ClassDescriptor) :
    List (String × String) → Except GenerationError (List String)
  | [] => .ok []
  | [(segment, path)] => do
    return [← openingLine segment path (.ofClass d.superclass)]
  | (segment, path) :: inner => do
    let line ← openingLine segment path (← d.kindOf path)
    return line :: (← d.openingLines inner)

/-- The lines before the members of the class. -/
def header (d : ClassDescriptor) : Except GenerationError String := do
  if d.segments.all ConstantPath.isConstantName then
    return "\n".intercalate (← d.openingLines (d.segments.zip d.segmentPaths))
  else
    .error (.invalidName d.qualifiedName)

/-- The lines behind the members of the class. -/
def footer (d : ClassDescriptor) : String :=
  "".intercalate (d.segments.map fun _ ↦ "end\n")

end ClassDescriptor

end ModelSignatures
