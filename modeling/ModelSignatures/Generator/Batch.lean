import ModelSignatures.ConstantPath.Underscored
import ModelSignatures.Generator.Signature

/-!
# Signatures of many classes

Each class is generated on its own, and what came of it is entered in a report; a class that fails
does not keep the others from being generated.
-/

namespace ModelSignatures

/-- What came of a class. -/
inductive Outcome
  /-- The signature of the class and the file that it belongs in. -/
  | generated (path text : String)
  /-- There was nothing to declare. -/
  | skipped
  | failed (e : GenerationError)
deriving DecidableEq, Repr

/-- A class and what came of it. -/
structure ReportEntry where
  className : String
  outcome : Outcome
deriving DecidableEq, Repr

/-- What came of each class, in the order of the classes. -/
abbrev Report := List ReportEntry

/-- What comes of a class. -/
def ClassDescriptor.outcome (d : ClassDescriptor) : Outcome :=
  match d.generate with
  | .ok (some text) => .generated (ConstantPath.signaturePath d.qualifiedName) text
  | .ok none => .skipped
  | .error e => .failed e

namespace Report

/-- The report on some classes. -/
def ofDescriptors (ds : List ClassDescriptor) : Report :=
  ds.map fun d ↦ ⟨d.qualifiedName, d.outcome⟩

/-- A class with its signature and the file that the signature belongs in. -/
structure Generated where
  className : String
  path : String
  text : String
deriving DecidableEq, Repr

/-- The classes that have a signature. -/
def generated (r : Report) : List Generated :=
  r.filterMap fun entry ↦
    match entry.outcome with
    | .generated path text => some ⟨entry.className, path, text⟩
    | _ => none

/-- The classes that have nothing to declare. -/
def skipped (r : Report) : List String :=
  r.filterMap fun entry ↦
    match entry.outcome with
    | .skipped => some entry.className
    | _ => none

/-- The classes that failed, with their errors. -/
def failures (r : Report) : List (String × GenerationError) :=
  r.filterMap fun entry ↦
    match entry.outcome with
    | .failed e => some (entry.className, e)
    | _ => none

end Report

end ModelSignatures
