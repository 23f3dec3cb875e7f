import ModelSignatures.Generator.Members
import ModelSignatures.Generator.Namespace
import ModelSignatures.Signature.Format

/-!
# Generated signatures

The signature of a class: its groups of members between its header and its footer, put into
canonical layout. A class with no member to declare has no signature, whatever its name.
-/

namespace ModelSignatures

/-- The parts of a generated signature as they are put together. -/
structure Fragments where
  header : String
  mixins : String
  passwordMethods : String
  accessors : String
  footer : String
deriving DecidableEq, Repr

/-- The parts one after the other, with empty lines between the groups of members. -/
def Fragments.assembled (f : Fragments) : String :=
  f.header ++ "\n" ++ f.mixins ++ "\n\n" ++ f.passwordMethods ++ "\n\n" ++ f.accessors ++ "\n" ++
    f.footer

namespace ClassDescriptor

/-- The signature of a class, if it has anything to declare. -/
def generate (d : ClassDescriptor) : Except GenerationError (Option String) := do
  let accessors ← d.accessors
  if d.mixins = "" ∧ d.passwordMethods = "" ∧ accessors = "" then
    return none
  else
    let header ← d.header
    let fragments : Fragments :=
      { header, mixins := d.mixins, passwordMethods := d.passwordMethods, accessors,
        footer := d.footer }
    match Signature.format fragments.assembled with
    | .ok text => return some text
    | .error cause => .error (.malformed d.qualifiedName cause)

end ClassDescriptor

end ModelSignatures
