import ModelSignatures.Descriptor.Basic
import ModelSignatures.Generator.Error
import ModelSignatures.Text.Prefix

/-!
# The members of a generated signature

The members come in three groups: the modules of the class's capabilities, the methods of its
passwords and the accessors of its attributes. Each group is written as lines without indentation,
which formatting puts right.
-/

namespace ModelSignatures

/-! ### Capabilities -/

/-- The lines for a capability. -/
def Capability.mixinLines (c : Capability) : List String :=
  ("include ::" ++ c.modulePath) ::
    match c.classMethodsPath with
    | some path => ["extend ::" ++ path]
    | none => []

namespace ClassDescriptor

/-- The lines for the capabilities of a class. A class stored by a base class has none, since those
of the base class say the same. -/
def mixins (d : ClassDescriptor) : String :=
  if d.ormSubclass then "" else "\n".intercalate (d.capabilities.toList.flatMap (·.mixinLines))

/-! ### Passwords -/

/-- The password that a method authenticates, if it does: its name behind `authenticate_`. -/
def authenticated? (method : String) : Option String :=
  (afterPrefix? "authenticate_".toList method.toList).map String.ofList

/-- Whether a name can be a password's and the class has the method that confirms it. -/
def isConfirmed (d : ClassDescriptor) (name : String) : Bool :=
  ConstantPath.isMethodName name && d.hasInstanceMethod (name ++ "_confirmation")

/-- The passwords of a class: the names that have both an authentication and a confirmation method,
each once, in the order of the first authentication methods. -/
def passwordAttributes (d : ClassDescriptor) : List String :=
  ((d.instanceMethods.filterMap authenticated?).filter d.isConfirmed).eraseDups

/-- The password that `authenticate` without a name is for. -/
def defaultPassword : String := "password"

/-- The lines for a password. -/
def passwordLines (name : String) : String :=
  "\n".intercalate
    ["attr_reader " ++ name ++ ": String?",
      "attr_accessor " ++ name ++ "_confirmation: String",
      "attr_accessor " ++ name ++ "_challenge: String",
      "",
      "def " ++ name ++ "=: (String) -> String",
      "def " ++ name ++ "_salt: () -> String",
      "def authenticate_" ++ name ++ ": (String) -> (instance | false)"] ++
    if name = defaultPassword then "\n\nalias authenticate authenticate_password" else ""

/-- The lines for the passwords of a class that has methods for them. -/
def passwordMethods (d : ClassDescriptor) : String :=
  if d.securePassword then "\n\n".intercalate (d.passwordAttributes.map passwordLines) else ""

/-! ### Attributes -/

/-- Whether an attribute never lacks a value. -/
def isRequired (d : ClassDescriptor) (a : AttributeDecl) : Bool :=
  a.hasDefault || d.isPresenceValidated a.name

/-- The type of an attribute's value. -/
def valueType (d : ClassDescriptor) (a : AttributeDecl) : TypeExpr :=
  if d.isRequired a then a.type.signatureType else .optional a.type.signatureType

/-- The lines for an attribute. -/
def accessorLines (d : ClassDescriptor) (a : AttributeDecl) : String :=
  let type := (d.valueType a).text 1
  "\n".intercalate
    ["%a\x7bpure\x7d",
      "def " ++ a.name ++ ": () -> " ++ type,
      "def " ++ a.name ++ "=: (" ++ type ++ " value) -> " ++ type]

/-- The lines for each of several attributes, unless one of them cannot be a method. -/
def accessorBlocks (d : ClassDescriptor) :
    List AttributeDecl → Except GenerationError (List String)
  | [] => .ok []
  | a :: rest =>
    if ConstantPath.isMethodName a.name then do
      return d.accessorLines a :: (← d.accessorBlocks rest)
    else
      .error (.invalidAttribute d.qualifiedName a.name)

/-- The lines for the attributes of a class that has the capability. -/
def accessors (d : ClassDescriptor) : Except GenerationError String :=
  if d.hasCapability .attributes then do
    return "\n\n".intercalate (← d.accessorBlocks d.attributes)
  else
    .ok ""

end ClassDescriptor

end ModelSignatures
