import ModelSignatures.ConstantPath.Basic
import ModelSignatures.Descriptor.AttributeType
import ModelSignatures.Descriptor.Capability
import ModelSignatures.NameMap

/-!
# Class descriptors

All that is known of a model class before its signature is written. Sets and maps have one form
only, so descriptors with the same contents are equal.
-/

namespace ModelSignatures

/-- What a constant of a namespace is. -/
inductive ConstantKind
  | ofClass (superclass : Option String)
  | ofModule
  /-- Anything else, which nothing can be declared in. -/
  | ofValue
deriving DecidableEq, Repr

/-- An attribute as it is declared. -/
structure AttributeDecl where
  name : String
  type : AttributeType
  hasDefault : Bool
deriving DecidableEq, Repr

/-- A model class. -/
structure ClassDescriptor where
  qualifiedName : String
  superclass : Option String
  /-- The constants around the class, by their paths. -/
  enclosing : NameMap ConstantKind
  capabilities : CapabilitySet
  /-- The attributes in the order of their declaration. -/
  attributes : List AttributeDecl
  /-- The attributes that are validated to be present. -/
  presenceValidated : NameSet
  /-- Whether the class has methods for passwords. -/
  securePassword : Bool
  instanceMethods : List String
  /-- Whether the class is stored by a base class that declares the capabilities itself. -/
  ormSubclass : Bool
deriving DecidableEq, Repr

namespace ClassDescriptor

/-- A class of which only the name is known. -/
def named (qualifiedName : String) : ClassDescriptor :=
  { qualifiedName
    superclass := none
    enclosing := .empty
    capabilities := .empty
    attributes := []
    presenceValidated := .empty
    securePassword := false
    instanceMethods := []
    ormSubclass := false }

/-- The segments of the class's name, the outermost first. -/
def segments (d : ClassDescriptor) : List String :=
  ConstantPath.segments d.qualifiedName

/-- The path of each segment of the class's name. -/
def segmentPaths (d : ClassDescriptor) : List String :=
  ConstantPath.segmentPaths d.qualifiedName

/-- The name of the class without its namespace. -/
def name (d : ClassDescriptor) : String :=
  ConstantPath.lastName d.qualifiedName

/-- Whether the class has a capability. -/
def hasCapability (d : ClassDescriptor) (c : Capability) : Bool :=
  d.capabilities.contains c

/-- Whether the attribute of the name is validated to be present. -/
def isPresenceValidated (d : ClassDescriptor) (attrName : String) : Bool :=
  d.presenceValidated.contains attrName

/-- Whether the class has an instance method of the name. -/
def hasInstanceMethod (d : ClassDescriptor) (method : String) : Bool :=
  d.instanceMethods.contains method

end ClassDescriptor

end ModelSignatures
