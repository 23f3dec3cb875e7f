import ModelSignatures.Descriptor.Basic

/-!
# Building descriptors

A class body read from top to bottom is a list of steps, and each step adds to the descriptor what
the line of the body does. A step that includes a capability also includes what it brings with it,
and a step that adds a password defines the methods by which the password is found again.
-/

namespace ModelSignatures

/-- A line of a class body. -/
inductive BuildStep
  | superclass (name : String)
  /-- The constant at the path is of the kind. -/
  | enclosing (path : String) (kind : ConstantKind)
  | capability (c : Capability)
  | attr (name : String) (type : AttributeType)
  | attrWithDefault (name : String) (type : AttributeType)
  | presenceOf (name : String)
  | instanceMethod (name : String)
  | securePassword (name : String)
  /-- The class is stored by the superclass. -/
  | ormSubclass (superclass : String)
deriving DecidableEq, Repr

namespace ClassDescriptor

/-- The class with a capability and those that it brings with it. -/
def withCapability (d : ClassDescriptor) (c : Capability) : ClassDescriptor :=
  { d with capabilities := (d.capabilities.insert c).insertAll c.implied }

/-- The class with more instance methods. -/
def withInstanceMethods (d : ClassDescriptor) (methods : List String) : ClassDescriptor :=
  { d with instanceMethods := d.instanceMethods ++ methods }

/-- The class with one attribute more. -/
def withAttribute (d : ClassDescriptor) (a : AttributeDecl) : ClassDescriptor :=
  { d with attributes := d.attributes ++ [a] }

/-- The class after a line of its body. -/
def apply (d : ClassDescriptor) : BuildStep → ClassDescriptor
  | .superclass name => { d with superclass := some name }
  | .enclosing path kind => { d with enclosing := d.enclosing.insert path kind }
  | .capability c => d.withCapability c
  | .attr name type => d.withAttribute ⟨name, type, false⟩
  | .attrWithDefault name type => d.withAttribute ⟨name, type, true⟩
  | .presenceOf name => { d with presenceValidated := d.presenceValidated.insert name }
  | .instanceMethod name => d.withInstanceMethods [name]
  | .securePassword name =>
    { (d.withCapability .securePassword).withCapability .validations with
      securePassword := true }.withInstanceMethods
        ["authenticate_" ++ name, name ++ "_confirmation"]
  | .ormSubclass superclass => { d with ormSubclass := true, superclass := some superclass }

/-- The class that a name and the lines of a body describe. -/
def build (qualifiedName : String) (steps : List BuildStep) : ClassDescriptor :=
  steps.foldl apply (named qualifiedName)

/-- The class before the first of the steps and after each of them. -/
def statesFrom (d : ClassDescriptor) : List BuildStep → List ClassDescriptor
  | [] => [d]
  | step :: steps => d :: statesFrom (d.apply step) steps

/-- The class before the first line of a body and after each of its lines. -/
def states (qualifiedName : String) (steps : List BuildStep) : List ClassDescriptor :=
  statesFrom (named qualifiedName) steps

/-- The last of the states is the class that the whole body describes. -/
theorem getLast?_statesFrom (d : ClassDescriptor) (steps : List BuildStep) :
    (d.statesFrom steps).getLast? = some (steps.foldl apply d) := by
  induction steps generalizing d with
  | nil => rfl
  | cons step steps ih =>
    have hne : statesFrom (d.apply step) steps ≠ [] := by
      cases steps <;> simp [statesFrom]
    rw [statesFrom, List.getLast?_cons_of_ne_nil hne, ih, List.foldl_cons]

end ClassDescriptor

end ModelSignatures
