import ModelSignatures.Generator.Members
import ModelSignatures.Signature.Basic

/-!
# What a class descriptor declares

The tree that the signature of a class is to be read as, told without any text: the declarations of
the constants around the class, each inside the one before, and the members of the class in
paragraphs with empty lines between them.

**Told twice.** The members for the capabilities and the types of the accessors go through the lists
and the types that the generator goes through too. Two tables say the same without them, and the
members are those of the tables (`mixinMembers_eq`, `accessorMembers_eq`).
-/

namespace ModelSignatures

/-- A class or a module without arguments by its path, which is told from the outermost scope. -/
def absoluteType (path : String) : ClassType :=
  ⟨⟨true, ConstantPath.segments path⟩, []⟩

/-! ### Members -/

namespace Member

/-- A member with annotations, but without comments and empty lines. -/
def of (annotations : List String) (content : MemberContent) : Member :=
  ⟨content, [], annotations, none, false⟩

/-- The members of some paragraphs, with an empty line before each paragraph that has any, but for
the first in a body. -/
def joined (first : Bool) : List (List Member) → List Member
  | [] => []
  | [] :: paragraphs => joined first paragraphs
  | (m :: ms) :: paragraphs => { m with blankBefore := !first } :: (ms ++ joined false paragraphs)

theorem joined_append (first : Bool) (paragraphs others : List (List Member)) :
    joined first (paragraphs ++ others) =
      joined first paragraphs ++ joined (first && paragraphs.all List.isEmpty) others := by
  induction paragraphs generalizing first with
  | nil => simp [joined]
  | cons paragraph paragraphs ih =>
    cases paragraph with
    | nil => simpa [joined] using ih first
    | cons m ms => simpa [joined] using ih false

end Member

/-- The members for a capability: its module is included, and that of its class methods extends the
class, if there is one. -/
def Capability.members (c : Capability) : List Member :=
  .of [] (.including (absoluteType c.modulePath)) ::
    (c.classMethodsPath.map fun path ↦ .of [] (.extending (absoluteType path))).toList

/-- The members for each capability, in the order in which they stand in a class. -/
def mixinTable : List (Capability × List Member) :=
  [(.model, [.of [] (.including ⟨⟨true, ["ActiveModel", "Model"]⟩, []⟩)]),
    (.attributes,
      [.of [] (.including ⟨⟨true, ["ActiveModel", "Attributes"]⟩, []⟩),
        .of [] (.extending ⟨⟨true, ["ActiveModel", "Attributes", "ClassMethods"]⟩, []⟩)]),
    (.securePassword,
      [.of [] (.including ⟨⟨true, ["ActiveModel", "SecurePassword"]⟩, []⟩),
        .of [] (.extending ⟨⟨true, ["ActiveModel", "SecurePassword", "ClassMethods"]⟩, []⟩)]),
    (.validations,
      [.of [] (.including ⟨⟨true, ["ActiveModel", "Validations"]⟩, []⟩),
        .of [] (.extending ⟨⟨true, ["ActiveModel", "Validations", "ClassMethods"]⟩, []⟩)])]

/-- The paths of the modules are those of the table. -/
theorem Capability.map_members_all :
    Capability.all.map (fun c ↦ (c, c.members)) = mixinTable := by
  rfl

/-- The types of attributes that say something of their values. -/
def valueTypeTable : List (AttributeType × TypeExpr) :=
  [(.bigInteger, .classRef ⟨false, ["Integer"]⟩ []),
    (.binary, .classRef ⟨false, ["String"]⟩ []),
    (.boolean, .base .bool),
    (.date, .classRef ⟨false, ["Date"]⟩ []),
    (.datetime, .union [.classRef ⟨false, ["DateTime"]⟩ [],
      .classRef ⟨false, ["ActiveSupport", "TimeWithZone"]⟩ []]),
    (.decimal, .classRef ⟨false, ["BigDecimal"]⟩ []),
    (.float, .classRef ⟨false, ["Float"]⟩ []),
    (.immutableString, .classRef ⟨false, ["String"]⟩ []),
    (.integer, .classRef ⟨false, ["Integer"]⟩ []),
    (.string, .classRef ⟨false, ["String"]⟩ []),
    (.time, .classRef ⟨false, ["Time"]⟩ [])]

/-- A type of attributes that is not in the table says nothing of their values. -/
theorem AttributeType.signatureType_eq (t : AttributeType) :
    t.signatureType = (valueTypeTable.lookup t).getD (.base .untyped) := by
  cases t <;> rfl

/-- The type of a password. -/
def stringType : TypeExpr := AttributeType.classNamed ["String"]

/-- The paragraphs for a password: its attributes, its methods and, for the password without a name
of its own, a second name of the method that authenticates it. -/
def passwordParagraphs (name : String) : List (List Member) :=
  [[.of [] (.attr .reader name (.optional stringType)),
      .of [] (.attr .accessor (name ++ "_confirmation") stringType),
      .of [] (.attr .accessor (name ++ "_challenge") stringType)],
    [.of [] (.method ⟨name.push '=', false, [⟨[⟨.required, stringType, none⟩], stringType⟩]⟩),
      .of [] (.method ⟨name ++ "_salt", false, [⟨[], stringType⟩]⟩),
      .of [] (.method ⟨"authenticate_" ++ name, false, [⟨[⟨.required, stringType, none⟩],
        .union [.base .instanceType, .base .falseType]⟩]⟩)]] ++
    if name = ClassDescriptor.defaultPassword then
      [[.of [] (.aliasing "authenticate" "authenticate_password")]]
    else []

namespace ClassDescriptor

/-- The members for the capabilities of a class that declares them itself. -/
def mixinMembers (d : ClassDescriptor) : List Member :=
  if d.ormSubclass then [] else d.capabilities.toList.flatMap (·.members)

/-- Whichever capabilities a class has, their members stand in the order of the table. -/
theorem mixinMembers_eq (d : ClassDescriptor) :
    d.mixinMembers =
      if d.ormSubclass then []
      else mixinTable.flatMap fun entry ↦ if d.hasCapability entry.1 then entry.2 else [] := by
  have hlisted : ∀ cs : List Capability, (cs.filter d.capabilities.contains).flatMap (·.members) =
      (cs.map fun c ↦ (c, c.members)).flatMap
        fun entry ↦ if d.hasCapability entry.1 then entry.2 else [] := by
    intro cs
    induction cs with
    | nil => rfl
    | cons c cs ih =>
      rw [List.map_cons, List.flatMap_cons, ← ih, List.filter_cons, hasCapability]
      by_cases hc : d.capabilities.contains c = true
      · rw [if_pos hc, if_pos hc, List.flatMap_cons]
      · rw [if_neg hc, if_neg hc, List.nil_append]
  rw [mixinMembers, CapabilitySet.toList, hlisted, Capability.map_members_all]

/-- The members for an attribute: a method that reads it, without effect, and one that writes it. -/
def accessorMembers (d : ClassDescriptor) (a : AttributeDecl) : List Member :=
  let type := d.valueType a
  [.of ["pure"] (.method ⟨a.name, false, [⟨[], type⟩]⟩),
    .of [] (.method ⟨a.name.push '=', false, [⟨[⟨.required, type, some "value"⟩], type⟩]⟩)]

/-- The values of an attribute have the type of the table, and may be missing unless the attribute
has a default or is validated to be present. -/
theorem accessorMembers_eq (d : ClassDescriptor) (a : AttributeDecl) :
    d.accessorMembers a =
      let known := (valueTypeTable.lookup a.type).getD (.base .untyped)
      let type :=
        if a.hasDefault = true ∨ d.presenceValidated.contains a.name = true then known
        else .optional known
      [.of ["pure"] (.method ⟨a.name, false, [⟨[], type⟩]⟩),
        .of []
          (.method ⟨a.name.push '=', false, [⟨[⟨.required, type, some "value"⟩], type⟩]⟩)] := by
  rw [accessorMembers, valueType, isRequired, isPresenceValidated, AttributeType.signatureType_eq]
  simp only [Bool.or_eq_true]

/-- The paragraphs of the body of a class. -/
def paragraphs (d : ClassDescriptor) : List (List Member) :=
  [d.mixinMembers] ++
    (if d.securePassword then d.passwordAttributes.flatMap passwordParagraphs else []) ++
    if d.hasCapability .attributes then d.attributes.map d.accessorMembers else []

/-- The members of a class. -/
def members (d : ClassDescriptor) : List Member :=
  Member.joined true d.paragraphs

end ClassDescriptor

/-! ### Declarations -/

/-- How a constant is declared, if anything can be declared in it. -/
def ConstantKind.declared? : ConstantKind → Option DeclarationKind
  | ofClass superclass =>
    some (.ofClass ((ConstantPath.explicitSuperclass superclass).map absoluteType))
  | ofModule => some .ofModule
  | ofValue => none

/-- The name of a constant by its segment. -/
def constantName (segment : String) : TypeName := ⟨false, [segment]⟩

/-- The declaration of a constant with some members, without comments. -/
def Declaration.of (kind : DeclarationKind) (segment : String) (members : List Member) :
    Declaration :=
  ⟨kind, constantName segment, [], [], none, members, [], none⟩

namespace ClassDescriptor

/-- The declaration of the first of some segments, with their paths, around those of the others. The
last is the class itself, and what the others are is known of the constants around it. -/
def declarationAlong (d : ClassDescriptor) : List (String × String) → Option Declaration
  | [] => none
  | [(segment, _)] => do
    let kind ← (ConstantKind.ofClass d.superclass).declared?
    return .of kind segment d.members
  | (segment, path) :: inner => do
    let kind ← (← d.enclosing.find? path).declared?
    return .of kind segment [.of [] (.nested (← d.declarationAlong inner))]

/-- The declaration of a class inside those of the constants around it. -/
def declaration (d : ClassDescriptor) : Option Declaration :=
  d.declarationAlong (d.segments.zip d.segmentPaths)

end ClassDescriptor

end ModelSignatures
