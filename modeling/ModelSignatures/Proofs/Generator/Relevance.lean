import Mathlib.Data.List.Forall2
import ModelSignatures.Generator.Signature
import ModelSignatures.Proofs.Generator.Header
import ModelSignatures.Proofs.Generator.Passwords

/-!
# What a signature depends on

Much of a descriptor is never looked at, or only under a condition: the constants that are not
around the class, the capabilities of a class whose base class declares them, the methods of a class
without passwords, the attributes of a class without the capability. What is looked at may differ in
ways that no text shows, such as the order of the methods that authenticate nothing. Descriptors
that differ in such ways only (`LooksLike`) have the same groups of members, the same header and the
same errors, so the same comes of both (`generate_congr`).
-/

namespace ModelSignatures

open ConstantPath (explicitSuperclass)

/-! ### Constants -/

/-- The ways to name no superclass. -/
def namelessSuperclasses : List (Option String) :=
  [none, some "", some "::", some "Object", some "::Object"]

/-- Whether two superclasses are the same or both name none. -/
def SuperclassesAlike (s t : Option String) : Prop :=
  s = t ∨ s ∈ namelessSuperclasses ∧ t ∈ namelessSuperclasses

/-- What names no superclass is none. -/
theorem explicitSuperclass_of_mem {s : Option String} (h : s ∈ namelessSuperclasses) :
    explicitSuperclass s = none := by
  revert s
  decide

/-- Superclasses that are alike are written alike. -/
theorem SuperclassesAlike.explicitSuperclass_eq {s t : Option String}
    (h : SuperclassesAlike s t) : explicitSuperclass s = explicitSuperclass t := by
  rcases h with rfl | ⟨hs, ht⟩
  · rfl
  · rw [explicitSuperclass_of_mem hs, explicitSuperclass_of_mem ht]

/-- Whether what is known of two constants is the same, but for the way to name no superclass. -/
inductive KindsAlike : Option ConstantKind → Option ConstantKind → Prop
  | same (kind : Option ConstantKind) : KindsAlike kind kind
  | ofClass {s t : Option String} (h : SuperclassesAlike s t) :
    KindsAlike (some (.ofClass s)) (some (.ofClass t))

/-! ### Attributes and methods -/

/-- Whether two declarations of an attribute are the same, but for a tag that is not built in. -/
structure AttributeDecl.Alike (a b : AttributeDecl) : Prop where
  name : a.name = b.name
  type : a.type = b.type ∨ a.type.isCustom = true ∧ b.type.isCustom = true
  hasDefault : a.hasDefault = b.hasDefault

/-- A type that is not built in is untyped. -/
theorem AttributeType.signatureType_of_isCustom {t : AttributeType} (h : t.isCustom = true) :
    t.signatureType = .base .untyped := by
  cases t with
  | custom tag => rfl
  | _ => cases h

/-- Attributes that are alike are written with one type. -/
theorem AttributeDecl.Alike.signatureType_eq {a b : AttributeDecl} (h : a.Alike b) :
    a.type.signatureType = b.type.signatureType := by
  rcases h.type with heq | ⟨ha, hb⟩
  · rw [heq]
  · rw [AttributeType.signatureType_of_isCustom ha, AttributeType.signatureType_of_isCustom hb]

/-- Whether a method's name starts like that of one that authenticates a password. -/
def authenticates (method : String) : Bool :=
  "authenticate_".toList.isPrefixOf method.toList

/-- Whether some methods are the same as others, however often and in whatever order, but for the
order in which those that may authenticate a password first come. -/
structure MethodsAlike (methods others : List String) : Prop where
  mem_iff : ∀ method, method ∈ methods ↔ method ∈ others
  order : (methods.filter authenticates).eraseDups = (others.filter authenticates).eraseDups

namespace ClassDescriptor

/-- Whether two descriptors differ only in what no signature shows. -/
structure LooksLike (d e : ClassDescriptor) : Prop where
  qualifiedName : d.qualifiedName = e.qualifiedName
  ormSubclass : d.ormSubclass = e.ormSubclass
  securePassword : d.securePassword = e.securePassword
  superclass : SuperclassesAlike d.superclass e.superclass
  /-- Only the constants around the class matter. -/
  enclosing : ∀ path ∈ d.segmentPaths.dropLast,
    KindsAlike (d.enclosing.find? path) (e.enclosing.find? path)
  /-- Of a class that is stored by a base class, only one capability matters. -/
  capabilities : ∀ c, d.ormSubclass = false ∨ c = .attributes →
    d.hasCapability c = e.hasCapability c
  attributes : d.hasCapability .attributes = true →
    List.Forall₂ AttributeDecl.Alike d.attributes e.attributes
  /-- Only the attributes without default may lack a value. -/
  presenceValidated : d.hasCapability .attributes = true →
    ∀ a ∈ d.attributes, a.hasDefault = false →
      d.isPresenceValidated a.name = e.isPresenceValidated a.name
  instanceMethods : d.securePassword = true → MethodsAlike d.instanceMethods e.instanceMethods

variable {d e : ClassDescriptor}

/-! ### Passwords -/

/-- A method that makes a name a password starts like one that authenticates it. -/
theorem authenticates_of_password? {method name : String} (h : d.password? method = some name) :
    authenticates method = true := by
  rw [(d.password?_eq_some_iff.1 h).1, authenticates, List.isPrefixOf_iff_prefix,
    String.toList_append]
  exact List.prefix_append _ _

/-- The passwords rest on those methods that may authenticate one, each once. -/
theorem passwordAttributes_eq_filterMap (d : ClassDescriptor) :
    d.passwordAttributes =
      (d.instanceMethods.filter authenticates).eraseDups.filterMap d.password? := by
  rw [passwordAttributes_eq, ← eraseDups_filterMap d.eq_of_password?_eq, List.filterMap_filter]
  refine congrArg List.eraseDups (List.filterMap_congr fun method _ ↦ ?_)
  cases hname : d.password? method with
  | none => simp
  | some name => rw [if_pos (authenticates_of_password? hname)]

/-- Passwords depend only on what is alike in the methods. -/
theorem passwordAttributes_congr (h : MethodsAlike d.instanceMethods e.instanceMethods) :
    d.passwordAttributes = e.passwordAttributes := by
  have hpassword : d.password? = e.password? := by
    funext method
    have hconfirmed : d.isConfirmed = e.isConfirmed := by
      funext name
      rw [Bool.eq_iff_iff, isConfirmed_iff, isConfirmed_iff, h.mem_iff]
    rw [password?, password?, hconfirmed]
  rw [passwordAttributes_eq_filterMap, passwordAttributes_eq_filterMap, h.order, hpassword]

namespace LooksLike

variable (h : d.LooksLike e)
include h

/-- The password methods of classes that look alike are the same. -/
theorem passwordMethods_eq : d.passwordMethods = e.passwordMethods := by
  rw [passwordMethods, passwordMethods, ← h.securePassword]
  split
  next hpassword => rw [passwordAttributes_congr (h.instanceMethods hpassword)]
  next => rfl

/-! ### Capabilities -/

/-- The mixins of classes that look alike are the same. -/
theorem mixins_eq : d.mixins = e.mixins := by
  rw [mixins, mixins, ← h.ormSubclass]
  cases horm : d.ormSubclass with
  | true => rfl
  | false =>
    have hsame : d.capabilities = e.capabilities :=
      CapabilitySet.ext_contains fun c ↦ h.capabilities c (.inl horm)
    rw [hsame]

/-! ### Attributes -/

/-- Attributes that are alike have the same lines. -/
theorem accessorLines_eq (hcapable : d.hasCapability .attributes = true) {a b : AttributeDecl}
    (ha : a ∈ d.attributes) (hab : a.Alike b) : d.accessorLines a = e.accessorLines b := by
  have hrequired : d.isRequired a = e.isRequired b := by
    rw [isRequired, isRequired, ← hab.hasDefault, ← hab.name]
    cases hdefault : a.hasDefault with
    | true => rfl
    | false => rw [h.presenceValidated hcapable a ha hdefault]
  rw [accessorLines, accessorLines, valueType, valueType, hrequired, hab.signatureType_eq, hab.name]

/-- Alike attributes have the same lines, or fail with the same name. -/
theorem accessorBlocks_eq (hcapable : d.hasCapability .attributes = true)
    {as bs : List AttributeDecl}
    (hall : List.Forall₂ (fun a b ↦ a ∈ d.attributes ∧ a.Alike b) as bs) :
    d.accessorBlocks as = e.accessorBlocks bs := by
  induction hall with
  | nil => rfl
  | cons hab _ ih =>
    rw [accessorBlocks, accessorBlocks, ih, hab.2.name, h.qualifiedName,
      h.accessorLines_eq hcapable hab.1 hab.2]

/-- The accessors of classes that look alike are the same. -/
theorem accessors_eq : d.accessors = e.accessors := by
  rw [accessors, accessors, ← h.capabilities .attributes (.inr rfl)]
  split
  next hcapable =>
    have hall : List.Forall₂ (fun a b ↦ a ∈ d.attributes ∧ a.Alike b) d.attributes e.attributes :=
      (List.forall₂_and_left _ _).2 ⟨fun _ ha ↦ ha, h.attributes hcapable⟩
    rw [h.accessorBlocks_eq hcapable hall]
  next => rfl

/-! ### The namespace -/

omit h in
/-- Classes are opened alike with superclasses that are alike. -/
theorem openingLine_congr {s t : Option String} (hst : SuperclassesAlike s t)
    (segment path : String) :
    openingLine segment path (.ofClass s) = openingLine segment path (.ofClass t) := by
  rw [openingLine, openingLine, hst.explicitSuperclass_eq]

omit h in
/-- Alike constants are opened by the same line, or fail alike. -/
theorem kindOf_bind_congr {path : String}
    (hknown : KindsAlike (d.enclosing.find? path) (e.enclosing.find? path)) (segment : String)
    (next : String → Except GenerationError (List String)) :
    (d.kindOf path >>= fun kind ↦ openingLine segment path kind >>= next) =
      (e.kindOf path >>= fun kind ↦ openingLine segment path kind >>= next) := by
  rw [kindOf, kindOf]
  generalize d.enclosing.find? path = known at hknown
  generalize e.enclosing.find? path = known' at hknown
  cases hknown with
  | same => rfl
  | ofClass hst => exact congrArg (· >>= next) (openingLine_congr hst segment path)

/-- The opening lines depend only on what is alike in the constants around the class. -/
theorem openingLines_eq {constants : List (String × String)}
    (hconstants : ∀ path ∈ (constants.map Prod.snd).dropLast,
      KindsAlike (d.enclosing.find? path) (e.enclosing.find? path)) :
    d.openingLines constants = e.openingLines constants := by
  fun_induction ClassDescriptor.openingLines d constants with
  | case1 => rfl
  | case2 segment path => rw [openingLines, openingLine_congr h.superclass]
  | case3 segment path inner hne ih =>
    have hnonempty : inner.map Prod.snd ≠ [] := mt List.map_eq_nil_iff.1 hne
    rw [List.map_cons, List.dropLast_cons_of_ne_nil hnonempty, List.forall_mem_cons] at hconstants
    rw [kindOf_bind_congr hconstants.1, ih hconstants.2, openingLines]
    exact hne

/-- The headers of classes that look alike are the same. -/
theorem header_eq : d.header = e.header := by
  have hsegments : e.segments = d.segments := congrArg ConstantPath.segments h.qualifiedName.symm
  have hpaths : e.segmentPaths = d.segmentPaths :=
    congrArg ConstantPath.segmentPaths h.qualifiedName.symm
  have hlength : d.segmentPaths.length = d.segments.length := length_pathsFrom _ _
  have hlines : d.openingLines (d.segments.zip d.segmentPaths) =
      e.openingLines (d.segments.zip d.segmentPaths) := by
    refine h.openingLines_eq ?_
    rw [List.map_snd_zip hlength.le]
    exact h.enclosing
  rw [header, header, hsegments, hpaths, hlines, h.qualifiedName]

end LooksLike

/-- Of descriptors that differ only in what no signature shows comes the same. -/
theorem generate_congr (h : d.LooksLike e) : d.generate = e.generate := by
  have hfooter : d.footer = e.footer := by
    rw [footer, footer, segments, segments, h.qualifiedName]
  rw [generate, generate, h.accessors_eq, h.mixins_eq, h.passwordMethods_eq, h.header_eq, hfooter,
    h.qualifiedName]

/-- A class that is stored by a base class, told in two ways. -/
theorem generate_congr_sample :
    let d : ClassDescriptor :=
      { named "Admin::User" with
        superclass := some "::Object"
        enclosing := NameMap.empty.insert "Admin" (.ofClass (some "Object"))
        capabilities := (CapabilitySet.empty.insert .attributes).insert .model
        attributes := [⟨"price", .custom "money", false⟩, ⟨"age", .integer, true⟩]
        presenceValidated := NameMap.empty.insert "age" ()
        securePassword := true
        instanceMethods := ["save", "authenticate_pin", "pin_confirmation", "authenticate_x"]
        ormSubclass := true }
    let e : ClassDescriptor :=
      { d with
        superclass := none
        enclosing := (NameMap.empty.insert "Admin" (.ofClass (some ""))).insert "User" .ofValue
        capabilities := CapabilitySet.empty.insert .attributes
        attributes := [⟨"price", .custom "cash", false⟩, ⟨"age", .integer, true⟩]
        presenceValidated := NameMap.empty.insert "email" ()
        instanceMethods := ["pin_confirmation", "authenticate_pin", "authenticate_x",
          "authenticate_pin", "save"] }
    d.LooksLike e ∧ d.generate = e.generate := by
  intro d e
  have hpaths : d.segmentPaths.dropLast = ["Admin"] := by decide +kernel
  have hmethods : d.instanceMethods.filter authenticates = ["authenticate_pin", "authenticate_x"] ∧
      e.instanceMethods.filter authenticates =
        ["authenticate_pin", "authenticate_x", "authenticate_pin"] := by decide +kernel
  have hattributes : List.Forall₂ AttributeDecl.Alike d.attributes e.attributes :=
    .cons ⟨rfl, .inr ⟨rfl, rfl⟩, rfl⟩ (.cons ⟨rfl, .inl rfl, rfl⟩ .nil)
  have h : d.LooksLike e := by
    refine ⟨rfl, rfl, rfl, .inr (by decide), ?_, ?_, fun _ ↦ hattributes, fun _ ↦ ?_,
      fun _ ↦ ⟨?_, ?_⟩⟩
    · rw [hpaths, List.forall_mem_singleton]
      exact .ofClass (.inr (by decide))
    · rintro c (⟨⟨⟩⟩ | rfl)
      rfl
    · decide +kernel
    · intro method
      simp [d, e, or_comm, or_left_comm]
    · rw [hmethods.1, hmethods.2]
      decide +kernel
  exact ⟨h, generate_congr h⟩

end ClassDescriptor

end ModelSignatures
