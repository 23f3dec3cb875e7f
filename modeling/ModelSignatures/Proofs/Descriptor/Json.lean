import Mathlib.Tactic.MkIffOfInductiveProp
import ModelSignatures.Descriptor.Json
import ModelSignatures.Generator.Signature
import ModelSignatures.Proofs.Json.Fields

/-!
# Descriptors through JSON

A descriptor is read from its JSON form as it was written, up to the types of its attributes: they
are written as tags, so a custom type with a built-in tag comes back as the built-in one
(`ClassDescriptor.ofJson?_toJson`). Reading never makes a descriptor with such a type. What is read
of an object is said field by field (`ClassDescriptor.ToldBy`), each in terms of the last value of
its key.
-/

namespace ModelSignatures

/-! ### Capabilities and kinds -/

/-- A capability is read back from the value that is written for it. -/
@[simp] theorem Capability.ofJson?_toJson (c : Capability) : ofJson? c.toJson = some c :=
  ofName?_name c

/-- The kind of a constant is read back from the value that is written for it. -/
@[simp] theorem ConstantKind.ofJson?_toJson (kind : ConstantKind) :
    ofJson? kind.toJson = some kind := by
  rcases kind with (_ | superclass) | _ | _ <;>
    simp [toJson, ofJson?, ofFields?, Json.required?, Json.optional?, Json.lastValue?,
      Json.asString?, Json.asNullableString?]

/-! ### Types of attributes -/

namespace AttributeType

/-- A type that is what its tag stands for: a custom one has none of the built-in tags. -/
def WellTagged (t : AttributeType) : Prop :=
  ∀ tag, t = custom tag → ∀ b ∈ builtin, b.tag ≠ tag

theorem mem_builtin_or_custom (t : AttributeType) : t ∈ builtin ∨ ∃ tag, t = custom tag := by
  cases t <;> simp [builtin]

/-- A type of the table is well tagged. -/
theorem wellTagged_of_mem_builtin {t : AttributeType} (h : t ∈ builtin) : t.WellTagged := by
  rintro tag rfl
  simp [builtin] at h

/-- What is read of a tag is well tagged. -/
theorem wellTagged_ofTag (text : String) : (ofTag text).WellTagged := by
  unfold ofTag
  cases h : builtin.find? fun t ↦ t.tag == text with
  | some t => exact wellTagged_of_mem_builtin (List.mem_of_find?_eq_some h)
  | none =>
    rintro tag ⟨⟩ b hb heq
    simpa [heq] using List.find?_eq_none.1 h b hb

/-- A type is what its tag stands for unless it is a custom one with a built-in tag. -/
theorem ofTag_tag_iff {t : AttributeType} : ofTag t.tag = t ↔ t.WellTagged := by
  refine ⟨fun h ↦ h ▸ wellTagged_ofTag t.tag, fun h ↦ ?_⟩
  rcases t.mem_builtin_or_custom with hmem | ⟨text, rfl⟩
  · exact ofTag_tag_of_mem_builtin hmem
  · have hnone : builtin.find? (fun t ↦ t.tag == text) = none :=
      List.find?_eq_none.2 fun b hb heq ↦ h text rfl b hb (beq_iff_eq.1 heq)
    rw [tag, ofTag, hnone, Option.getD_none]

end AttributeType

namespace AttributeDecl

/-- The attribute with the type that its tag stands for. -/
def retagged (a : AttributeDecl) : AttributeDecl :=
  { a with type := .ofTag a.type.tag }

/-- An attribute is read back with the type that its tag names. -/
theorem ofJson?_toJson (a : AttributeDecl) : ofJson? a.toJson = some a.retagged := by
  simp [toJson, ofJson?, retagged, Json.asRecord?, Json.required?, Json.optional?, Json.lastValue?,
    Json.asString?, Json.asBool?]

/-- An attribute is written as the one that is read back is. -/
theorem toJson_retagged (a : AttributeDecl) : a.retagged.toJson = a.toJson := by
  simp only [toJson, retagged, AttributeType.tag_ofTag]

/-- An attribute is read back unchanged exactly if its type is well tagged. -/
theorem retagged_eq_self_iff (a : AttributeDecl) : a.retagged = a ↔ a.type.WellTagged := by
  rw [← AttributeType.ofTag_tag_iff]
  obtain ⟨name, type, hasDefault⟩ := a
  simp [retagged]

/-- Every attribute that is read is well tagged. -/
theorem wellTagged_of_ofJson? {j : Json} {a : AttributeDecl} (h : ofJson? j = some a) :
    a.type.WellTagged := by
  simp only [ofJson?, Option.bind_eq_bind, Option.bind_eq_some_iff, Option.pure_def,
    Option.some.injEq] at h
  obtain ⟨fields, -, name, -, tag, -, hasDefault, -, rfl⟩ := h
  exact AttributeType.wellTagged_ofTag tag

end AttributeDecl

namespace ClassDescriptor

/-! ### The constants around a class -/

/-- The kinds of the constants around a class are those that are read of the last value of each
path, and every value that counts has to be one that is read. -/
theorem enclosingOfJson?_object {fields : List (String × Json)} {m : NameMap ConstantKind} :
    enclosingOfJson? (.object fields) = some m ↔
      ∀ path, (Json.lastValue? path fields).map ConstantKind.ofJson? =
        (m.find? path).map some := by
  rw [← Json.map_ofList_mapM_eq_some_iff]
  simp only [enclosingOfJson?, Json.asObject?, Option.bind_eq_bind, Option.bind_some]
  rw [Option.map_eq_bind]
  rfl

/-- The kinds of the constants around a class are read back. -/
theorem enclosingOfJson?_toJson (m : NameMap ConstantKind) :
    enclosingOfJson? (.object (m.entries.map fun (path, kind) ↦ (path, kind.toJson))) = some m := by
  refine enclosingOfJson?_object.2 fun path ↦ ?_
  rw [Json.lastValue?_eq_lookup, ← List.map_reverse, NameMap.lookup_map,
    NameMap.lookup_reverse m.pairwise_ne, Option.map_map, NameMap.find?]
  congr 1
  exact funext ConstantKind.ofJson?_toJson

/-! ### What the fields of a descriptor tell -/

/-- Reads a set of capabilities, listed in any order and as often as one likes. -/
def capabilitiesOfJson? (j : Json) : Option CapabilitySet :=
  (Json.asListOf? Capability.ofJson? j).map CapabilitySet.empty.insertAll

/-- Reads a set of names, listed in any order and as often as one likes. -/
def namesOfJson? (j : Json) : Option NameSet :=
  (Json.asListOf? Json.asString? j).map NameSet.ofList

/-- The fields of a descriptor, each with what is read of it. -/
@[mk_iff]
structure ToldBy (d : ClassDescriptor) (fields : List (String × Json)) : Prop where
  qualifiedName :
    Json.required? fields "qualified_name" Json.asString? = some d.qualifiedName
  superclass :
    Json.optional? fields "superclass" none Json.asNullableString? = some d.superclass
  enclosing : Json.optional? fields "enclosing" .empty enclosingOfJson? = some d.enclosing
  capabilities :
    Json.optional? fields "capabilities" .empty capabilitiesOfJson? = some d.capabilities
  attributes :
    Json.optional? fields "attributes" [] (Json.asListOf? AttributeDecl.ofJson?) =
      some d.attributes
  presenceValidated :
    Json.optional? fields "presence_validated" .empty namesOfJson? = some d.presenceValidated
  securePassword :
    Json.optional? fields "secure_password" false Json.asBool? = some d.securePassword
  instanceMethods :
    Json.optional? fields "instance_methods" [] (Json.asListOf? Json.asString?) =
      some d.instanceMethods
  ormSubclass : Json.optional? fields "orm_subclass" false Json.asBool? = some d.ormSubclass

/-- The capabilities are a set that is filled from the list of them. -/
theorem optional?_capabilities (fields : List (String × Json)) :
    Json.optional? fields "capabilities" .empty capabilitiesOfJson? =
      (Json.optional? fields "capabilities" [] (Json.asListOf? Capability.ofJson?)).map
        CapabilitySet.empty.insertAll :=
  Json.optional?_map CapabilitySet.empty.insertAll fields _ [] _

/-- The names that are validated are a set that is filled from the list of them. -/
theorem optional?_presenceValidated (fields : List (String × Json)) :
    Json.optional? fields "presence_validated" .empty namesOfJson? =
      (Json.optional? fields "presence_validated" [] (Json.asListOf? Json.asString?)).map
        NameSet.ofList :=
  Json.optional?_map NameSet.ofList fields _ [] _

/-- A descriptor is read of a record exactly if its fields tell it. -/
theorem ofJson?_eq_some_iff {j : Json} {d : ClassDescriptor} :
    ofJson? j = some d ↔ ∃ fields, j.asRecord? keys = some fields ∧ d.ToldBy fields := by
  simp only [ofJson?, Option.bind_eq_bind, Option.bind_eq_some_iff, Option.pure_def,
    Option.some.injEq]
  refine exists_congr fun fields ↦ and_congr_right fun _ ↦ ?_
  constructor
  · rintro ⟨_, hname, _, hsuper, _, henclosing, _, hcaps, _, hattrs, _, hvalidated, _, hpassword,
      _, hmethods, _, horm, rfl⟩
    exact ⟨hname, hsuper, henclosing, by rw [optional?_capabilities, hcaps, Option.map_some],
      hattrs, by rw [optional?_presenceValidated, hvalidated, Option.map_some], hpassword,
      hmethods, horm⟩
  · rintro ⟨hname, hsuper, henclosing, hcaps, hattrs, hvalidated, hpassword, hmethods, horm⟩
    -- A set is told by any list of its members, and reading takes the one that is written.
    rw [optional?_capabilities, Option.map_eq_some_iff] at hcaps
    rw [optional?_presenceValidated, Option.map_eq_some_iff] at hvalidated
    obtain ⟨caps, hcaps, hcapsEq⟩ := hcaps
    obtain ⟨validated, hvalidated, hvalidatedEq⟩ := hvalidated
    refine ⟨_, hname, _, hsuper, _, henclosing, caps, hcaps, _, hattrs, validated, hvalidated, _,
      hpassword, _, hmethods, _, horm, ?_⟩
    rw [hcapsEq, hvalidatedEq]

/-! ### The way back -/

/-- The descriptor with the types that its attributes' tags stand for. -/
def retagged (d : ClassDescriptor) : ClassDescriptor :=
  { d with attributes := d.attributes.map AttributeDecl.retagged }

/-- Every attribute's type is what its tag stands for. -/
def WellTagged (d : ClassDescriptor) : Prop :=
  ∀ a ∈ d.attributes, a.type.WellTagged

/-- A text that may be missing is read back. -/
theorem nullable_asNullableString? (text : Option String) :
    (nullable text).asNullableString? = some text := by
  cases text <;> rfl

/-- A set of capabilities is read back. -/
theorem capabilitiesOfJson?_toJson (s : CapabilitySet) :
    capabilitiesOfJson? (.array (s.toList.map Capability.toJson)) = some s := by
  rw [capabilitiesOfJson?, Json.asListOf?_map (g := id) Capability.ofJson?_toJson, List.map_id,
    Option.map_some, CapabilitySet.insertAll_toList]

/-- A list of texts is read back. -/
theorem stringsOfJson?_toJson (texts : List String) :
    Json.asListOf? Json.asString? (.array (texts.map .string)) = some texts := by
  have hread (text : String) : (Json.string text).asString? = some (id text) := rfl
  rw [Json.asListOf?_map hread, List.map_id]

/-- A set of names is read back. -/
theorem namesOfJson?_toJson (s : NameSet) :
    namesOfJson? (.array (s.names.map .string)) = some s := by
  rw [namesOfJson?, stringsOfJson?_toJson, Option.map_some, NameSet.ofList_names]

/-- A descriptor comes back from its JSON form with the types that its attributes' tags stand
for. -/
theorem ofJson?_toJson (d : ClassDescriptor) : ofJson? d.toJson = some d.retagged := by
  refine ofJson?_eq_some_iff.2 ⟨_, rfl, ?_⟩
  -- Every key is written once, so the last value of a key is the one written for it.
  exact
    { qualifiedName := rfl
      superclass := nullable_asNullableString? d.superclass
      enclosing := enclosingOfJson?_toJson d.enclosing
      capabilities := capabilitiesOfJson?_toJson d.capabilities
      attributes := Json.asListOf?_map AttributeDecl.ofJson?_toJson d.attributes
      presenceValidated := namesOfJson?_toJson d.presenceValidated
      securePassword := rfl
      instanceMethods := stringsOfJson?_toJson d.instanceMethods
      ormSubclass := rfl }

/-- A descriptor is written as the one that is read back is. -/
theorem toJson_retagged (d : ClassDescriptor) : d.retagged.toJson = d.toJson := by
  have hattributes : d.retagged.attributes.map AttributeDecl.toJson =
      d.attributes.map AttributeDecl.toJson := by
    rw [retagged, List.map_map]
    exact List.map_congr_left fun a _ ↦ a.toJson_retagged
  rw [toJson, toJson, hattributes]
  rfl

/-- A descriptor is read back unchanged exactly if its attributes are well tagged. -/
theorem retagged_eq_self_iff {d : ClassDescriptor} : d.retagged = d ↔ d.WellTagged := by
  have hmap : d.retagged = d ↔ d.attributes.map AttributeDecl.retagged = d.attributes.map id := by
    obtain ⟨⟩ := d
    simp [retagged]
  rw [hmap, List.map_inj_left]
  exact forall₂_congr fun a _ ↦ a.retagged_eq_self_iff

/-- No descriptor that is read has a custom type with a built-in tag. -/
theorem wellTagged_of_ofJson? {j : Json} {d : ClassDescriptor} (h : ofJson? j = some d) :
    d.WellTagged := by
  obtain ⟨fields, -, htold⟩ := ofJson?_eq_some_iff.1 h
  intro a ha
  have hread := htold.attributes
  unfold Json.optional? at hread
  split at hread
  next value _ =>
    obtain ⟨items, -, hitems⟩ := Option.bind_eq_some_iff.1 hread
    obtain ⟨item, -, hitem⟩ := List.mem_map.1 ((mem_of_mapM_eq_some hitems a).1 ha)
    exact AttributeDecl.wellTagged_of_ofJson? hitem
  next =>
    rw [← Option.some.inj hread] at ha
    exact absurd ha List.not_mem_nil

/-- Descriptors survive the way through JSON. A descriptor comes back as it was exactly if every
type is what its tag stands for, and its JSON form comes back in any case. Neither a tag nor reading
ever makes another type, so a descriptor that was read is the same and has the same signature after
it has been written and read once more. -/
theorem survives_json :
    (∀ d : ClassDescriptor, ofJson? d.toJson = some d ↔ d.WellTagged) ∧
      (∀ d : ClassDescriptor, (ofJson? d.toJson).map toJson = some d.toJson) ∧
      (∀ text, (AttributeType.ofTag text).WellTagged) ∧
      ∀ (j : Json) (d : ClassDescriptor), ofJson? j = some d →
        d.WellTagged ∧ ofJson? d.toJson = some d ∧
          (ofJson? d.toJson).map generate = some d.generate := by
  have hiff (d : ClassDescriptor) : ofJson? d.toJson = some d ↔ d.WellTagged := by
    rw [ofJson?_toJson, Option.some.injEq, retagged_eq_self_iff]
  refine ⟨hiff, fun d ↦ ?_, AttributeType.wellTagged_ofTag, fun j d h ↦ ?_⟩
  · rw [ofJson?_toJson, Option.map_some, toJson_retagged]
  · have htagged := wellTagged_of_ofJson? h
    have hback := (hiff d).2 htagged
    exact ⟨htagged, hback, by rw [hback, Option.map_some]⟩

/-- A descriptor in another order, with a set that repeats a member and a superclass of null. -/
theorem survives_json_sample :
    let j : Json := .object [
      ("capabilities", .array [.string "validations", .string "model", .string "validations"]),
      ("superclass", .null),
      ("enclosing", .object [("A::B", .object [("kind", .string "class")]),
        ("A", .object [("kind", .string "module"), ("superclass", .bool true)])]),
      ("attributes", .array [.object [("type", .string "uuid"), ("name", .string "token")]]),
      ("qualified_name", .string "A::B::Foo")]
    let d : ClassDescriptor :=
      { ClassDescriptor.named "A::B::Foo" with
        enclosing := .ofList [("A", .ofModule), ("A::B", .ofClass none)]
        capabilities := ⟨true, false, false, true⟩
        attributes := [⟨"token", .custom "uuid", false⟩] }
    ofJson? j = some d ∧ d.WellTagged ∧ ofJson? d.toJson = some d ∧
      (ofJson? d.toJson).map generate = some d.generate := by
  intro j d
  have h : ofJson? j = some d := by rfl
  exact ⟨h, survives_json.2.2.2 j d h⟩

end ClassDescriptor

end ModelSignatures
