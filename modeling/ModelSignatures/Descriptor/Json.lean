import ModelSignatures.Descriptor.Basic
import ModelSignatures.Json.Basic

/-!
# Descriptors as JSON

How a descriptor is written as a JSON value, and which values are read as one. Writing has one form
for each descriptor. Reading takes more: fields that say nothing may be left out, unknown ones are
passed over, and a record may be an array of its values.
-/

namespace ModelSignatures

/-! ### Capabilities -/

/-- The JSON form of a capability, its name. -/
def Capability.toJson (c : Capability) : Json :=
  .string c.name

/-- Reads a capability: its name, or an object whose only key is its name and has the value null. -/
def Capability.ofJson? (j : Json) : Option Capability :=
  match j, j.asObject? with
  | .string text, _ => ofName? text
  | _, some [(text, .null)] => ofName? text
  | _, _ => none

/-! ### Kinds of constants -/

namespace ConstantKind

/-- The JSON form of a kind, without a superclass where there is none. -/
def toJson : ConstantKind → Json
  | ofClass none => .object [("kind", .string "class")]
  | ofClass (some superclass) =>
    .object [("kind", .string "class"), ("superclass", .string superclass)]
  | ofModule => .object [("kind", .string "module")]
  | ofValue => .object [("kind", .string "value")]

/-- Reads the kind that an object tells. -/
def ofFields? (fields : List (String × Json)) : Option ConstantKind := do
  match ← Json.required? fields "kind" Json.asString? with
  | "class" => (Json.optional? fields "superclass" none Json.asNullableString?).map ofClass
  | "module" => some ofModule
  | "value" => some ofValue
  | _ => none

/-- Reads a kind, from an object or from an array that begins with the name of the kind. -/
def ofJson? : Json → Option ConstantKind
  | .object fields => ofFields? fields
  | .array [.string "class"] => some (ofClass none)
  | .array [.string "class", superclass] => superclass.asNullableString?.map ofClass
  | .array [.string "module"] => some ofModule
  | .array [.string "value"] => some ofValue
  | _ => none

end ConstantKind

/-! ### Attributes -/

namespace AttributeDecl

/-- The keys of an attribute, in the order in which an array gives their values. -/
def keys : List String := ["name", "type", "has_default"]

/-- The JSON form of an attribute, with all its fields. -/
def toJson (a : AttributeDecl) : Json :=
  .object [("name", .string a.name), ("type", .string a.type.tag),
    ("has_default", .bool a.hasDefault)]

/-- Reads an attribute. -/
def ofJson? (j : Json) : Option AttributeDecl := do
  let fields ← j.asRecord? keys
  let name ← Json.required? fields "name" Json.asString?
  let tag ← Json.required? fields "type" Json.asString?
  let hasDefault ← Json.optional? fields "has_default" false Json.asBool?
  return { name, type := .ofTag tag, hasDefault }

end AttributeDecl

/-! ### Descriptors -/

namespace ClassDescriptor

/-- The keys of a descriptor, in the order in which an array gives their values. -/
def keys : List String :=
  ["qualified_name", "superclass", "enclosing", "capabilities", "attributes", "presence_validated",
    "secure_password", "instance_methods", "orm_subclass"]

/-- A text or null. -/
def nullable : Option String → Json
  | some text => .string text
  | none => .null

/-- The JSON form of a descriptor, with all its fields. -/
def toJson (d : ClassDescriptor) : Json :=
  .object [
    ("qualified_name", .string d.qualifiedName),
    ("superclass", nullable d.superclass),
    ("enclosing", .object (d.enclosing.entries.map fun (path, kind) ↦ (path, kind.toJson))),
    ("capabilities", .array (d.capabilities.toList.map Capability.toJson)),
    ("attributes", .array (d.attributes.map AttributeDecl.toJson)),
    ("presence_validated", .array (d.presenceValidated.names.map .string)),
    ("secure_password", .bool d.securePassword),
    ("instance_methods", .array (d.instanceMethods.map .string)),
    ("orm_subclass", .bool d.ormSubclass)]

/-- Reads the kinds of the constants around a class. -/
def enclosingOfJson? (j : Json) : Option (NameMap ConstantKind) := do
  let fields ← j.asObject?
  let entries ← fields.mapM fun (path, value) ↦ (ConstantKind.ofJson? value).map (path, ·)
  return .ofList entries

/-- Reads a descriptor. -/
def ofJson? (j : Json) : Option ClassDescriptor := do
  let fields ← j.asRecord? keys
  let qualifiedName ← Json.required? fields "qualified_name" Json.asString?
  let superclass ← Json.optional? fields "superclass" none Json.asNullableString?
  let enclosing ← Json.optional? fields "enclosing" .empty enclosingOfJson?
  let capabilities ← Json.optional? fields "capabilities" [] (Json.asListOf? Capability.ofJson?)
  let attributes ← Json.optional? fields "attributes" [] (Json.asListOf? AttributeDecl.ofJson?)
  let presenceValidated ←
    Json.optional? fields "presence_validated" [] (Json.asListOf? Json.asString?)
  let securePassword ← Json.optional? fields "secure_password" false Json.asBool?
  let instanceMethods ←
    Json.optional? fields "instance_methods" [] (Json.asListOf? Json.asString?)
  let ormSubclass ← Json.optional? fields "orm_subclass" false Json.asBool?
  return {
    qualifiedName, superclass, enclosing, attributes, securePassword, instanceMethods, ormSubclass
    capabilities := CapabilitySet.empty.insertAll capabilities
    presenceValidated := NameSet.ofList presenceValidated }

end ClassDescriptor

end ModelSignatures
