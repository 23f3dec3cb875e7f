import ModelSignatures.TypeExpr.Layout

/-!
# Types of attributes

The tags that an attribute may be declared with, and the type that a signature gives it. A tag that
is not built in is kept as it is and gets the type that says nothing.
-/

namespace ModelSignatures

/-- The type tag of an attribute. -/
inductive AttributeType
  | bigInteger
  | binary
  | boolean
  | date
  | datetime
  | decimal
  | float
  | immutableString
  | integer
  | string
  | time
  /-- Any other tag. -/
  | custom (tag : String)
deriving DecidableEq, Repr

namespace AttributeType

/-- The types that are built in. -/
def builtin : List AttributeType :=
  [bigInteger, binary, boolean, date, datetime, decimal, float, immutableString, integer, string,
    time]

/-- The tag as it is declared. -/
def tag : AttributeType → String
  | bigInteger => "big_integer"
  | binary => "binary"
  | boolean => "boolean"
  | date => "date"
  | datetime => "datetime"
  | decimal => "decimal"
  | float => "float"
  | immutableString => "immutable_string"
  | integer => "integer"
  | string => "string"
  | time => "time"
  | custom tag => tag

/-- The type of a tag: the built-in one of that tag, if there is one. -/
def ofTag (text : String) : AttributeType :=
  (builtin.find? fun t ↦ t.tag == text).getD (custom text)

/-- Whether the tag is none of those built in. -/
def isCustom : AttributeType → Bool
  | custom _ => true
  | _ => false

/-- A class without arguments, by the segments of its relative name. -/
def classNamed (path : List String) : TypeExpr :=
  .classRef ⟨false, path⟩ []

/-- The type of an attribute's values in a signature. -/
def signatureType : AttributeType → TypeExpr
  | bigInteger | integer => classNamed ["Integer"]
  | binary | immutableString | string => classNamed ["String"]
  | boolean => .base .bool
  | date => classNamed ["Date"]
  | datetime => .union [classNamed ["DateTime"], classNamed ["ActiveSupport", "TimeWithZone"]]
  | decimal => classNamed ["BigDecimal"]
  | float => classNamed ["Float"]
  | time => classNamed ["Time"]
  | custom _ => .base .untyped

theorem tag_ofTag (text : String) : (ofTag text).tag = text := by
  unfold ofTag
  cases h : builtin.find? fun t ↦ t.tag == text with
  | none => rfl
  | some t => simpa using List.find?_some h

theorem ofTag_tag_of_mem_builtin {t : AttributeType} (h : t ∈ builtin) : ofTag t.tag = t := by
  revert t
  decide

end AttributeType

end ModelSignatures
