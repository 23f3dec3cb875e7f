/-!
# Type expressions

The types that a signature may mention. Parentheses only group and are not part of a type.
-/

namespace ModelSignatures

/-- A name made of segments joined by `::`, absolute when `::` also stands in front. -/
structure TypeName where
  absolute : Bool
  path : List String
deriving DecidableEq, Repr

namespace TypeName

/-- Whether the name is that of a type alias: its last segment begins with a lower-case ASCII
letter. -/
def namesAlias (name : TypeName) : Bool :=
  match name.path.getLast? with
  | some segment => segment.toList.head?.any Char.isLower
  | none => false

end TypeName

/-- The types that are keywords. -/
inductive BaseType
  | bool
  | untyped
  | instanceType
  | selfType
  | nil
  | void
  | top
  | bot
  | trueType
  | falseType
deriving DecidableEq, Repr

namespace BaseType

/-- How a keyword type is written. -/
def keyword : BaseType → String
  | bool => "bool"
  | untyped => "untyped"
  | instanceType => "instance"
  | selfType => "self"
  | nil => "nil"
  | void => "void"
  | top => "top"
  | bot => "bot"
  | trueType => "true"
  | falseType => "false"

/-- Every keyword type. -/
def all : List BaseType :=
  [bool, untyped, instanceType, selfType, nil, void, top, bot, trueType, falseType]

theorem mem_all (b : BaseType) : b ∈ all := by
  cases b <;> decide

/-- The keyword type that a word names. -/
def ofKeyword? (word : String) : Option BaseType :=
  all.find? fun b ↦ b.keyword == word

@[simp] theorem ofKeyword?_keyword (b : BaseType) : ofKeyword? b.keyword = some b := by
  cases b <;> decide

theorem keyword_of_ofKeyword? {word : String} {b : BaseType} (h : ofKeyword? word = some b) :
    b.keyword = word := by
  simpa using List.find?_some h

end BaseType

/-- A type. -/
inductive TypeExpr
  | base (b : BaseType)
  /-- A class, applied to the arguments if there are any. -/
  | classRef (name : TypeName) (args : List TypeExpr)
  | aliasRef (name : TypeName)
  | optional (t : TypeExpr)
  | union (members : List TypeExpr)
deriving Repr

namespace TypeExpr

/-- The type that also allows `nil`; of a type that does already, itself. -/
def orNil : TypeExpr → TypeExpr
  | optional t => optional t
  | t => optional t

/-- The union of a type with those after it; of a single type, itself. -/
def oneOf (first : TypeExpr) (others : List TypeExpr) : TypeExpr :=
  if others.isEmpty then first else union (first :: others)

end TypeExpr

/-- A class or module name with its type arguments, where nothing but such a name may stand. -/
structure ClassType where
  name : TypeName
  args : List TypeExpr
deriving Repr

end ModelSignatures
