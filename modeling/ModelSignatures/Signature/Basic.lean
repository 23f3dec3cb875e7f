import ModelSignatures.TypeExpr.Basic

/-!
# Signatures

A signature is a list of class and module declarations, each with its members, and a member may be
a declaration again. Comments and annotations are kept where they stand. The comments and
annotations of a declaration that is a member are kept with the member.
-/

namespace ModelSignatures

/-! ### Methods -/

/-- How a parameter is passed. -/
inductive ParamKind
  | required
  | optional
  | rest
  | requiredKeyword (key : String)
  | optionalKeyword (key : String)
  | keywordRest
deriving DecidableEq, Repr

/-- A parameter of a method. -/
structure Param where
  kind : ParamKind
  type : TypeExpr
  /-- The name of a parameter, which only tells the reader what it is for. -/
  name : Option String
deriving Repr

/-- One way to call a method. -/
structure Overload where
  params : List Param
  result : TypeExpr
deriving Repr

/-- A method with the ways to call it. -/
structure Method where
  name : String
  /-- Whether it is a method of the class itself and not of its instances. -/
  singleton : Bool
  overloads : List Overload
deriving Repr

/-! ### Declarations and members -/

/-- Which accessors an attribute has. -/
inductive AttributeKind
  | reader
  | writer
  | accessor
deriving DecidableEq, Repr

/-- The keyword that declares an attribute. -/
def AttributeKind.keyword : AttributeKind → String
  | reader => "attr_reader"
  | writer => "attr_writer"
  | accessor => "attr_accessor"

/-- What is declared: a class, perhaps with its superclass, or a module. -/
inductive DeclarationKind
  | ofClass (superclass : Option ClassType)
  | ofModule
deriving Repr

mutual

/-- What a member says. -/
inductive MemberContent
  | including (mixin : ClassType)
  | extending (mixin : ClassType)
  | attr (kind : AttributeKind) (name : String) (type : TypeExpr)
  | method (m : Method)
  /-- A second name for a method. -/
  | aliasing (newName oldName : String)
  | nested (d : Declaration)

/-- An entry of a declaration's body. -/
structure Member where
  content : MemberContent
  /-- The comments on the lines before it. -/
  comments : List String
  annotations : List String
  /-- The comment at the end of its last line. -/
  lineComment : Option String
  /-- Whether an empty line separates it from the member before it. -/
  blankBefore : Bool

/-- A class or a module with its members. -/
structure Declaration where
  kind : DeclarationKind
  name : TypeName
  /-- The comments on the lines before it. -/
  comments : List String
  annotations : List String
  /-- The comment at the end of the header's last line. -/
  headerComment : Option String
  members : List Member
  /-- The comments between the last member and `end`. -/
  trailingComments : List String
  /-- The comment on the line of `end`. -/
  endComment : Option String

end

/-- A signature text, without its layout. -/
structure Signature where
  declarations : List Declaration
  /-- The comments after the last declaration. -/
  trailingComments : List String

end ModelSignatures
