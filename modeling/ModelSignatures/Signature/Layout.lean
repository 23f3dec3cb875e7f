import ModelSignatures.TypeExpr.Layout
import ModelSignatures.Signature.Basic

/-!
# Writing signatures

The canonical layout of a signature: two spaces of indentation for each level, an empty line between
the declarations of the text and before its last comments, an empty line before a member only where
the signature says so, and each further overload of a method on a line of its own, its bar below the
colon behind the method's name.
-/

namespace ModelSignatures

open Layout (word symbol commentLine annotLine lineComment)

/-! ### Methods -/

/-- How the name of a method is written: a suffix is a symbol of its own. -/
def Layout.methodName (name : String) : Layout :=
  let stem := word (String.ofList name.toList.dropLast)
  match name.toList.getLast? with
  | some '?' => stem ++ symbol .question
  | some '!' => stem ++ symbol .bang
  | some '=' => stem ++ symbol .equals
  | _ => word name

/-- How the way in which a parameter is passed is written. -/
def ParamKind.layout : ParamKind → Layout
  | required => []
  | optional => symbol .question
  | rest => symbol .star
  | requiredKeyword key => word key ++ symbol .colon ++ [.space]
  | optionalKeyword key => symbol .question ++ word key ++ symbol .colon ++ [.space]
  | keywordRest => symbol .starStar

/-- How a parameter is written. -/
def Param.layout (p : Param) : Layout :=
  p.kind.layout ++ p.type.layout 0 ++
    match p.name with
    | some name => .space :: word name
    | none => []

/-- How one way to call a method is written. -/
def Overload.layout (o : Overload) : Layout :=
  symbol .leftParen ++ Layout.commaSeparated (o.params.map Param.layout) ++ symbol .rightParen ++
    [.space] ++ symbol .arrow ++ [.space] ++ o.result.layout 1

namespace Method

/-- The part of a method's line before its first overload, its colon included. -/
def header (m : Method) : Layout :=
  word "def" ++ [.space] ++ (if m.singleton then word "self" ++ symbol .dot else []) ++
    Layout.methodName m.name ++ symbol .colon

/-- How far the bars of a method's further overloads are indented behind the method: to the colon of
its header, counted in bytes. -/
def barIndent (m : Method) : Nat :=
  (if m.singleton then 9 else 4) + m.name.utf8ByteSize

/-- The lines of a method. -/
def layout (m : Method) (indent : Nat) : Layout :=
  match m.overloads with
  | [] => []
  | first :: others =>
    .line indent :: m.header ++ [.space] ++ first.layout ++
      others.flatMap fun o ↦
        .line (indent + m.barIndent) :: symbol .pipe ++ [.space] ++ o.layout

end Method

/-! ### Declarations and members -/

/-- The line that opens a declaration. -/
def DeclarationKind.header (kind : DeclarationKind) (name : TypeName) : Layout :=
  match kind with
  | ofClass none => word "class" ++ [.space] ++ name.layout
  | ofClass (some superclass) =>
    word "class" ++ [.space] ++ name.layout ++ [.space] ++ symbol .less ++ [.space] ++
      superclass.layout
  | ofModule => word "module" ++ [.space] ++ name.layout

mutual

/-- The lines of a declaration, below the comments and the annotations of the member that it is. -/
def Declaration.layout :
    Declaration → (depth : Nat) → (comments annotations : List String) → Layout
  | ⟨kind, name, ownComments, ownAnnotations, headerComment, members, trailingComments,
      endComment⟩, depth, comments, annotations =>
    let indent := 2 * depth
    (comments ++ ownComments).flatMap (commentLine indent) ++
      (annotations ++ ownAnnotations).flatMap (annotLine indent) ++
      .line indent :: kind.header name ++ lineComment headerComment ++
      Member.layouts members (depth + 1) true ++
      trailingComments.flatMap (commentLine (indent + 2)) ++
      .line indent :: word "end" ++ lineComment endComment

/-- The lines of a member; a declaration has the comments of its own lines. -/
def Member.layout : Member → (depth : Nat) → Layout
  | ⟨content, comments, annotations, comment, _⟩, depth =>
    let indent := 2 * depth
    let above := comments.flatMap (commentLine indent) ++ annotations.flatMap (annotLine indent)
    match content with
    | .including mixin =>
      above ++ .line indent :: word "include" ++ [.space] ++ mixin.layout ++ lineComment comment
    | .extending mixin =>
      above ++ .line indent :: word "extend" ++ [.space] ++ mixin.layout ++ lineComment comment
    | .attr kind name type =>
      above ++ .line indent :: word kind.keyword ++ [.space] ++ Layout.methodName name ++
        symbol .colon ++ [.space] ++ type.layout 0 ++ lineComment comment
    | .method m => above ++ m.layout indent ++ lineComment comment
    | .aliasing newName oldName =>
      above ++ .line indent :: word "alias" ++ [.space] ++ Layout.methodName newName ++ [.space] ++
        Layout.methodName oldName ++ lineComment comment
    | .nested d => d.layout depth comments annotations

/-- The lines of a body's members, the first of which has no empty line before it. -/
def Member.layouts : List Member → (depth : Nat) → (first : Bool) → Layout
  | [], _, _ => []
  | m :: ms, depth, first =>
    (if m.blankBefore && !first then [.blank] else []) ++ m.layout depth ++
      Member.layouts ms depth false

end

/-- The lines of the declarations of a text. -/
def Signature.declarationsLayout (declarations : List Declaration) : Layout :=
  [.blank].intercalate (declarations.map (·.layout 0 [] []))

/-- The canonical layout of a signature. -/
def Signature.layout (s : Signature) : Layout :=
  Signature.declarationsLayout s.declarations ++
    (if s.declarations.isEmpty || s.trailingComments.isEmpty then [] else [.blank]) ++
    s.trailingComments.flatMap (commentLine 0)

/-- A signature in canonical layout. -/
def Signature.text (s : Signature) : String :=
  s.layout.text

end ModelSignatures
