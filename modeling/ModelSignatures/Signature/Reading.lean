import ModelSignatures.TypeExpr.Reading
import ModelSignatures.Signature.Basic

/-!
# Reading signatures

The grammar of methods, members and declarations. Where a header or a member ends, the comments
around it are settled: those above its first lexeme and the one at the end of its last line are
kept, and one between its lexemes is refused. That it is refused only then lets an error inside a
construct win over a comment inside it.
-/

namespace ModelSignatures

open Reading (symbol word separated unexpected takeAnnotations leadingComments endOfLine)

/-! ### Methods -/

namespace Method

/-- Reads the suffix that touches the word before it, if there is one. -/
def suffix? : List Lexeme → Option (Char × List Lexeme)
  | { kind := .symbol .question, glued := true, .. } :: ls => some ('?', ls)
  | { kind := .symbol .bang, glued := true, .. } :: ls => some ('!', ls)
  | { kind := .symbol .equals, glued := true, .. } :: ls => some ('=', ls)
  | _ => none

/-- Reads the name of a method. -/
def readName (ls : List Lexeme) : Except Failure (Parsed String) := do
  let (stem, ls) ← word .methodName ls
  match suffix? ls with
  | some (c, ls) => return (stem.push c, ls)
  | none => return (stem, ls)

/-- Reads what marks a method of the class itself. -/
def readSingleton : List Lexeme → Bool × List Lexeme
  | { kind := .word "self", .. } :: { kind := .symbol .dot, .. } :: ls => (true, ls)
  | ls => (false, ls)

end Method

/-- Reads how a parameter is passed. A word is a keyword when a colon follows. -/
def ParamKind.read : List Lexeme → ParamKind × List Lexeme
  | { kind := .symbol .starStar, .. } :: ls => (keywordRest, ls)
  | { kind := .symbol .star, .. } :: ls => (rest, ls)
  | { kind := .symbol .question, .. } :: { kind := .word key, .. } ::
      { kind := .symbol .colon, .. } :: ls => (optionalKeyword key, ls)
  | { kind := .symbol .question, .. } :: ls => (optional, ls)
  | { kind := .word key, .. } :: { kind := .symbol .colon, .. } :: ls => (requiredKeyword key, ls)
  | ls => (required, ls)

/-- Reads the name of a parameter, if there is one. -/
def Param.readName : List Lexeme → Option String × List Lexeme
  | { kind := .word text, .. } :: ls => (some text, ls)
  | ls => (none, ls)

/-- Reads a parameter. -/
def Param.read (bound : Nat) (ls : List Lexeme) : Except Failure (Parsed Param) := do
  let (kind, ls) := ParamKind.read ls
  let (type, ls) ← TypeExpr.read bound ls
  let (name, ls) := Param.readName ls
  return (⟨kind, type, name⟩, ls)

namespace Overload

/-- Reads the parameters up to the parenthesis that closes them. -/
def readParams (bound : Nat) (ls : List Lexeme) : Except Failure (Parsed (List Param)) :=
  match ls with
  | { kind := .symbol .rightParen, .. } :: _ => .ok ([], ls)
  | _ => do
    let (first, ls) ← Param.read bound ls
    let (others, ls) ← separated .comma (Param.read bound) bound ls
    return (first :: others, ls)

/-- Reads one way to call a method. Its result is no bare union, since a bar begins the next
overload. -/
def read (bound : Nat) (ls : List Lexeme) : Except Failure (Parsed Overload) := do
  let ls ← symbol .leftParen .openingParen ls
  let (params, ls) ← readParams bound ls
  let ls ← symbol .rightParen .commaOrClosingParen ls
  let ls ← symbol .arrow .arrow ls
  let (result, ls) ← TypeExpr.readOptional (TypeExpr.readPrimary bound) ls
  return (⟨params, result⟩, ls)

end Overload

/-- Reads a method behind its keyword. -/
def Method.read (bound : Nat) (ls : List Lexeme) : Except Failure (Parsed Method) := do
  let (singleton, ls) := readSingleton ls
  let (name, ls) ← readName ls
  let ls ← symbol .colon .colon ls
  let (first, ls) ← Overload.read bound ls
  let (others, ls) ← separated .pipe (Overload.read bound) bound ls
  return (⟨name, singleton, first :: others⟩, ls)

/-! ### Members -/

namespace MemberContent

/-- Reads an attribute behind its keyword. -/
def readAttr (kind : AttributeKind) (bound : Nat) (ls : List Lexeme) :
    Except Failure (Parsed MemberContent) := do
  let (name, ls) ← Method.readName ls
  let ls ← symbol .colon .colon ls
  let (type, ls) ← TypeExpr.read bound ls
  return (attr kind name type, ls)

/-- Reads a member that is not a declaration, from its keyword. -/
def readLine (bound : Nat) (ls : List Lexeme) : Except Failure (Parsed MemberContent) :=
  match ls with
  | { kind := .word "include", .. } :: ls => do
    let (mixin, ls) ← ClassType.read bound ls
    return (including mixin, ls)
  | { kind := .word "extend", .. } :: ls => do
    let (mixin, ls) ← ClassType.read bound ls
    return (extending mixin, ls)
  | { kind := .word "attr_reader", .. } :: ls => readAttr .reader bound ls
  | { kind := .word "attr_writer", .. } :: ls => readAttr .writer bound ls
  | { kind := .word "attr_accessor", .. } :: ls => readAttr .accessor bound ls
  | { kind := .word "def", .. } :: ls => do
    let (m, ls) ← Method.read bound ls
    return (method m, ls)
  | { kind := .word "alias", .. } :: ls => do
    let (newName, ls) ← Method.readName ls
    let (oldName, ls) ← Method.readName ls
    return (aliasing newName oldName, ls)
  | _ => unexpected .member ls

end MemberContent

/-- Whether the first lexeme opens a declaration. -/
def Declaration.isNext : List Lexeme → Bool
  | { kind := .word text, .. } :: _ => text == "class" || text == "module"
  | _ => false

/-- The member that begins with the lexemes `above`, without its place in the body: `ls` are those
behind its annotations, and `declaration` reads a declaration whose header begins with the first
list it is given. -/
def MemberContent.read (declaration : List Lexeme → Reader Declaration)
    (bound : Nat) (above ls : List Lexeme) :
    Except Failure (Parsed (MemberContent × Option String)) := do
  if Declaration.isNext ls then
    let (d, after) ← declaration above ls
    return ((nested d, none), after)
  else
    let (content, after) ← readLine bound ls
    let comment ← endOfLine above after
    return ((content, comment), after)

/-- Reads the members of a body up to the `end` that closes it. The first has no empty line before
it. -/
def Member.readAll (declaration : List Lexeme → Reader Declaration) :
    (bound : Nat) → (first : Bool) → Reader (List Member)
  | 0, _, ls => unexpected .endKeyword ls
  | bound + 1, first, above =>
    let (annots, ls) := takeAnnotations above
    match ls with
    | [] => unexpected .endKeyword ls
    | { kind := .word "end", .. } :: _ =>
      if annots.isEmpty then .ok ([], above) else unexpected .memberAfterAnnotations ls
    | _ => do
      let ((content, comment), after) ← MemberContent.read declaration bound above ls
      let (members, after) ← readAll declaration bound false after
      let member : Member :=
        { content
          comments := leadingComments above
          annotations := annots
          lineComment := comment
          blankBefore := !first && above.head?.any (·.spaced) }
      return (member :: members, after)

/-! ### Declarations -/

/-- Reads the superclass of a class, if there is one. -/
def ClassType.readSuperclass (bound : Nat) (ls : List Lexeme) :
    Except Failure (Parsed (Option ClassType)) :=
  match Reading.afterSymbol? .less ls with
  | none => .ok (none, ls)
  | some ls => do
    let (superclass, ls) ← ClassType.read bound ls
    return (some superclass, ls)

/-- Reads the header of a declaration. -/
def DeclarationKind.read (bound : Nat) (ls : List Lexeme) :
    Except Failure (Parsed (DeclarationKind × TypeName)) :=
  match ls with
  | { kind := .word "class", .. } :: ls => do
    let (name, ls) ← TypeName.read bound ls
    let (superclass, ls) ← ClassType.readSuperclass bound ls
    return ((ofClass superclass, name), ls)
  | { kind := .word "module", .. } :: ls => do
    let (name, ls) ← TypeName.read bound ls
    return ((ofModule, name), ls)
  | _ => unexpected .classOrModule ls

namespace Declaration

/-- Reads the `end` of a declaration, with the comments above it and on its line. -/
def readEnd : Reader (List String × Option String)
  | { kind := .word "end", leading, trailing, .. } :: ls =>
    .ok ((leading.map (·.text), trailing.map (·.text)), ls)
  | ls => unexpected .endKeyword ls

/-- Reads a declaration without the comments and annotations in front of it. Its header begins with
the annotations, the first of the lexemes `above`. -/
def read : (bound : Nat) → (above : List Lexeme) → Reader Declaration
  | 0, _, ls => unexpected .classOrModule ls
  | bound + 1, above, ls => do
    let ((kind, name), body) ← DeclarationKind.read bound ls
    let headerComment ← endOfLine above body
    let (members, last) ← Member.readAll (read bound) bound true body
    let ((trailingComments, endComment), after) ← readEnd last
    let d : Declaration :=
      { kind, name, comments := [], annotations := [], headerComment, members, trailingComments,
        endComment }
    return (d, after)

/-- Reads the declarations of a text to its end. -/
def readAll : (bound : Nat) → List Lexeme → Except Failure (List Declaration)
  | 0, _ => .ok []
  | bound + 1, above =>
    let (annots, ls) := takeAnnotations above
    if ls.isEmpty then
      if annots.isEmpty then .ok [] else unexpected .declarationAfterAnnotations ls
    else do
      let (d, after) ← read (bound + 1) above ls
      let ds ← readAll bound after
      return { d with comments := leadingComments above, annotations := annots } :: ds

end Declaration

end ModelSignatures
