import ModelSignatures.Text.Location
import ModelSignatures.Token.Basic

/-!
# Syntax errors

Why a text is not a signature, and where. A cause is data; `SyntaxError.message` is the only place
that words it.
-/

namespace ModelSignatures

/-- What the grammar asks for at some token. -/
inductive Expectation
  | classOrModule
  | declarationAfterAnnotations
  | member
  | memberAfterAnnotations
  | endKeyword
  | constantName
  | methodName
  | colon
  | openingParen
  | commaOrClosingParen
  | closingParen
  | arrow
  | commaOrClosingBracket
  | type
deriving DecidableEq, Repr

/-- How an error message names what was expected. -/
def Expectation.describe : Expectation → String
  | classOrModule => "`class` or `module`"
  | declarationAfterAnnotations => "a declaration after annotation"
  | member => "a member declaration"
  | memberAfterAnnotations => "a member after annotation"
  | endKeyword => "`end`"
  | constantName => "a constant name"
  | methodName => "a method name"
  | colon => "`:`"
  | openingParen => "`(`"
  | commaOrClosingParen => "`,` or `)`"
  | closingParen => "`)`"
  | arrow => "`->`"
  | commaOrClosingBracket => "`,` or `]`"
  | type => "a type"

/-- Why a text is not a signature. -/
inductive SyntaxError.Cause
  /-- No token begins with this character. -/
  | unexpectedCharacter (c : Char)
  /-- A percent sign that is not followed by `a`. -/
  | annotationMark
  /-- An annotation whose text is opened by no known delimiter. -/
  | annotationDelimiter
  /-- An annotation that the text ends in. -/
  | unterminated
  /-- A token, or the end of the text where `found` is `none`, that the grammar does not allow. -/
  | unexpectedToken (wanted : Expectation) (found : Option TokenKind)
  /-- A comment inside a header or a member. -/
  | misplacedComment
deriving DecidableEq, Repr

/-- A cause and its place. -/
structure SyntaxError where
  position : Position
  cause : SyntaxError.Cause
deriving DecidableEq, Repr

namespace SyntaxError

/-- How an error message names the token that was found. -/
def describeFound : Option TokenKind → String
  | some kind => kind.describe
  | none => "end of input"

/-- The wording of a cause. -/
def Cause.message : Cause → String
  | unexpectedCharacter c => "unexpected character `" ++ String.singleton c ++ "`"
  | annotationMark => "expected `a` after `%`"
  | annotationDelimiter => "invalid annotation delimiter"
  | unterminated => "unterminated annotation"
  | unexpectedToken wanted found =>
    "expected " ++ wanted.describe ++ ", found " ++ describeFound found
  | misplacedComment =>
    "comments are only supported on their own line or at the end of a line"

/-- The wording of an error, its place included. -/
def message (e : SyntaxError) : String :=
  "RBS syntax error at line " ++ toString e.position.line ++ ", column " ++
    toString e.position.column ++ ": " ++ e.cause.message

end SyntaxError

end ModelSignatures
