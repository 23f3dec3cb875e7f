import ModelSignatures.Token.Lexer

/-!
# Lexemes

A lexeme is a token other than a comment, together with all that the layout around it may tell: the
comments on the lines before it, the comment at the end of its own last line, whether it touches the
token before it, and whether an empty line lies above it. A document is the list of its lexemes with
the comments after the last one, and what the grammar reads is a document, so nothing else of the
layout can matter to it.

A comment belongs to the token before it when it begins on that token's last line, and to the token
after it, or to the end of the document, otherwise. A comment runs to the end of its line, so at
most one begins on a line.
-/

namespace ModelSignatures

/-- The text of a comment and the place of its `#`. -/
structure Comment where
  text : String
  position : Position
deriving DecidableEq, Repr

/-- A token other than a comment, and what the layout around it tells. -/
structure Lexeme where
  kind : TokenKind
  position : Position
  /-- The comments between the line of the token before and this token. -/
  leading : List Comment
  /-- The comment at the end of the token's last line. -/
  trailing : Option Comment
  /-- Whether the token begins where the token before it ends. -/
  glued : Bool
  /-- Whether this token, or the first of its leading comments, begins more than one line below the
  last line of the token before it. -/
  spaced : Bool
deriving DecidableEq, Repr

/-- The lexemes of a text, with what its end has to tell. -/
structure Document where
  lexemes : List Lexeme
  /-- The comments after the last lexeme, but for the one at the end of its line. -/
  closing : List Comment
  /-- The place that an error at the end of the text is reported at. -/
  ending : Position
deriving DecidableEq, Repr

namespace Lexeme

/-- Whether a comment at `place` begins on the last line of the token `before` it. -/
def endsLineOf (before : Option Token) (place : Location) : Bool :=
  before.any fun t ↦ t.stop.line == place.line

/-- The comment at the end of the last line of `t`, when `next` are the tokens after it. -/
def trailingComment (t : Token) (next : List Token) : Option Comment :=
  match next with
  | { kind := .comment text, start, .. } :: _ =>
    if endsLineOf (some t) start then some ⟨text, start.toPosition⟩ else none
  | _ => none

/-- The line on which a token and the comments before it begin. -/
def firstLine (leading : List Comment) (t : Token) : Nat :=
  match leading with
  | comment :: _ => comment.position.line
  | [] => t.start.line

/-- The lexemes of the tokens behind the token `before` and the comments `pending`, and the comments
that no lexeme follows. -/
def gather (before : Option Token) (pending : List Comment) :
    List Token → List Lexeme × List Comment
  | [] => ([], pending)
  | t :: tokens =>
    match t.kind with
    | .comment text =>
      if endsLineOf before t.start then gather before pending tokens
      else gather before (pending ++ [⟨text, t.start.toPosition⟩]) tokens
    | kind =>
      let lexeme : Lexeme :=
        { kind
          position := t.start.toPosition
          leading := pending
          trailing := trailingComment t tokens
          glued := before.any (·.isAdjacentTo t)
          spaced := before.any fun b ↦ b.stop.line + 1 < firstLine pending t }
      let (lexemes, closing) := gather (some t) [] tokens
      (lexeme :: lexemes, closing)

end Lexeme

namespace Document

/-- The place for an error at the end of the text: the last line of the last token, comments
included, as many columns behind its first character as it has bytes. -/
def endingOf (tokens : List Token) : Position :=
  match tokens.getLast? with
  | some t => { line := t.stop.line, column := t.start.column + (t.stop.offset - t.start.offset) }
  | none => { line := 1, column := 1 }

/-- The document that a list of tokens spells. -/
def ofTokens (tokens : List Token) : Document :=
  let (lexemes, closing) := Lexeme.gather none [] tokens
  { lexemes, closing, ending := endingOf tokens }

end Document

end ModelSignatures
