import ModelSignatures.Text.Blank

/-!
# Tokens of a signature text

A token is a word, a symbol, an annotation or a comment. Keywords are words: which words are
keywords depends on where they stand. `TokenKind.spelling` says how a token is written; for words
and symbols it is the only way to write them, an annotation may also be written with other
delimiters, and a comment with blanks after it.
-/

namespace ModelSignatures

/-! ### Symbols -/

/-- A token made of one or two characters that are neither letters, digits nor underscores. -/
inductive Symbol
  | colonColon
  | starStar
  | arrow
  | colon
  | pipe
  | question
  | bang
  | equals
  | star
  | comma
  | dot
  | less
  | leftParen
  | rightParen
  | leftBracket
  | rightBracket
  | leftBrace
  | rightBrace
deriving DecidableEq, Repr

namespace Symbol

/-- The characters of a symbol. -/
def spelling : Symbol → List Char
  | colonColon => [':', ':']
  | starStar => ['*', '*']
  | arrow => ['-', '>']
  | colon => [':']
  | pipe => ['|']
  | question => ['?']
  | bang => ['!']
  | equals => ['=']
  | star => ['*']
  | comma => [',']
  | dot => ['.']
  | less => ['<']
  | leftParen => ['(']
  | rightParen => [')']
  | leftBracket => ['[']
  | rightBracket => [']']
  | leftBrace => ['{']
  | rightBrace => ['}']

/-- Every symbol, the longer ones first, so that the first whose spelling begins a text is the
longest that does. -/
def longestFirst : List Symbol :=
  [colonColon, starStar, arrow, colon, pipe, question, bang, equals, star, comma, dot, less,
    leftParen, rightParen, leftBracket, rightBracket, leftBrace, rightBrace]

theorem mem_longestFirst (s : Symbol) : s ∈ longestFirst := by
  cases s <;> decide

/-- The longest symbol that begins the text. -/
def longestPrefix? (cs : List Char) : Option Symbol :=
  longestFirst.find? fun s ↦ s.spelling.isPrefixOf cs

end Symbol

/-! ### Words -/

/-- A character of a word: an ASCII letter or digit, or an underscore. -/
def isWordChar (c : Char) : Bool :=
  c.isAlphanum || c == '_'

/-! ### Annotations -/

/-- The pairs of characters that may stand around the text of an annotation, the preferred ones
first. -/
def annotationDelimiters : List (Char × Char) :=
  [('{', '}'), ('(', ')'), ('[', ']'), ('<', '>'), ('|', '|')]

/-- The delimiters for an annotation: the first pair of which neither character occurs in the text,
or braces when every pair clashes. -/
def delimitersFor (text : List Char) : Char × Char :=
  (annotationDelimiters.find? fun pair ↦
    !text.contains pair.1 && !text.contains pair.2).getD ('{', '}')

/-! ### Tokens -/

/-- What a token is, without its place. -/
inductive TokenKind
  /-- A name or a keyword. -/
  | word (text : String)
  | symbol (s : Symbol)
  /-- The text between the delimiters of an annotation. -/
  | annot (text : String)
  /-- The text after the `#`, without the blanks at its end. -/
  | comment (text : String)
deriving DecidableEq, Repr

namespace TokenKind

/-- How a token is written. -/
def spelling : TokenKind → List Char
  | word text => text.toList
  | symbol s => s.spelling
  | annot text =>
    let (opening, closing) := delimitersFor text.toList
    '%' :: 'a' :: opening :: text.toList ++ [closing]
  | comment text => '#' :: text.toList

/-- Whether the token is a comment. -/
def isComment : TokenKind → Bool
  | comment _ => true
  | _ => false

/-- How an error message names a token. -/
def describe : TokenKind → String
  | word text => "`" ++ text ++ "`"
  | symbol s => "`" ++ String.ofList s.spelling ++ "`"
  | annot _ => "annotation"
  | comment _ => "comment"

end TokenKind

end ModelSignatures
