import ModelSignatures.SyntaxError

/-!
# Splitting a text into tokens

`scan` reads the token at the front of a text and says which characters it took; `Token.tokenize`
skips blanks, reads a token and goes on behind it, counting places along the characters taken.
No character is lost: what `scan` takes and leaves is the text, and it takes at least one character,
so the length of the text bounds the number of tokens.
-/

namespace ModelSignatures

/-- A token and the places where it begins and ends. -/
structure Token where
  kind : TokenKind
  /-- The place before the first character. -/
  start : Location
  /-- The place after the last character, blanks at the end of a comment included. -/
  stop : Location
deriving DecidableEq, Repr

/-- Whether `next` begins where the token ends. -/
def Token.isAdjacentTo (t next : Token) : Bool :=
  t.stop.offset == next.start.offset

namespace Lexer

/-! ### One token -/

/-- A token read from the front of a text. -/
structure Scanned where
  kind : TokenKind
  /-- The characters of the token. -/
  taken : List Char
  /-- The characters after it. -/
  rest : List Char

/-- Why no token could be read. -/
structure Fault where
  cause : SyntaxError.Cause
  /-- The characters between the start of the token and the place of the fault. -/
  before : List Char

/-- Reads an annotation, whose percent sign has been read. -/
def scanAnnotated (cs : List Char) : Except Fault Scanned :=
  match cs with
  | 'a' :: opening :: cs =>
    match annotationDelimiters.lookup opening with
    | none => .error ⟨.annotationDelimiter, ['%', 'a']⟩
    | some closing =>
      let text := cs.takeWhile (· != closing)
      match cs.dropWhile (· != closing) with
      | [] => .error ⟨.unterminated, '%' :: 'a' :: opening :: cs⟩
      | _ :: rest =>
        .ok ⟨.annot (String.ofList text), '%' :: 'a' :: opening :: text ++ [closing], rest⟩
  | ['a'] => .error ⟨.unterminated, ['%', 'a']⟩
  | _ => .error ⟨.annotationMark, ['%']⟩

/-- Reads a comment, whose `#` has been read. -/
def scanComment (cs : List Char) : Scanned :=
  let line := cs.takeWhile (· != '\n')
  ⟨.comment (String.ofList (trimEnd line)), '#' :: line, cs.dropWhile (· != '\n')⟩

/-- Reads a word that begins with `c`. -/
def scanWord (c : Char) (cs : List Char) : Scanned :=
  let text := c :: cs.takeWhile isWordChar
  ⟨.word (String.ofList text), text, cs.dropWhile isWordChar⟩

/-- Reads the token that begins with `c`. -/
def scan (c : Char) (cs : List Char) : Except Fault Scanned :=
  if c = '%' then scanAnnotated cs
  else if c = '#' then .ok (scanComment cs)
  else if isWordChar c then .ok (scanWord c cs)
  else
    match Symbol.longestPrefix? (c :: cs) with
    | some s => .ok ⟨.symbol s, s.spelling, (c :: cs).drop s.spelling.length⟩
    | none => .error ⟨.unexpectedCharacter c, []⟩

/-! ### All tokens -/

/-- The tokens of a text that begins at `place`, of which at most `bound` are read. -/
def tokensFrom : (bound : Nat) → (place : Location) → List Char → Except SyntaxError (List Token)
  | 0, _, _ => .ok []
  | bound + 1, place, cs =>
    let start := place.walk (cs.takeWhile isBlank)
    match cs.dropWhile isBlank with
    | [] => .ok []
    | c :: cs =>
      match scan c cs with
      | .error fault => .error ⟨(start.walk fault.before).toPosition, fault.cause⟩
      | .ok scanned => do
        let stop := start.walk scanned.taken
        let tokens ← tokensFrom bound stop scanned.rest
        return ⟨scanned.kind, start, stop⟩ :: tokens

end Lexer

/-- The tokens of a text, comments included. -/
def Token.tokenize (source : String) : Except SyntaxError (List Token) :=
  let cs := source.toList
  Lexer.tokensFrom cs.length .origin cs

end ModelSignatures
