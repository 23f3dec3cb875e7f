import ModelSignatures.Reading
import ModelSignatures.TypeExpr.Basic

/-!
# Reading types

The grammar of types, by precedence: a union of optional types, each a primary type with at most one
`?`, where a primary type is a group in parentheses, a keyword or a name with its arguments. The
readers for unions and arguments take the reader of primary types, so that the recursion through
parentheses and arguments is in `TypeExpr.readPrimary` alone.
-/

namespace ModelSignatures

open Reading (afterSymbol? symbol word separated unexpected)

/-- Reads a name. -/
def TypeName.read (bound : Nat) (ls : List Lexeme) : Except Failure (Parsed TypeName) := do
  let (absolute, ls) := match afterSymbol? .colonColon ls with
    | some ls => (true, ls)
    | none => (false, ls)
  let (first, ls) ← word .constantName ls
  let (others, ls) ← separated .colonColon (word .constantName) bound ls
  return (⟨absolute, first :: others⟩, ls)

namespace TypeExpr

/-- Reads a primary type, perhaps with a `?`. -/
def readOptional (primary : Reader TypeExpr) (ls : List Lexeme) :
    Except Failure (Parsed TypeExpr) := do
  let (t, ls) ← primary ls
  match afterSymbol? .question ls with
  | some ls => return (t.orNil, ls)
  | none => return (t, ls)

/-- Reads a type, unions included. -/
def readUnion (primary : Reader TypeExpr) (bound : Nat) (ls : List Lexeme) :
    Except Failure (Parsed TypeExpr) := do
  let (first, ls) ← readOptional primary ls
  let (others, ls) ← separated .pipe (readOptional primary) bound ls
  return (oneOf first others, ls)

/-- Reads the type arguments of a class, if there are any. -/
def readArgs (primary : Reader TypeExpr) (bound : Nat) (ls : List Lexeme) :
    Except Failure (Parsed (List TypeExpr)) :=
  match afterSymbol? .leftBracket ls with
  | none => .ok ([], ls)
  | some ls => do
    let (first, ls) ← readUnion primary bound ls
    let (others, ls) ← separated .comma (readUnion primary bound) bound ls
    let ls ← symbol .rightBracket .commaOrClosingBracket ls
    return (first :: others, ls)

/-- Reads a class with its arguments or an alias. -/
def readNamed (primary : Reader TypeExpr) (bound : Nat) (ls : List Lexeme) :
    Except Failure (Parsed TypeExpr) := do
  let (name, ls) ← TypeName.read bound ls
  if name.namesAlias then
    return (aliasRef name, ls)
  else
    let (args, ls) ← readArgs primary bound ls
    return (classRef name args, ls)

/-- Reads a group, a keyword or a name. -/
def readPrimary : (bound : Nat) → Reader TypeExpr
  | 0, ls => unexpected .type ls
  | bound + 1, ls =>
    match ls with
    | { kind := .symbol .leftParen, .. } :: inner => do
      let (t, inner) ← readUnion (readPrimary bound) bound inner
      let outer ← symbol .rightParen .closingParen inner
      return (t, outer)
    | { kind := .word text, .. } :: after =>
      match BaseType.ofKeyword? text with
      | some b => .ok (base b, after)
      | none => readNamed (readPrimary bound) bound ls
    | { kind := .symbol .colonColon, .. } :: _ => readNamed (readPrimary bound) bound ls
    | _ => unexpected .type ls

/-- Reads a type of any form. -/
def read (bound : Nat) (ls : List Lexeme) : Except Failure (Parsed TypeExpr) :=
  readUnion (readPrimary bound) bound ls

end TypeExpr

/-- Reads a class or module name with its arguments. -/
def ClassType.read (bound : Nat) (ls : List Lexeme) : Except Failure (Parsed ClassType) := do
  let (name, ls) ← TypeName.read bound ls
  let (args, ls) ← TypeExpr.readArgs (TypeExpr.readPrimary bound) bound ls
  return (⟨name, args⟩, ls)

end ModelSignatures
