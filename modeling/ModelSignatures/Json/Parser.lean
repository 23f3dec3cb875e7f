import ModelSignatures.Json.Basic
import ModelSignatures.Json.Numeral
import ModelSignatures.Text.Prefix

/-!
# Reading JSON text

The strict form of JSON: no comments, no comma behind the last item, no number with a leading zero,
no control character and no half of a surrogate pair inside a string, and arrays and objects inside
one another to a fixed depth. The recursion follows the depth that is left; loops take a `bound`,
for which the number of characters left is enough.
-/

namespace ModelSignatures

namespace Json

/-- What was read and the characters left, if anything could be read. -/
abbrev TextReader (α : Type) := List Char → Option (α × List Char)

/-- How deep arrays and objects may lie in one another. -/
def maxDepth : Nat := 127

/-- The characters behind the white space at the front. -/
def skipSpace (cs : List Char) : List Char :=
  cs.dropWhile fun c ↦ c == ' ' || c == '\t' || c == '\n' || c == '\r'

/-! ### Strings -/

/-- The value of a hexadecimal digit. -/
def hexDigit? (c : Char) : Option Nat :=
  if c.isDigit then some (c.toNat - '0'.toNat)
  else if 'a' ≤ c ∧ c ≤ 'f' then some (c.toNat - 'a'.toNat + 10)
  else if 'A' ≤ c ∧ c ≤ 'F' then some (c.toNat - 'A'.toNat + 10)
  else none

/-- Reads the four digits of a code unit. -/
def readUnit : TextReader Nat
  | a :: b :: c :: d :: cs => do
    let a ← hexDigit? a
    let b ← hexDigit? b
    let c ← hexDigit? c
    let d ← hexDigit? d
    return (((a * 16 + b) * 16 + c) * 16 + d, cs)
  | _ => none

/-- Reads the second half of a surrogate pair, whose first half is given. -/
def readLowSurrogate (high : Nat) (cs : List Char) : Option (Char × List Char) := do
  let cs ← afterPrefix? ['\\', 'u'] cs
  let (low, cs) ← readUnit cs
  if 0xDC00 ≤ low ∧ low ≤ 0xDFFF then
    return (Char.ofNat (0x10000 + (high - 0xD800) * 0x400 + (low - 0xDC00)), cs)
  else
    none

/-- Reads the character that is written with a backslash, behind it. -/
def readEscape : TextReader Char
  | '"' :: cs => some ('"', cs)
  | '\\' :: cs => some ('\\', cs)
  | '/' :: cs => some ('/', cs)
  | 'b' :: cs => some ('\x08', cs)
  | 'f' :: cs => some ('\x0c', cs)
  | 'n' :: cs => some ('\n', cs)
  | 'r' :: cs => some ('\r', cs)
  | 't' :: cs => some ('\t', cs)
  | 'u' :: cs => do
    let (unit, cs) ← readUnit cs
    if 0xD800 ≤ unit ∧ unit ≤ 0xDBFF then readLowSurrogate unit cs
    else if 0xDC00 ≤ unit ∧ unit ≤ 0xDFFF then none
    else return (Char.ofNat unit, cs)
  | _ => none

/-- Reads the characters of a string up to the quote that ends it. -/
def readChars : (bound : Nat) → TextReader (List Char)
  | 0, _ => none
  | _ + 1, [] => none
  | bound + 1, c :: cs =>
    if c = '"' then some ([], cs)
    else if c = '\\' then do
      let (c, cs) ← readEscape cs
      let (text, cs) ← readChars bound cs
      return (c :: text, cs)
    else if c.toNat < 0x20 then none
    else do
      let (text, cs) ← readChars bound cs
      return (c :: text, cs)

/-- Reads a string behind its first quote. -/
def readString (cs : List Char) : Option (String × List Char) := do
  let (text, cs) ← readChars cs.length cs
  return (String.ofList text, cs)

/-! ### Numbers -/

/-- Reads the digits that are left first, of which there has to be one. -/
def readDigits (cs : List Char) : Option (List Char × List Char) :=
  match cs.takeWhile Char.isDigit with
  | [] => none
  | digits => some (digits, cs.dropWhile Char.isDigit)

/-- Reads the part of a number before the point, which has no needless zero at its front. -/
def readWhole (cs : List Char) : Option (List Char × List Char) := do
  let (digits, cs) ← readDigits cs
  if digits.head? = some '0' ∧ 1 < digits.length then none else return (digits, cs)

/-- Reads the digits behind a point, if there is one. -/
def readFraction : TextReader (List Char)
  | '.' :: cs => readDigits cs
  | cs => some ([], cs)

/-- Reads a sign, and whether it is a minus. -/
def readSign : List Char → Bool × List Char
  | '-' :: cs => (true, cs)
  | '+' :: cs => (false, cs)
  | cs => (false, cs)

/-- Reads the power of ten of a number, if there is one. -/
def readExponent (cs : List Char) : Option (Int × List Char) :=
  match cs with
  | c :: rest =>
    if c = 'e' ∨ c = 'E' then do
      let (negative, rest) := readSign rest
      let (digits, rest) ← readDigits rest
      let size := digits.foldl (fun n digit ↦ n * 10 + (digit.toNat - '0'.toNat)) 0
      return (if negative then -size else size, rest)
    else some (0, cs)
  | [] => some (0, [])

/-- Reads a number that is finite as a double. -/
def readNumber (cs : List Char) : Option (Json × List Char) := do
  let unsigned := (afterPrefix? ['-'] cs).getD cs
  let (whole, rest) ← readWhole unsigned
  let (fraction, rest) ← readFraction rest
  let (exponent, rest) ← readExponent rest
  if Numeral.fitsDouble whole fraction exponent then
    return (number (String.ofList (cs.take (cs.length - rest.length))), rest)
  else
    none

/-! ### Values -/

/-- Reads a value that is neither an array nor an object. -/
def readScalar (cs : List Char) : Option (Json × List Char) :=
  match cs with
  | 'n' :: cs => (afterPrefix? ['u', 'l', 'l'] cs).map (null, ·)
  | 't' :: cs => (afterPrefix? ['r', 'u', 'e'] cs).map (bool true, ·)
  | 'f' :: cs => (afterPrefix? ['a', 'l', 's', 'e'] cs).map (bool false, ·)
  | '"' :: cs => (readString cs).map fun (text, cs) ↦ (string text, cs)
  | _ => readNumber cs

/-- Reads items with commas between them up to the character that closes them. -/
def readItems {α : Type} (closing : Char) (item : TextReader α) :
    (bound : Nat) → TextReader (List α)
  | 0, _ => none
  | bound + 1, cs => do
    let (x, cs) ← item cs
    match skipSpace cs with
    | c :: cs =>
      if c = ',' then
        let (xs, cs) ← readItems closing item bound cs
        return (x :: xs, cs)
      else if c = closing then return ([x], cs)
      else none
    | [] => none

/-- Reads what is between the opening character, behind which `cs` begins, and the closing one. -/
def readEnclosed {α : Type} (closing : Char) (item : TextReader α) (cs : List Char) :
    Option (List α × List Char) :=
  match afterPrefix? [closing] (skipSpace cs) with
  | some cs => some ([], cs)
  | none => readItems closing item cs.length cs

/-- Reads a field of an object. -/
def readField (value : TextReader Json) (cs : List Char) :
    Option ((String × Json) × List Char) := do
  let cs ← afterPrefix? ['"'] (skipSpace cs)
  let (key, cs) ← readString cs
  let cs ← afterPrefix? [':'] (skipSpace cs)
  let (j, cs) ← value cs
  return ((key, j), cs)

/-- Reads a value in which arrays and objects lie at most `depth` deep. -/
def readValue : (depth : Nat) → TextReader Json
  | 0, cs => readScalar (skipSpace cs)
  | depth + 1, cs =>
    match skipSpace cs with
    | '[' :: cs => (readEnclosed ']' (readValue depth) cs).map fun (items, cs) ↦ (array items, cs)
    | '{' :: cs =>
      (readEnclosed '}' (readField (readValue depth)) cs).map fun (fields, cs) ↦
        (object fields, cs)
    | cs => readScalar cs

/-- The value that a text spells, if it spells one. -/
def parse? (text : String) : Option Json := do
  let (j, cs) ← readValue maxDepth text.toList
  if (skipSpace cs).isEmpty then some j else none

end Json

end ModelSignatures
