import ModelSignatures.Json.Basic

/-!
# Writing JSON text

Values with each item and each field on a line of its own, two spaces further in than the brackets
around it. In strings only quotes, backslashes and control characters are escaped.
-/

namespace ModelSignatures

namespace Json

/-- A digit of a hexadecimal number. -/
def hexDigit (n : Nat) : Char :=
  Nat.digitChar (n % 16)

/-- How a character is written in a string. -/
def escaped (c : Char) : List Char :=
  if c = '"' then ['\\', '"']
  else if c = '\\' then ['\\', '\\']
  else if c = '\n' then ['\\', 'n']
  else if c = '\r' then ['\\', 'r']
  else if c = '\t' then ['\\', 't']
  else if c = '\x08' then ['\\', 'b']
  else if c = '\x0c' then ['\\', 'f']
  else if c.toNat < 0x20 then
    ['\\', 'u', '0', '0', hexDigit (c.toNat / 16), hexDigit c.toNat]
  else [c]

/-- A string in quotes. -/
def quoted (text : String) : String :=
  String.ofList ('"' :: text.toList.flatMap escaped ++ ['"'])

/-- The start of a line that is indented by so many spaces. -/
def lineStart (indent : Nat) : String :=
  String.ofList ('\n' :: List.replicate indent ' ')

/-- Texts on lines of their own with commas between them, in brackets. -/
def bracketed (opening closing : Char) (indent : Nat) (lines : List String) : String :=
  if lines.isEmpty then String.ofList [opening, closing]
  else
    String.singleton opening ++ ",".intercalate (lines.map (lineStart (indent + 2) ++ ·)) ++
      lineStart indent ++ String.singleton closing

mutual

/-- A value on lines, of which those behind the first are indented by so many spaces. -/
def pretty : Json → (indent : Nat) → String
  | null, _ => "null"
  | bool b, _ => if b then "true" else "false"
  | number text, _ => text
  | string text, _ => quoted text
  | array items, indent => bracketed '[' ']' indent (prettyItems items (indent + 2))
  | object fields, indent => bracketed '{' '}' indent (prettyFields fields (indent + 2))

/-- The items of an array. -/
def prettyItems : List Json → (indent : Nat) → List String
  | [], _ => []
  | item :: items, indent => pretty item indent :: prettyItems items indent

/-- The fields of an object. -/
def prettyFields : List (String × Json) → (indent : Nat) → List String
  | [], _ => []
  | (key, value) :: fields, indent =>
    (quoted key ++ ": " ++ pretty value indent) :: prettyFields fields indent

end

end Json

end ModelSignatures
