import ModelSignatures.ConstantPath.Basic

/-!
# Underscored paths

The file in which the signature of a class belongs: the separators of its name become slashes, its
words, which begin with capitals, are joined by underscores, and all letters become small. Of a run
of capitals the last begins a word when a small letter follows. Only ASCII letters have a case here.
-/

namespace ModelSignatures

namespace ConstantPath

/-- The text with a slash for each separator, found from the left. -/
def slashed : List Char → List Char
  | ':' :: ':' :: cs => '/' :: slashed cs
  | c :: cs => c :: slashed cs
  | [] => []

/-- Whether a capital that follows `previous` begins a new word, when `next` follows it. -/
def beginsWord (previous : Char) (next : Option Char) : Bool :=
  previous.isLower || previous.isDigit || (previous.isUpper && next.any Char.isLower)

/-- A character of an underscored path. -/
def underscoredChar (c : Char) : Char :=
  if c = '-' then '_' else c.toLower

/-- The underscored form of a text that follows the character `previous`. -/
def underscoredAfter (previous : Option Char) : List Char → List Char
  | [] => []
  | c :: cs =>
    let word := underscoredChar c :: underscoredAfter (some c) cs
    if c.isUpper && previous.any (beginsWord · cs.head?) then '_' :: word else word

/-- The underscored path of a qualified name. -/
def underscored (name : String) : String :=
  String.ofList (underscoredAfter none (slashed (relative name).toList))

/-- The directory of all signatures. -/
def modelsDirectory : String := "app/models"

/-- The file of the signature of a qualified name. An underscored path that begins with a slash is
absolute and does not lie in the directory. -/
def signaturePath (name : String) : String :=
  let file := underscored name ++ ".rbs"
  if file.toList.head? = some '/' then file else modelsDirectory ++ "/" ++ file

end ConstantPath

end ModelSignatures
