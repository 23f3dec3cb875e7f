import ModelSignatures.Text.Prefix
import ModelSignatures.Token.Basic

/-!
# Constant paths

Qualified names such as `Admin::User`: their segments, the paths of the constants around them, and
which texts are names of constants and of methods at all. A qualified name may be any text; where a
colon could belong to two separators, the leftmost one takes it.
-/

namespace ModelSignatures

namespace ConstantPath

/-! ### Segments -/

/-- The pieces of a text between its separators `::`, found from the left. -/
def split : List Char → List (List Char)
  | ':' :: ':' :: cs => [] :: split cs
  | c :: cs =>
    match split cs with
    | piece :: pieces => (c :: piece) :: pieces
    | [] => [[c]]
  | [] => [[]]

/-- The text between two separators that the segments of a path are joined with. -/
def separator : String := "::"

/-- The segments of a qualified name, the outermost first. -/
def segments (name : String) : List String :=
  (split name.toList).map String.ofList

/-- The paths that grow from `path` by one segment after the other. The separator is left out behind
an empty path. -/
def pathsFrom (path : String) : List String → List String
  | [] => []
  | segment :: segments =>
    let longer := if path = "" then segment else path ++ separator ++ segment
    longer :: pathsFrom longer segments

/-- The path of each segment of a qualified name: for `A::B::C` the paths `A`, `A::B` and
`A::B::C`. -/
def segmentPaths (name : String) : List String :=
  pathsFrom "" (segments name)

/-- What follows the last separator, found from the right. -/
def lastName (name : String) : String :=
  String.ofList ((split name.toList.reverse).headD []).reverse

/-- A path without the separator at its front, if it has one. -/
def relative (path : String) : String :=
  match afterPrefix? separator.toList path.toList with
  | some cs => String.ofList cs
  | none => path

/-- The superclass that has to be declared: none for an absent or empty name and for `Object`, each
perhaps with a separator in front; of another name, the name without that separator. -/
def explicitSuperclass (superclass : Option String) : Option String :=
  match superclass.map relative with
  | none => none
  | some "" => none
  | some "Object" => none
  | some name => some name

/-! ### Well-formed names -/

/-- A name of one constant: a capital ASCII letter, then ASCII letters, digits and underscores. -/
def isConstantName (segment : String) : Bool :=
  match segment.toList with
  | c :: cs => c.isUpper && cs.all isWordChar
  | [] => false

/-- Names of constants joined by separators, perhaps with a separator in front. -/
def isConstantPath (path : String) : Bool :=
  (segments (relative path)).all isConstantName

/-- A name of a method without a suffix: a small ASCII letter or an underscore, then ASCII letters,
digits and underscores. -/
def isMethodName (name : String) : Bool :=
  match name.toList with
  | c :: cs => (c.isLower || c == '_') && cs.all isWordChar
  | [] => false

end ConstantPath

end ModelSignatures
