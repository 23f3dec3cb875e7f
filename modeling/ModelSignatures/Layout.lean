import ModelSignatures.Token.Basic

/-!
# Layouts

A layout is a list of tokens with the spaces and line breaks between them. Writing it out is
concatenation (`chars_append`), and a line break comes before the line that it opens, so what is
appended to a layout goes to the end of the line written last. Only `Layout.text` knows the first
line and the end of a text: no line break stands before the first line, and one stands after the
last.
-/

namespace ModelSignatures

/-- A token or the white space between two. -/
inductive Layout.Item
  /-- The start of a line that is indented by so many spaces. -/
  | line (indent : Nat)
  /-- An empty line. -/
  | blank
  | space
  | token (kind : TokenKind)
deriving DecidableEq, Repr

/-- Tokens with the white space between them. -/
abbrev Layout := List Layout.Item

namespace Layout

/-- The characters of an item. -/
def Item.chars : Item → List Char
  | line indent => '\n' :: List.replicate indent ' '
  | blank => ['\n']
  | space => [' ']
  | token kind => kind.spelling

/-- The characters of a layout, in which every line follows a line feed. -/
def chars (layout : Layout) : List Char :=
  layout.flatMap Item.chars

@[simp] theorem chars_nil : chars [] = [] := rfl

@[simp] theorem chars_cons (item : Item) (layout : Layout) :
    chars (item :: layout) = item.chars ++ chars layout := by
  simp [chars]

theorem chars_append (first second : Layout) :
    chars (first ++ second) = chars first ++ chars second := by
  simp [chars]

/-- The tokens of a layout. -/
def tokens (layout : Layout) : List TokenKind :=
  layout.filterMap fun item ↦
    match item with
    | .token kind => some kind
    | _ => none

/-- A layout of lines as a text: nothing for no line, and a line feed after each line. -/
def text (layout : Layout) : String :=
  match layout with
  | [] => ""
  | _ => String.ofList ((chars layout).drop 1 ++ ['\n'])

/-! ### Building blocks -/

/-- A word of a line. -/
def word (text : String) : Layout :=
  [.token (.word text)]

/-- A symbol of a line. -/
def symbol (s : Symbol) : Layout :=
  [.token (.symbol s)]

/-- A comment on a line of its own. -/
def commentLine (indent : Nat) (text : String) : Layout :=
  [.line indent, .token (.comment text)]

/-- An annotation on a line of its own. -/
def annotLine (indent : Nat) (text : String) : Layout :=
  [.line indent, .token (.annot text)]

/-- A comment at the end of the line written last, if there is one. -/
def lineComment (comment : Option String) : Layout :=
  match comment with
  | some text => [.space, .token (.comment text)]
  | none => []

end Layout

end ModelSignatures
