/-!
# Places in a text

A place is counted in three ways at once: its line, its column in that line, and the number of
bytes before it. Lines and columns start at one, only a line feed ends a line, and columns count
characters. Walking over a text is a fold over its characters, so walking over two texts in turn
is walking over their concatenation (`Location.walk_append`).
-/

namespace ModelSignatures

/-- A line and a column, both counted from one. -/
structure Position where
  /-- One more than the number of line feeds before the place. -/
  line : Nat
  /-- One more than the number of characters since the line began. -/
  column : Nat
deriving DecidableEq, Repr

/-- A position together with the number of bytes before it. -/
structure Location extends Position where
  /-- The number of bytes before the place. -/
  offset : Nat
deriving DecidableEq, Repr

namespace Location

/-- The place before the first character. -/
def origin : Location := { line := 1, column := 1, offset := 0 }

/-- The place after the character `c`. -/
def step (place : Location) (c : Char) : Location :=
  if c = '\n' then
    { line := place.line + 1, column := 1, offset := place.offset + c.utf8Size }
  else
    { line := place.line, column := place.column + 1, offset := place.offset + c.utf8Size }

/-- The place after the characters `cs`. -/
def walk (place : Location) (cs : List Char) : Location :=
  cs.foldl step place

@[simp] theorem walk_nil (place : Location) : place.walk [] = place := rfl

@[simp] theorem walk_cons (place : Location) (c : Char) (cs : List Char) :
    place.walk (c :: cs) = (place.step c).walk cs := rfl

theorem walk_append (place : Location) (cs ds : List Char) :
    place.walk (cs ++ ds) = (place.walk cs).walk ds :=
  List.foldl_append

end Location

end ModelSignatures
