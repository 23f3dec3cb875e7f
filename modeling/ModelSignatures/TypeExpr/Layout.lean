import ModelSignatures.Layout
import ModelSignatures.TypeExpr.Basic

/-!
# Writing types

A type is written with parentheses only where reading needs them: around a union that is the
operand of `?`, a member of another union or the result of a method. The `level` of the place tells:
at level zero a union stands bare, at every other level in parentheses. An optional type directly
inside another is written once.
-/

namespace ModelSignatures

open Layout (word symbol)

/-- The layouts of several things with commas between them. -/
def Layout.commaSeparated (items : List Layout) : Layout :=
  [.token (.symbol .comma), .space].intercalate items

/-- Puts a layout in parentheses unless it stands at level zero. -/
def Layout.parenthesizedAt (level : Nat) (layout : Layout) : Layout :=
  if level = 0 then layout else symbol .leftParen ++ layout ++ symbol .rightParen

/-- How a name is written. -/
def TypeName.layout (name : TypeName) : Layout :=
  (if name.absolute then symbol .colonColon else []) ++
    (symbol .colonColon).intercalate (name.path.map word)

/-- How a name is written with the layouts of its arguments. -/
def TypeName.layoutApplied (name : TypeName) (args : List Layout) : Layout :=
  if args.isEmpty then name.layout
  else name.layout ++ symbol .leftBracket ++ Layout.commaSeparated args ++ symbol .rightBracket

mutual

/-- How a type is written in a place of the given level. -/
def TypeExpr.layout : TypeExpr → (level : Nat) → Layout
  | .base b, _ => word b.keyword
  | .classRef name args, _ => name.layoutApplied (TypeExpr.layouts args 0)
  | .aliasRef name, _ => name.layout
  | .optional (.optional t), level => TypeExpr.layout (.optional t) level
  | .optional t, _ => TypeExpr.layout t 1 ++ symbol .question
  | .union members, level =>
    Layout.parenthesizedAt level <|
      [.space, .token (.symbol .pipe), .space].intercalate (TypeExpr.layouts members 1)

/-- How each of several types is written. -/
def TypeExpr.layouts : List TypeExpr → (level : Nat) → List Layout
  | [], _ => []
  | t :: ts, level => TypeExpr.layout t level :: TypeExpr.layouts ts level

end

theorem TypeExpr.layouts_eq_map (ts : List TypeExpr) (level : Nat) :
    TypeExpr.layouts ts level = ts.map (·.layout level) := by
  induction ts with
  | nil => rfl
  | cons t ts ih => rw [TypeExpr.layouts, ih, List.map_cons]

/-- How a class type is written. -/
def ClassType.layout (c : ClassType) : Layout :=
  c.name.layoutApplied (TypeExpr.layouts c.args 0)

/-- A type as text. -/
def TypeExpr.text (t : TypeExpr) (level : Nat) : String :=
  String.ofList (Layout.chars (t.layout level))

end ModelSignatures
