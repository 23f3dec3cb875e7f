import ModelSignatures.Proofs.Layout.Outline
import ModelSignatures.Proofs.TypeExpr.WellFormed

/-!
# What writing a type leaves out

A type may be spelled with more parentheses and more `?` than it is written with, and with nothing
else: whatever spells a type erases to the tokens of its layout (`Spells.erasesTo`).
-/

namespace ModelSignatures

open Layout (tokens symbol)

namespace TypeExpr

/-- A type that is optional is written alike in all places. -/
theorem layout_optional_level (level : Nat) :
    ∀ t : TypeExpr, (optional t).layout level = (optional t).layout 0
  | .optional u => by
    rw [TypeExpr.layout, TypeExpr.layout]
    exact layout_optional_level level u
  | .base _ | .classRef _ _ | .aliasRef _ | .union _ => by
    rw [layout_optional (by simp), layout_optional (by simp)]

/-- At a higher level at most parentheses are added. -/
theorem layout_level (t : TypeExpr) (level : Nat) :
    t.layout level = t.layout 0 ∨
      t.layout level = symbol .leftParen ++ t.layout 0 ++ symbol .rightParen := by
  cases t with
  | union members =>
    rw [TypeExpr.layout, TypeExpr.layout, Layout.parenthesizedAt, Layout.parenthesizedAt,
      if_pos rfl]
    split
    · exact Or.inl rfl
    · exact Or.inr rfl
  | optional t => exact Or.inl (layout_optional_level level t)
  | _ =>
    rw [TypeExpr.layout, TypeExpr.layout]
    exact Or.inl rfl

theorem tokens_layout_union (first : TypeExpr) (others : List TypeExpr) :
    tokens ((union (first :: others)).layout 0) =
      tokens (first.layout 1) ++ others.flatMap fun t ↦ .symbol .pipe :: tokens (t.layout 1) := by
  rw [TypeExpr.layout, Layout.parenthesizedAt, if_pos rfl, layouts_eq_map, List.map_cons,
    Layout.intercalate_cons, Layout.tokens_append, Layout.tokens_flatMap, List.flatMap_map]
  rfl

theorem tokens_layoutApplied (name : TypeName) (first : TypeExpr) (others : List TypeExpr) :
    tokens (name.layoutApplied (layouts (first :: others) 0)) =
      name.kinds ++ .symbol .leftBracket :: (tokens (first.layout 0) ++
        (others.flatMap fun t ↦ .symbol .comma :: tokens (t.layout 0)) ++
          [.symbol .rightBracket]) := by
  rw [layouts_eq_map, List.map_cons, TypeName.layoutApplied, Layout.commaSeparated,
    Layout.intercalate_cons]
  simp [TypeName.tokens_layout, Layout.tokens_flatMap, List.flatMap_map, symbol]

end TypeExpr

namespace TypeForm

/-- Whether the tokens erase to those that the form is written with. -/
def ErasesFrom (ks : List TokenKind) : TypeForm → Prop
  | primary t | optional t => ∀ level, ErasesTo TokenKind.IsErasable ks (tokens (t.layout level))
  | union t => ErasesTo TokenKind.IsErasable ks (tokens (t.layout 0))
  | alternatives ts =>
    ErasesTo TokenKind.IsErasable ks (ts.flatMap fun t ↦ .symbol .pipe :: tokens (t.layout 1))
  | args ts =>
    ∀ name : TypeName, ErasesTo TokenKind.IsErasable (name.kinds ++ ks)
      (tokens (name.layoutApplied (TypeExpr.layouts ts 0)))
  | moreArgs ts =>
    ErasesTo TokenKind.IsErasable ks (ts.flatMap fun t ↦ .symbol .comma :: tokens (t.layout 0))

/-- A type in parentheses is written with them or without. -/
theorem erasesFrom_group {t : TypeExpr} {ks : List TokenKind} (h : (union t).ErasesFrom ks) :
    (primary t).ErasesFrom (.symbol .leftParen :: (ks ++ [.symbol .rightParen])) := by
  intro level
  rcases t.layout_level level with hlevel | hlevel
  · rw [hlevel]
    exact (h.append_erase (by simp [TokenKind.IsErasable])).erase (by simp [TokenKind.IsErasable])
  · rw [hlevel, Layout.tokens_append, Layout.tokens_append]
    exact (h.append_right _).keep _

/-- A type is written with one `?` or, where it was optional already, with one less. -/
theorem erasesFrom_marked {t : TypeExpr} {ks : List TokenKind} (h : (primary t).ErasesFrom ks) :
    (optional t.orNil).ErasesFrom (ks ++ [.symbol .question]) := by
  intro level
  cases t with
  | optional u => exact (h level).append_erase (by simp [TokenKind.IsErasable])
  | _ =>
    rw [TypeExpr.orNil, TypeExpr.layout_optional (by simp), Layout.tokens_append]
    · exact (h 1).append_right _
    · simp

theorem erasesFrom_oneOf {t : TypeExpr} {ts : List TypeExpr} {ks more : List TokenKind}
    (h : (optional t).ErasesFrom ks) (hmore : (alternatives ts).ErasesFrom more) :
    (union (.oneOf t ts)).ErasesFrom (ks ++ more) := by
  cases ts with
  | nil =>
    have hall := (h 0).append hmore
    rwa [List.flatMap_nil, List.append_nil] at hall
  | cons u us =>
    rw [TypeExpr.oneOf, ErasesFrom, if_neg (by simp), TypeExpr.tokens_layout_union]
    exact (h 1).append hmore

/-- What spells a type erases to what it is written with. -/
theorem Spells.erasesFrom {form : TypeForm} {ks : List TokenKind} (h : form.Spells ks) :
    form.ErasesFrom ks := by
  induction h with
  | base b =>
    intro level
    rw [TypeExpr.layout]
    exact .refl _
  | group _ ih => exact erasesFrom_group ih
  | @aliasRef name =>
    intro level
    rw [TypeExpr.layout, name.tokens_layout]
    exact .refl _
  | classRef _ _ _ _ ih =>
    intro level
    rw [TypeExpr.layout]
    exact ih _
  | plain _ ih => exact ih
  | marked _ ih => exact erasesFrom_marked ih
  | union _ _ ih ihmore => exact erasesFrom_oneOf ih ihmore
  | noAlternative | noMoreArgs => exact .nil
  | alternative _ _ ih ihmore => exact ((ih 1).append ihmore).keep _
  | noArgs =>
    intro name
    rw [List.append_nil, ← name.tokens_layout]
    exact .refl _
  | args _ _ ih ihmore =>
    intro name
    rw [TypeExpr.tokens_layoutApplied]
    exact .append_left _ (((ih.append ihmore).append_right _).keep _)
  | moreArgs _ _ ih ihmore => exact (ih.append ihmore).keep _

end TypeForm

end ModelSignatures
