import ModelSignatures.Proofs.TypeExpr.Grammar
import ModelSignatures.Proofs.TypeExpr.Legible

/-!
# Well-formed types

A type that reading may answer with is well formed, and a well-formed type is spelled by the tokens
of its layout: bare where a union may stand, in parentheses elsewhere.
-/

namespace ModelSignatures

open Layout (tokens word symbol EndsWord IsCodeBefore)

/-- A name of one segment or more, each a word. -/
structure TypeName.WellFormed (name : TypeName) : Prop where
  nonempty : name.path ≠ []
  words : ∀ segment ∈ name.path, IsWord segment

instance (name : TypeName) : Decidable name.WellFormed :=
  decidable_of_iff (name.path ≠ [] ∧ ∀ segment ∈ name.path, IsWord segment)
    ⟨fun h ↦ ⟨h.1, h.2⟩, fun h ↦ ⟨h.nonempty, h.words⟩⟩

/-- A type that is read as itself where it is written: its names are told apart from keywords and
from each other, a union has two members or more, and nothing is optional twice. -/
inductive TypeExpr.WellFormed : TypeExpr → Prop
  | base (b : BaseType) : WellFormed (.base b)
  | classRef {name : TypeName} {args : List TypeExpr} (named : name.WellFormed)
      (noKeyword : name.IsNoKeyword) (isClass : name.namesAlias = false)
      (applied : ∀ t ∈ args, WellFormed t) : WellFormed (.classRef name args)
  | aliasRef {name : TypeName} (named : name.WellFormed) (noKeyword : name.IsNoKeyword)
      (isAlias : name.namesAlias = true) : WellFormed (.aliasRef name)
  | optional {t : TypeExpr} (operand : WellFormed t) (single : ∀ u, t ≠ .optional u) :
      WellFormed (.optional t)
  | union {ts : List TypeExpr} (several : 2 ≤ ts.length) (members : ∀ t ∈ ts, WellFormed t) :
      WellFormed (.union ts)

/-- A class or module name whose arguments are well formed. -/
structure ClassType.WellFormed (c : ClassType) : Prop where
  named : c.name.WellFormed
  applied : ∀ t ∈ c.args, t.WellFormed

/-! ### Names -/

namespace TypeName

theorem layout_eq (absolute : Bool) (first : String) (others : List String) :
    TypeName.layout ⟨absolute, first :: others⟩ =
      (if absolute then symbol .colonColon else []) ++ (word first ++
        (others.map word).flatMap (symbol .colonColon ++ ·)) := by
  rw [TypeName.layout, List.map_cons, Layout.intercalate_cons]

/-- A name is written as its tokens. -/
theorem tokens_layout (name : TypeName) : tokens name.layout = name.kinds := by
  obtain ⟨absolute, path⟩ := name
  cases path with
  | nil => cases absolute <;> rfl
  | cons first others =>
    rw [layout_eq, Layout.tokens_append, Layout.tokens_append, Layout.tokens_flatMap,
      List.flatMap_map]
    cases absolute <;> rfl

theorem WellFormed.legible {name : TypeName} (h : name.WellFormed) : name.Legible :=
  h.words

/-- A name is code in front of all that ends a word. -/
theorem WellFormed.isCodeBefore {name : TypeName} (h : name.WellFormed) {after : List Char}
    (hafter : EndsWord after) : IsCodeBefore name.layout after :=
  h.legible.isCodeBefore hafter

end TypeName

/-! ### Types -/

namespace TypeExpr

theorem WellFormed.legible {t : TypeExpr} (h : t.WellFormed) : t.Legible := by
  induction h with
  | base b => exact .base b
  | classRef named _ _ _ ih => exact .classRef named.legible ih
  | aliasRef named => exact .aliasRef named.legible
  | optional _ _ ih => exact .optional ih
  | union _ _ ih => exact .union ih

/-- A type is code in front of all that ends a word. -/
theorem WellFormed.isCodeBefore {t : TypeExpr} (h : t.WellFormed) (level : Nat)
    {after : List Char} (hafter : EndsWord after) : IsCodeBefore (t.layout level) after :=
  h.legible.isCodeBefore level hafter

/-! ### What layouts spell -/

/-- Arguments are spelled behind their name as they are written. -/
theorem spells_args_layouts {args : List TypeExpr}
    (h : ∀ t ∈ args, TypeForm.Spells (.union t) (tokens (t.layout 0))) (name : TypeName) :
    ∃ ks, tokens (name.layoutApplied (layouts args 0)) = name.kinds ++ ks ∧
      TypeForm.Spells (.args args) ks := by
  cases args with
  | nil =>
    refine ⟨[], ?_, .noArgs⟩
    rw [List.append_nil]
    exact name.tokens_layout
  | cons first others =>
    have hmore : TypeForm.Spells (.moreArgs others)
        (tokens ((layouts others 0).flatMap ([.token (.symbol .comma), .space] ++ ·))) := by
      replace h := fun t ht ↦ h t (List.mem_cons_of_mem first ht)
      induction others with
      | nil => exact .noMoreArgs
      | cons t others ih =>
        rw [layouts, List.flatMap_cons, Layout.tokens_append]
        exact .moreArgs (h t List.mem_cons_self)
          (ih fun t ht ↦ h t (List.mem_cons_of_mem _ ht))
    refine ⟨_, ?_, .args (h first List.mem_cons_self) hmore⟩
    rw [layouts, TypeName.layoutApplied, Layout.commaSeparated, Layout.intercalate_cons]
    simp [TypeName.tokens_layout, symbol]

/-- Types are spelled between bars as they are written. -/
theorem spells_union_layouts {ts : List TypeExpr} (several : 2 ≤ ts.length)
    (h : ∀ t ∈ ts, TypeForm.Spells (.optional t) (tokens (t.layout 1))) :
    TypeForm.Spells (.union (.union ts))
      (tokens ([.space, .token (.symbol .pipe), .space].intercalate (layouts ts 1))) := by
  obtain ⟨first, second, others, rfl⟩ : ∃ first second others, ts = first :: second :: others := by
    rcases ts with - | ⟨first, - | ⟨second, others⟩⟩
    · simp at several
    · simp at several
    · exact ⟨first, second, others, rfl⟩
  have hmore : ∀ {ts : List TypeExpr},
      (∀ t ∈ ts, TypeForm.Spells (.optional t) (tokens (t.layout 1))) →
      TypeForm.Spells (.alternatives ts)
        (tokens ((layouts ts 1).flatMap ([.space, .token (.symbol .pipe), .space] ++ ·))) := by
    intro ts hts
    induction ts with
    | nil => exact .noAlternative
    | cons t ts ih =>
      rw [layouts, List.flatMap_cons, Layout.tokens_append]
      exact .alternative (hts t List.mem_cons_self)
        (ih fun t ht ↦ hts t (List.mem_cons_of_mem _ ht))
  rw [layouts, Layout.intercalate_cons, Layout.tokens_append]
  exact .union (h first List.mem_cons_self) (hmore fun t ht ↦ h t (List.mem_cons_of_mem _ ht))

/-- A well-formed type is spelled by its layout, at both levels. Only a type that is optional is no
primary type at the higher one. -/
theorem WellFormed.spells {t : TypeExpr} (h : t.WellFormed) :
    ((∀ u, t ≠ .optional u) → TypeForm.Spells (.primary t) (tokens (t.layout 1))) ∧
      TypeForm.Spells (.optional t) (tokens (t.layout 1)) ∧
      TypeForm.Spells (.union t) (tokens (t.layout 0)) := by
  -- a primary type is spelled alike at all levels but for the parentheses of a union
  have hprimary : ∀ {t : TypeExpr} {ks : List TokenKind}, TypeForm.Spells (.primary t) ks →
      TypeForm.Spells (.optional t) ks ∧ TypeForm.Spells (.union t) ks := by
    intro t ks ht
    have hunion := TypeForm.Spells.union (.plain ht) .noAlternative
    rw [List.append_nil] at hunion
    exact ⟨.plain ht, hunion⟩
  induction h with
  | base b =>
    rw [TypeExpr.layout, TypeExpr.layout]
    exact ⟨fun _ ↦ .base b, hprimary (.base b)⟩
  | @classRef name args named noKeyword isClass _ ih =>
    obtain ⟨ks, hks, hspells⟩ := spells_args_layouts (fun t ht ↦ (ih t ht).2.2) name
    rw [TypeExpr.layout, TypeExpr.layout, hks]
    have hclass := TypeForm.Spells.classRef named.nonempty noKeyword isClass hspells
    exact ⟨fun _ ↦ hclass, hprimary hclass⟩
  | @aliasRef name named noKeyword isAlias =>
    rw [TypeExpr.layout, TypeExpr.layout, TypeName.tokens_layout]
    have halias := TypeForm.Spells.aliasRef named.nonempty noKeyword isAlias
    exact ⟨fun _ ↦ halias, hprimary halias⟩
  | @optional t _ single ih =>
    have hmarked := TypeForm.Spells.marked (ih.1 single)
    have horNil : t.orNil = .optional t := by
      cases t with
      | optional u => exact absurd rfl (single u)
      | _ => rfl
    rw [horNil] at hmarked
    have hunion := TypeForm.Spells.union hmarked .noAlternative
    rw [List.append_nil] at hunion
    rw [layout_optional single, layout_optional single, Layout.tokens_append]
    exact ⟨fun hne ↦ absurd rfl (hne t), hmarked, hunion⟩
  | @union ts several _ ih =>
    have hbare := spells_union_layouts several fun t ht ↦ (ih t ht).2.1
    have hgroup := TypeForm.Spells.group hbare
    rw [TypeExpr.layout, TypeExpr.layout, Layout.parenthesizedAt, Layout.parenthesizedAt,
      if_neg (by decide), if_pos rfl, Layout.tokens_append, Layout.tokens_append]
    exact ⟨fun _ ↦ hgroup, (hprimary hgroup).1, hbare⟩

end TypeExpr

/-! ### Classes with arguments -/

namespace ClassType

theorem WellFormed.legible {c : ClassType} (h : c.WellFormed) : c.Legible where
  named := h.named.legible
  applied t ht := (h.applied t ht).legible

/-- A class with arguments is written as its name and what spells the arguments. -/
theorem WellFormed.tokens_layout {c : ClassType} (h : c.WellFormed) :
    ∃ ks, tokens c.layout = c.name.kinds ++ ks ∧ TypeForm.Spells (.args c.args) ks :=
  TypeExpr.spells_args_layouts (fun t ht ↦ (h.applied t ht).spells.2.2) c.name

end ClassType

end ModelSignatures
