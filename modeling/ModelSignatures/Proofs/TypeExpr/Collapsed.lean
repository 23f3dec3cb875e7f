import ModelSignatures.Proofs.TypeExpr.Erasure

/-!
# Types that are optional several times

Writing does not tell how often in a row something is optional, and reading answers with the type in
which nothing is optional twice in a row (`TypeExpr.collapsed`). That type is well formed whenever
the names are, and it is written alike (`layout_collapsed`).
-/

namespace ModelSignatures

open Layout (symbol)

namespace TypeExpr

/-- A type whose names are told apart from keywords and from each other, and whose unions have two
members or more. Something may be optional several times. -/
inductive WellNamed : TypeExpr → Prop
  | base (b : BaseType) : WellNamed (.base b)
  | classRef {name : TypeName} {args : List TypeExpr} (named : name.WellFormed)
      (noKeyword : name.IsNoKeyword) (isClass : name.namesAlias = false)
      (applied : ∀ t ∈ args, WellNamed t) : WellNamed (.classRef name args)
  | aliasRef {name : TypeName} (named : name.WellFormed) (noKeyword : name.IsNoKeyword)
      (isAlias : name.namesAlias = true) : WellNamed (.aliasRef name)
  | optional {t : TypeExpr} (operand : WellNamed t) : WellNamed (.optional t)
  | union {ts : List TypeExpr} (several : 2 ≤ ts.length) (members : ∀ t ∈ ts, WellNamed t) :
      WellNamed (.union ts)

mutual

/-- The type in which what is optional several times in a row is optional once. -/
def collapsed : TypeExpr → TypeExpr
  | base b => base b
  | classRef name args => classRef name (collapsedList args)
  | aliasRef name => aliasRef name
  | optional t => t.collapsed.orNil
  | union ts => union (collapsedList ts)

/-- Several types, each of them collapsed. -/
def collapsedList : List TypeExpr → List TypeExpr
  | [] => []
  | t :: ts => t.collapsed :: collapsedList ts

end

theorem collapsedList_eq_map (ts : List TypeExpr) : collapsedList ts = ts.map collapsed := by
  induction ts with
  | nil => rfl
  | cons t ts ih => rw [collapsedList, ih, List.map_cons]

theorem WellFormed.orNil {t : TypeExpr} (h : t.WellFormed) : t.orNil.WellFormed := by
  cases t with
  | optional u => exact h
  | _ => exact .optional h (by simp)

theorem WellNamed.collapsed_wellFormed {t : TypeExpr} (h : t.WellNamed) :
    t.collapsed.WellFormed := by
  induction h with
  | base b =>
    rw [collapsed]
    exact .base b
  | classRef named noKeyword isClass _ ih =>
    rw [collapsed, collapsedList_eq_map]
    exact .classRef named noKeyword isClass (List.forall_mem_map.2 ih)
  | aliasRef named noKeyword isAlias =>
    rw [collapsed]
    exact .aliasRef named noKeyword isAlias
  | optional _ ih =>
    rw [collapsed]
    exact ih.orNil
  | union several _ ih =>
    rw [collapsed, collapsedList_eq_map]
    exact .union (by rwa [List.length_map]) (List.forall_mem_map.2 ih)

/-! ### What is written -/

theorem layout_orNil (t : TypeExpr) (level : Nat) :
    t.orNil.layout level = (optional t).layout level := by
  cases t with
  | optional u =>
    rw [orNil, TypeExpr.layout]
  | _ => rfl

/-- What is optional is written by what its operand is written as, and whether that is optional. -/
theorem layout_optional_congr {t u : TypeExpr} (hlayout : ∀ level, t.layout level = u.layout level)
    (hoptional : (∃ v, t = optional v) ↔ ∃ v, u = optional v) (level : Nat) :
    (optional t).layout level = (optional u).layout level := by
  -- a second mark is left out, so it matters whether the operand has one
  by_cases ht : ∃ v, t = optional v
  · obtain ⟨w, rfl⟩ := hoptional.1 ht
    obtain ⟨v, rfl⟩ := ht
    rw [TypeExpr.layout, hlayout, TypeExpr.layout]
  · have hu := mt hoptional.2 ht
    rw [not_exists] at ht hu
    rw [layout_optional ht, layout_optional hu, hlayout]

theorem exists_collapsed_eq_optional_iff (t : TypeExpr) :
    (∃ v, t.collapsed = optional v) ↔ ∃ v, t = optional v := by
  cases t with
  | optional u =>
    rw [collapsed]
    cases u.collapsed <;> simp [orNil]
  | _ => simp [collapsed]

/-- A type is written like the one in which nothing is optional twice in a row. -/
theorem WellNamed.layout_collapsed {t : TypeExpr} (h : t.WellNamed) (level : Nat) :
    t.collapsed.layout level = t.layout level := by
  have hmap : ∀ {ts : List TypeExpr} (level : Nat),
      (∀ t ∈ ts, ∀ level, t.collapsed.layout level = t.layout level) →
        layouts (collapsedList ts) level = layouts ts level := by
    intro ts level hts
    rw [layouts_eq_map, layouts_eq_map, collapsedList_eq_map, List.map_map]
    exact List.map_congr_left fun t ht ↦ hts t ht level
  induction h generalizing level with
  | base b => rw [collapsed]
  | classRef _ _ _ _ ih => rw [collapsed, TypeExpr.layout, TypeExpr.layout, hmap 0 ih]
  | aliasRef => rw [collapsed]
  | @optional t _ ih =>
    rw [collapsed, layout_orNil]
    exact layout_optional_congr ih t.exists_collapsed_eq_optional_iff level
  | union _ _ ih => rw [collapsed, TypeExpr.layout, TypeExpr.layout, hmap 1 ih]

/-- All levels but the lowest write alike. -/
theorem layout_of_pos (t : TypeExpr) {level : Nat} (h : 1 ≤ level) :
    t.layout level = t.layout 1 := by
  cases t with
  | union ts =>
    rw [TypeExpr.layout, TypeExpr.layout, Layout.parenthesizedAt, Layout.parenthesizedAt,
      if_neg (by omega), if_neg (by omega)]
  | optional t => rw [layout_optional_level level, layout_optional_level 1]
  | _ => rw [TypeExpr.layout, TypeExpr.layout]

end TypeExpr

end ModelSignatures
