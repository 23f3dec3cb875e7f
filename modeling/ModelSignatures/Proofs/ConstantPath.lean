import ModelSignatures.ConstantPath.Basic
import ModelSignatures.Proofs.TypeExpr.WellFormed

/-!
# Paths as names

A path of constants is written as the name with its segments (`chars_layout_segments`). A name of a
constant or of a method is a word, so it can stand in a signature.
-/

namespace ModelSignatures

open Layout (chars word symbol)

namespace ConstantPath

/-! ### Words -/

theorem isWordChar_of_isUpper {c : Char} (h : c.isUpper = true) : isWordChar c = true := by
  show (((c.isUpper || c.isLower) || c.isDigit) || c == '_') = true
  simp [h]

theorem isWordChar_of_isLower {c : Char} (h : c.isLower = true) : isWordChar c = true := by
  show (((c.isUpper || c.isLower) || c.isDigit) || c == '_') = true
  simp [h]

/-- The name of a constant is a word. -/
theorem isWord_of_isConstantName {name : String} (h : isConstantName name = true) :
    IsWord name := by
  unfold isConstantName at h
  rw [IsWord]
  split at h
  next c cs hcs =>
    rw [Bool.and_eq_true, List.all_eq_true] at h
    rw [hcs]
    exact ⟨by simp, List.forall_mem_cons.2 ⟨isWordChar_of_isUpper h.1, h.2⟩⟩
  · cases h

/-- The name of a method without a suffix is a word. -/
theorem isWord_of_isMethodName {name : String} (h : isMethodName name = true) : IsWord name := by
  unfold isMethodName at h
  rw [IsWord]
  split at h
  next c cs hcs =>
    rw [Bool.and_eq_true, Bool.or_eq_true, List.all_eq_true] at h
    rw [hcs]
    refine ⟨by simp, List.forall_mem_cons.2 ⟨?_, h.2⟩⟩
    rcases h.1 with hlower | hunderscore
    · exact isWordChar_of_isLower hlower
    · simp [isWordChar, hunderscore]
  · cases h

/-! ### Separators in front -/

/-- A path loses its separator, or has none to lose. -/
theorem relative_eq_or (path : String) :
    path.toList = ':' :: ':' :: (relative path).toList ∨
      relative path = path ∧ ¬[':', ':'] <+: path.toList := by
  unfold relative
  split
  next cs h =>
    rw [afterPrefix?_eq_some_iff] at h
    left
    rw [h, String.toList_ofList]
    rfl
  next h =>
    refine Or.inr ⟨rfl, ?_⟩
    rintro ⟨rest, hrest⟩
    have hsome : afterPrefix? separator.toList path.toList = some rest :=
      afterPrefix?_eq_some_iff.2 hrest.symm
    rw [hsome] at h
    cases h

/-! ### Segments -/

theorem split_ne_nil (cs : List Char) : split cs ≠ [] := by
  fun_induction split cs with
  | case1 => simp
  | case2 => simp
  | case3 => simp
  | case4 => simp

/-- The pieces with separators between them are the text that was split. -/
theorem intercalate_split (cs : List Char) : [':', ':'].intercalate (split cs) = cs := by
  fun_induction split cs with
  | case1 cs ih =>
    obtain ⟨piece, pieces, hsplit⟩ := List.exists_cons_of_ne_nil (split_ne_nil cs)
    rw [hsplit] at ih ⊢
    rw [List.intercalate_cons_cons, ih]
    rfl
  | case2 c cs hne piece pieces hsplit ih =>
    rw [hsplit] at ih
    cases pieces with
    | nil =>
      rw [List.intercalate_singleton] at ih ⊢
      rw [ih]
    | cons next pieces =>
      rw [List.intercalate_cons_cons] at ih ⊢
      rw [List.cons_append, List.cons_append, ih]
  | case3 c cs hne hsplit => exact absurd hsplit (split_ne_nil cs)
  | case4 => rfl

/-- A name has at least one segment. -/
theorem segments_ne_nil (name : String) : segments name ≠ [] := by
  simpa [segments] using split_ne_nil name.toList

/-- The absolute name of a path's segments is written as the path behind a separator. -/
theorem chars_layout_segments (path : String) :
    chars (TypeName.layout ⟨true, segments path⟩) = ':' :: ':' :: path.toList := by
  have hwords : ∀ pieces : List (List Char),
      chars ((symbol .colonColon).intercalate ((pieces.map String.ofList).map word)) =
        [':', ':'].intercalate pieces := by
    intro pieces
    induction pieces with
    | nil => rfl
    | cons piece pieces ih =>
      cases pieces with
      | nil => simp [word, Layout.Item.chars, TokenKind.spelling]
      | cons next pieces =>
        rw [List.map_cons, List.map_cons] at ih ⊢
        rw [List.map_cons, List.map_cons, List.intercalate_cons_cons, List.intercalate_cons_cons,
          Layout.chars_append, Layout.chars_append, ih]
        simp [word, symbol, Layout.Item.chars, TokenKind.spelling, Symbol.spelling]
  rw [TypeName.layout, if_pos rfl, Layout.chars_append, segments, hwords, intercalate_split]
  rfl

/-- The segments of a path make a name that is well formed. -/
theorem wellFormed_segments {path : String} (h : (segments path).all isConstantName = true) :
    TypeName.WellFormed ⟨true, segments path⟩ := by
  refine ⟨segments_ne_nil path, fun segment hsegment ↦ ?_⟩
  exact isWord_of_isConstantName (List.all_eq_true.1 h segment hsegment)

end ConstantPath

end ModelSignatures
