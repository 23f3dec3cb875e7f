import ModelSignatures.Proofs.ConstantPath

/-!
# Segments and their paths

The segments of a name are what stands between its separators: none has a separator in it
(`not_infix_of_mem_split`), and joined by separators they are the name (`intercalate_segments`). The
path of a segment is made of the segments down to it in the same way, but for empty segments at the
front, because the separator is left out behind an empty path (`segmentPaths_eq_dropWhile`).
-/

namespace ModelSignatures

namespace ConstantPath

/-! ### What a segment holds -/

theorem prefix_of_split_eq_cons {cs piece : List Char} {pieces : List (List Char)}
    (h : split cs = piece :: pieces) : piece <+: cs := by
  rw [← intercalate_split cs, h]
  cases pieces with
  | nil => exact ⟨[], by rw [List.append_nil, List.intercalate_singleton]⟩
  | cons next pieces =>
    rw [List.intercalate_cons_cons, List.append_assoc]
    exact List.prefix_append _ _

/-- No piece has a separator in it. -/
theorem not_infix_of_mem_split {cs piece : List Char} (h : piece ∈ split cs) :
    ¬[':', ':'] <:+: piece := by
  have hnil : ¬[':', ':'] <:+: [] := by simp
  fun_induction split cs generalizing piece with
  | case1 cs ih =>
    rcases List.mem_cons.1 h with rfl | h
    · exact hnil
    · exact ih h
  | case2 c cs hne first pieces hsplit ih =>
    rw [hsplit] at ih
    rcases List.mem_cons.1 h with rfl | h
    · rw [List.infix_cons_iff, not_or]
      refine ⟨fun hprefix ↦ ?_, ih List.mem_cons_self⟩
      -- The text would begin with a separator, and there is none at its front.
      obtain ⟨rest, hrest⟩ := hprefix
      obtain ⟨more, hmore⟩ := prefix_of_split_eq_cons hsplit
      obtain ⟨rfl, rfl⟩ := List.cons.inj hrest
      exact hne _ rfl hmore.symm
    · exact ih (List.mem_cons_of_mem _ h)
  | case3 c cs hne hsplit => exact absurd hsplit (split_ne_nil cs)
  | case4 =>
    rw [List.mem_singleton.1 h]
    exact hnil

/-- A piece in front of a separator does not end with a colon, since the leftmost separator was
taken. -/
theorem getLast?_of_split_eq_cons {cs piece next : List Char} {pieces : List (List Char)}
    (h : split cs = piece :: next :: pieces) : piece.getLast? ≠ some ':' := by
  fun_induction split cs generalizing piece with
  | case1 cs ih =>
    rw [← (List.cons.inj h).1]
    simp
  | case2 c cs hne first others hsplit ih =>
    obtain ⟨rfl, rfl⟩ := List.cons.inj h
    cases first with
    | nil =>
      have hcs := intercalate_split cs
      rw [hsplit, List.intercalate_cons_cons] at hcs
      intro hlast
      exact hne _ (by simpa using hlast) hcs.symm
    | cons d first =>
      rw [List.getLast?_cons_cons]
      exact ih hsplit
  | case3 c cs hne hsplit => exact absurd hsplit (split_ne_nil cs)
  | case4 => cases h

/-- The segments with separators between them are the name. -/
theorem intercalate_segments (name : String) : separator.intercalate (segments name) = name := by
  have hpieces : (segments name).map String.toList = split name.toList := by
    rw [segments, List.map_map]
    exact (List.map_congr_left fun piece _ ↦ String.toList_ofList).trans (List.map_id _)
  rw [← String.toList_inj, String.toList_intercalate, hpieces]
  exact intercalate_split name.toList

/-! ### Paths -/

theorem intercalate_append_cons (first second : String) (rest : List String) :
    separator.intercalate ((first ++ separator ++ second) :: rest) =
      separator.intercalate (first :: second :: rest) := by
  cases rest with
  | nil => simp [String.intercalate_cons_cons]
  | cons => simp [String.intercalate_cons_cons, String.append_assoc]

/-- The paths that grow from a path that is not empty. -/
theorem pathsFrom_eq {path : String} (h : path ≠ "") (segments : List String) :
    pathsFrom path segments = (List.range segments.length).map fun i ↦
      separator.intercalate (path :: segments.take (i + 1)) := by
  induction segments generalizing path with
  | nil => rfl
  | cons segment segments ih =>
    have hlonger : path ++ separator ++ segment ≠ "" := by
      rw [Ne, ← String.toList_inj]
      simp [separator]
    rw [pathsFrom, if_neg h, ih hlonger, List.length_cons, List.range_succ_eq_map, List.map_cons,
      List.map_map]
    refine congrArg₂ _ ?_ (List.map_congr_left fun i _ ↦ ?_)
    · rw [List.take_succ_cons, List.take_zero, ← intercalate_append_cons,
        String.intercalate_singleton]
    · rw [Function.comp_apply, List.take_succ_cons, intercalate_append_cons]

/-- The paths that grow from the empty path have no empty segments at their front. -/
theorem pathsFrom_empty (segments : List String) :
    pathsFrom "" segments = (List.range segments.length).map fun i ↦
      separator.intercalate ((segments.take (i + 1)).dropWhile (· = "")) := by
  induction segments with
  | nil => rfl
  | cons segment segments ih =>
    rw [pathsFrom, if_pos rfl, List.length_cons, List.range_succ_eq_map, List.map_cons,
      List.map_map]
    by_cases hsegment : segment = ""
    · rw [hsegment, ih]
      rfl
    · rw [pathsFrom_eq hsegment]
      refine congrArg₂ _ ?_ (List.map_congr_left fun i _ ↦ ?_)
      · rw [List.take_succ_cons, List.take_zero, List.dropWhile_cons_of_neg (by simpa),
          String.intercalate_singleton]
      · rw [Function.comp_apply, List.take_succ_cons, List.dropWhile_cons_of_neg (by simpa)]

/-- The path of a segment has all segments down to it, but for empty ones at the front. -/
theorem segmentPaths_eq_dropWhile (name : String) :
    segmentPaths name = (List.range (segments name).length).map fun i ↦
      separator.intercalate (((segments name).take (i + 1)).dropWhile (· = "")) :=
  pathsFrom_empty (segments name)

/-- The path of a segment has all segments down to it, where the first of them is not empty. -/
theorem segmentPaths_eq {name : String} (h : (segments name).head? ≠ some "") :
    segmentPaths name = (List.range (segments name).length).map fun i ↦
      separator.intercalate ((segments name).take (i + 1)) := by
  obtain ⟨first, rest, hsegments⟩ := List.exists_cons_of_ne_nil (segments_ne_nil name)
  rw [hsegments] at h
  have hfirst : first ≠ "" := by simpa using h
  rw [segmentPaths_eq_dropWhile, hsegments]
  refine List.map_congr_left fun i _ ↦ ?_
  rw [List.take_succ_cons, List.dropWhile_cons_of_neg (by simpa)]

/-- A name whose segments are names of constants has no separator in front. -/
theorem relative_eq_self {name : String} (h : (segments name).all isConstantName = true) :
    relative name = name := by
  refine ((relative_eq_or name).resolve_left fun hname ↦ ?_).1
  rw [segments, hname] at h
  simp [split, isConstantName] at h

/-- A name whose segments are names of constants is a path of constants. -/
theorem isConstantPath_of_segments {name : String}
    (h : (segments name).all isConstantName = true) : isConstantPath name = true := by
  rw [isConstantPath, relative_eq_self h]
  exact h

end ConstantPath

end ModelSignatures
