import ModelSignatures.Descriptor.Basic
import ModelSignatures.Proofs.ConstantPath.Segments

/-!
# The views of a qualified name

A descriptor gives the name of its class in three ways: as segments, as the paths of the segments
and as the name without its namespace. The segments always join to the name again. The other two
views agree with them unless colons stand where no name of a constant has them: the paths if the
name does not begin with a separator, and the last name unless a single colon is left in front of
the last segment, because it is looked for from the right and the segments are from the left
(`views_qualifiedName`).
-/

namespace ModelSignatures

namespace ConstantPath

/-! ### The last name -/

/-- Between the end of a separator and a text without one there is at most one colon. -/
theorem eq_nil_or_of_suffix {front more rest : List Char} (h : [':', ':'] <:+ front ++ more)
    (hcolons : ¬[':', ':'] <:+: more ++ rest) : more = [] ∨ more = [':'] := by
  have hnot : ¬[':', ':'] <:+ more := fun hsuffix ↦
    hcolons (hsuffix.isInfix.trans (List.prefix_append _ _).isInfix)
  rcases List.suffix_or_suffix_of_suffix (List.suffix_append front more) h with hsuffix | hsuffix
  · simp only [List.suffix_cons_iff, List.suffix_nil] at hsuffix
    rcases hsuffix with rfl | rfl | rfl
    · exact absurd (List.suffix_refl _) hnot
    · exact .inr rfl
    · exact .inl rfl
  · exact absurd hsuffix hnot

/-- The last name is all that follows the rightmost separator. -/
theorem exists_front_lastName (name : String) :
    ∃ front, name.toList = front ++ (lastName name).toList ∧
      ¬[':', ':'] <:+: (lastName name).toList ∧
      (front = [] ∨ [':', ':'] <:+ front ∧ (lastName name).toList.head? ≠ some ':') := by
  obtain ⟨piece, pieces, hsplit⟩ := List.exists_cons_of_ne_nil (split_ne_nil name.toList.reverse)
  have hlast : (lastName name).toList = piece.reverse := by
    rw [lastName, hsplit, String.toList_ofList, List.headD_cons]
  have hcolons : ¬[':', ':'] <:+: piece.reverse := by
    rw [← List.reverse_infix, List.reverse_reverse]
    exact not_infix_of_mem_split (hsplit ▸ List.mem_cons_self)
  have hname := congrArg List.reverse (intercalate_split name.toList.reverse)
  rw [hsplit, List.reverse_reverse] at hname
  rw [hlast]
  cases pieces with
  | nil =>
    rw [List.intercalate_singleton] at hname
    exact ⟨[], hname.symm, hcolons, .inl rfl⟩
  | cons next pieces =>
    rw [List.intercalate_cons_cons, List.reverse_append, List.reverse_append,
      ← List.append_assoc] at hname
    refine ⟨_, hname.symm, hcolons, .inr ⟨List.suffix_append _ _, ?_⟩⟩
    rw [List.head?_reverse]
    exact getLast?_of_split_eq_cons hsplit

/-- The last segment of a name with several segments follows a separator. -/
theorem exists_front_getLast {name last : String} (hlast : (segments name).getLast? = some last) :
    ¬[':', ':'] <:+: last.toList ∧
      ((segments name).length = 1 ∧ name = last ∨
        (segments name).length ≠ 1 ∧
          ∃ front, name.toList = front ++ [':', ':'] ++ last.toList) := by
  obtain ⟨init, hsegments⟩ := List.getLast?_eq_some_iff.1 hlast
  have hname := intercalate_segments name
  constructor
  · have hmem : last ∈ segments name := List.mem_of_getLast? hlast
    obtain ⟨piece, hpiece, rfl⟩ := List.mem_map.1 hmem
    rw [String.toList_ofList]
    exact not_infix_of_mem_split hpiece
  · rw [hsegments] at hname ⊢
    by_cases hinit : init = []
    · refine .inl ⟨by rw [hinit]; rfl, ?_⟩
      rw [← hname, hinit, List.nil_append, String.intercalate_singleton]
    · refine .inr ⟨?_, (separator.intercalate init).toList, ?_⟩
      · simpa using hinit
      · rw [String.intercalate_append_of_ne_nil hinit (List.cons_ne_nil _ _),
          String.intercalate_singleton] at hname
        rw [← hname, String.toList_append, String.toList_append]
        rfl

/-- The last segment is the last name, or it has a colon in front of it that is left over from a row
of colons. -/
theorem getLast_cases {name last : String} (hlast : (segments name).getLast? = some last) :
    last = lastName name ∧ ((segments name).length = 1 ∨ last.toList.head? ≠ some ':') ∨
      (segments name).length ≠ 1 ∧ last.toList = ':' :: (lastName name).toList := by
  obtain ⟨front, hfront, hname, hcolon⟩ := exists_front_lastName name
  obtain ⟨hcolons, ⟨hone, hsame⟩ | ⟨hmore, before, hbefore⟩⟩ := exists_front_getLast hlast
  · -- Without a separator in the name nothing stands in front of the last name.
    rcases hcolon with rfl | ⟨hseparator, -⟩
    · exact .inl ⟨by rw [← String.toList_inj, ← hsame, hfront, List.nil_append], .inl hone⟩
    · rw [← hsame, hfront] at hcolons
      exact absurd (hseparator.isInfix.trans (List.prefix_append _ _).isInfix) hcolons
  have hseparator' : [':', ':'] <:+ before ++ [':', ':'] := List.suffix_append _ _
  rcases hcolon with rfl | ⟨hseparator, hhead⟩
  · rw [List.nil_append] at hfront
    rw [← hfront, hbefore] at hname
    exact absurd (hseparator'.isInfix.trans (List.prefix_append _ _).isInfix) hname
  -- Both follow a separator, so one of them is the other behind the end of a separator.
  rcases List.append_eq_append_iff.1 (hbefore.symm.trans hfront) with
    ⟨more, hlonger, heq⟩ | ⟨more, hlonger, heq⟩
  · rw [hlonger] at hseparator
    rcases eq_nil_or_of_suffix hseparator (heq ▸ hcolons) with rfl | rfl
    · rw [List.nil_append, String.toList_inj] at heq
      exact .inl ⟨heq, .inr (heq ▸ hhead)⟩
    · exact .inr ⟨hmore, heq⟩
  · rw [hlonger] at hseparator'
    rcases eq_nil_or_of_suffix hseparator' (heq ▸ hname) with rfl | rfl
    · rw [List.nil_append, eq_comm, String.toList_inj] at heq
      exact .inl ⟨heq, .inr (heq ▸ hhead)⟩
    · rw [heq] at hhead
      exact absurd rfl hhead

/-! ### The paths -/

/-- The paths of some segments, each made of all segments down to it. -/
def joinedPaths (segments : List String) : List String :=
  (List.range segments.length).map fun i ↦ separator.intercalate (segments.take (i + 1))

/-- A name begins with a separator exactly if its first segment is empty and not its last. -/
theorem separator_prefix_iff (name : String) :
    separator.toList <+: name.toList ↔
      ∃ next others, segments name = "" :: next :: others := by
  constructor
  · rintro ⟨rest, hrest⟩
    have hsegments : segments name = "" :: segments (String.ofList rest) := by
      rw [segments, ← hrest, segments, String.toList_ofList]
      rfl
    obtain ⟨next, others, hothers⟩ :=
      List.exists_cons_of_ne_nil (segments_ne_nil (String.ofList rest))
    exact ⟨next, others, hothers ▸ hsegments⟩
  · rintro ⟨next, others, hsegments⟩
    rw [← intercalate_segments name, hsegments, String.intercalate_cons_cons,
      String.toList_append, String.toList_append]
    exact ⟨_, rfl⟩

theorem segmentPaths_eq_joinedPaths {name : String} (h : ¬separator.toList <+: name.toList) :
    segmentPaths name = joinedPaths (segments name) := by
  by_cases hempty : (segments name).head? = some ""
  · obtain ⟨others, hsegments⟩ := List.head?_eq_some_iff.1 hempty
    cases others with
    | nil =>
      rw [segmentPaths, hsegments]
      rfl
    | cons next others => exact absurd ((separator_prefix_iff name).2 ⟨_, _, hsegments⟩) h
  · exact segmentPaths_eq hempty

theorem getLast?_joinedPaths (name : String) :
    (joinedPaths (segments name)).getLast? = some name := by
  have hlength : (segments name).length ≠ 0 := by simpa using segments_ne_nil name
  rw [joinedPaths, List.getLast?_map, List.getLast?_range, if_neg hlength, Option.map_some,
    Nat.sub_add_cancel (Nat.one_le_iff_ne_zero.2 hlength), List.take_length,
    intercalate_segments]

theorem length_intercalate_dropWhile_le (segments : List String) :
    (separator.intercalate (segments.dropWhile (· = ""))).length ≤
      (separator.intercalate segments).length := by
  induction segments with
  | nil => exact le_rfl
  | cons segment segments ih =>
    by_cases hsegment : segment = ""
    · rw [List.dropWhile_cons_of_pos (by simpa)]
      refine ih.trans ?_
      cases segments with
      | nil => exact Nat.zero_le _
      | cons => simp [String.intercalate_cons_cons]
    · rw [List.dropWhile_cons_of_neg (by simpa)]

/-- The path of the last segment is the name without the empty segments at its front. -/
theorem getLast?_segmentPaths (name : String) :
    (segmentPaths name).getLast? =
      some (separator.intercalate ((segments name).dropWhile (· = ""))) := by
  have hlength : (segments name).length ≠ 0 := by simpa using segments_ne_nil name
  rw [segmentPaths_eq_dropWhile, List.getLast?_map, List.getLast?_range, if_neg hlength,
    Option.map_some, Nat.sub_add_cancel (Nat.one_le_iff_ne_zero.2 hlength), List.take_length]

/-- The last path is the name unless there is a separator at its front, which is left out. -/
theorem getLast?_segmentPaths_eq_iff (name : String) :
    (segmentPaths name).getLast? = some name ↔ ¬separator.toList <+: name.toList := by
  constructor
  · intro hlast hprefix
    obtain ⟨next, others, hsegments⟩ := (separator_prefix_iff name).1 hprefix
    have hname : name = "" ++ separator ++ separator.intercalate (next :: others) := by
      rw [← String.intercalate_cons_cons, ← hsegments, intercalate_segments]
    have hlonger : (separator.intercalate (next :: others)).length < name.length := by
      have hseparator : 0 < separator.length := by decide
      rw [congrArg String.length hname]
      simpa using hseparator
    rw [getLast?_segmentPaths, Option.some.injEq, hsegments,
      List.dropWhile_cons_of_pos (by simp)] at hlast
    have hshorter := length_intercalate_dropWhile_le (next :: others)
    rw [hlast] at hshorter
    exact absurd hlonger (Nat.not_lt.2 hshorter)
  · intro hprefix
    rw [segmentPaths_eq_joinedPaths hprefix, getLast?_joinedPaths]

theorem segmentPaths_eq_joinedPaths_iff (name : String) :
    segmentPaths name = joinedPaths (segments name) ↔ ¬separator.toList <+: name.toList := by
  refine ⟨fun heq ↦ ?_, segmentPaths_eq_joinedPaths⟩
  rw [← getLast?_segmentPaths_eq_iff, heq, getLast?_joinedPaths]

end ConstantPath

namespace ClassDescriptor

open ConstantPath (separator joinedPaths)

/-- The segments of a class's name join to the name, and there are as many paths. The paths are made
of the segments down to each, and the last of them is the name, exactly if the name does not begin
with a separator; if it does, they are made of these segments without the empty ones at the front.
The last segment is the name of the class without its namespace exactly if no colon stands in front
of it, or nothing else does; otherwise it has one colon more. -/
theorem views_qualifiedName (d : ClassDescriptor) :
    separator.intercalate d.segments = d.qualifiedName ∧
      d.segmentPaths.length = d.segments.length ∧
      (d.segmentPaths = joinedPaths d.segments ↔
        ¬separator.toList <+: d.qualifiedName.toList) ∧
      (d.segmentPaths.getLast? = some d.qualifiedName ↔
        ¬separator.toList <+: d.qualifiedName.toList) ∧
      d.segmentPaths = (List.range d.segments.length).map (fun i ↦
        separator.intercalate ((d.segments.take (i + 1)).dropWhile (· = ""))) ∧
      (d.segments.getLast? = some d.name ↔
        d.segments.length = 1 ∨ ∀ last ∈ d.segments.getLast?, last.toList.head? ≠ some ':') ∧
      (d.segments.getLast? = some d.name ∨ d.segments.getLast? = some (":" ++ d.name)) := by
  have hpaths : d.segmentPaths = _ := ConstantPath.segmentPaths_eq_dropWhile d.qualifiedName
  have hlength : d.segmentPaths.length = d.segments.length := by
    rw [hpaths, List.length_map, List.length_range]
    rfl
  have hlast := List.getLast?_eq_some_getLast (ConstantPath.segments_ne_nil d.qualifiedName)
  refine ⟨ConstantPath.intercalate_segments _, hlength,
    ConstantPath.segmentPaths_eq_joinedPaths_iff _, ConstantPath.getLast?_segmentPaths_eq_iff _,
    hpaths, ?_⟩
  rw [segments, name, hlast, Option.some.injEq, Option.some.injEq]
  rcases ConstantPath.getLast_cases hlast with ⟨hname, halone⟩ | ⟨hmore, hname⟩
  · refine ⟨iff_of_true hname (halone.imp_right fun hcolon last hmem ↦ ?_), .inl hname⟩
    rwa [← Option.some.inj hmem]
  · refine ⟨iff_of_false (fun heq ↦ ?_) (not_or.2 ⟨hmore, fun hcolon ↦ ?_⟩), .inr ?_⟩
    · rw [heq] at hname
      exact List.cons_ne_self _ _ hname.symm
    · refine hcolon _ rfl ?_
      rw [hname]
      rfl
    · rw [← String.toList_inj, hname, String.toList_append]
      rfl

/-- The views of a name with three colons in front: the separator is left out of the path and the
last name does not have the colon of the last segment. -/
theorem views_apart :
    let d := named ":::Foo"
    d.segments = ["", ":Foo"] ∧ d.segmentPaths = ["", ":Foo"] ∧ d.name = "Foo" ∧
      d.segmentPaths ≠ joinedPaths d.segments ∧
      d.segmentPaths.getLast? ≠ some d.qualifiedName ∧ d.segments.getLast? ≠ some d.name := by
  decide +kernel

end ClassDescriptor

end ModelSignatures
