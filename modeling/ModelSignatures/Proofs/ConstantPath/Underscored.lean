import ModelSignatures.ConstantPath.Underscored
import ModelSignatures.Proofs.ConstantPath.Segments

/-!
# The files of signatures

What a path is made of that a qualified name was turned into: letters, digits and underscores of its
segments, slashes between them and the point of the ending. So the path of a signature can stand in
a comment (`isCommentText_signaturePath`). The segments do not look at each other: a name is
underscored segment by segment (`underscored_eq_intercalate`).
-/

namespace ModelSignatures

namespace ConstantPath

/-! ### The characters of a name -/

theorem eq_colon_or_mem_split {cs : List Char} {c : Char} (h : c ∈ cs) :
    c = ':' ∨ ∃ piece ∈ split cs, c ∈ piece := by
  fun_induction split cs with
  | case1 cs ih =>
    rcases List.mem_cons.1 h with rfl | h
    · exact Or.inl rfl
    rcases List.mem_cons.1 h with rfl | h
    · exact Or.inl rfl
    · refine (ih h).imp_right ?_
      rintro ⟨piece, hpiece, hc⟩
      exact ⟨piece, List.mem_cons_of_mem _ hpiece, hc⟩
  | case2 d cs hne piece pieces hsplit ih =>
    rcases List.mem_cons.1 h with rfl | h
    · exact Or.inr ⟨c :: piece, List.mem_cons_self, List.mem_cons_self⟩
    · refine (ih h).imp_right ?_
      rw [hsplit]
      rintro ⟨other, hother, hc⟩
      rcases List.mem_cons.1 hother with rfl | hother
      · exact ⟨d :: other, List.mem_cons_self, List.mem_cons_of_mem _ hc⟩
      · exact ⟨other, List.mem_cons_of_mem _ hother, hc⟩
  | case3 d cs hne hsplit => exact absurd hsplit (split_ne_nil cs)
  | case4 => cases h

/-- A name whose segments are names of constants is made of word characters and colons. -/
theorem isWordChar_or_of_mem {name : String} (h : (segments name).all isConstantName = true)
    {c : Char} (hc : c ∈ name.toList) : isWordChar c = true ∨ c = ':' := by
  refine (eq_colon_or_mem_split hc).symm.imp_left ?_
  rintro ⟨piece, hpiece, hc⟩
  have hsegment : String.ofList piece ∈ segments name := List.mem_map_of_mem hpiece
  have hword := isWord_of_isConstantName (List.all_eq_true.1 h _ hsegment)
  rw [IsWord, String.toList_ofList] at hword
  exact hword.2 c hc

/-! ### The characters of a path -/

theorem mem_relative {path : String} {c : Char} (h : c ∈ (relative path).toList) :
    c ∈ path.toList := by
  rw [relative] at h
  split at h
  next cs hcs =>
    rw [String.toList_ofList] at h
    rw [afterPrefix?_eq_some_iff.1 hcs]
    exact List.mem_append_right _ h
  · exact h

theorem mem_slashed {cs : List Char} {c : Char} (h : c ∈ slashed cs) : c = '/' ∨ c ∈ cs := by
  fun_induction slashed cs with
  | case1 cs ih =>
    rcases List.mem_cons.1 h with rfl | h
    · exact Or.inl rfl
    · exact (ih h).imp_right fun hc ↦ List.mem_cons_of_mem _ (List.mem_cons_of_mem _ hc)
  | case2 d cs hne ih =>
    rcases List.mem_cons.1 h with rfl | h
    · exact Or.inr List.mem_cons_self
    · exact (ih h).imp_right (List.mem_cons_of_mem _)
  | case3 => cases h

theorem mem_underscoredAfter {previous : Option Char} {cs : List Char} {c : Char}
    (h : c ∈ underscoredAfter previous cs) : c = '_' ∨ ∃ d ∈ cs, c = underscoredChar d := by
  induction cs generalizing previous with
  | nil => cases h
  | cons d cs ih =>
    have hword : c ∈ underscoredChar d :: underscoredAfter (some d) cs →
        c = '_' ∨ ∃ e ∈ d :: cs, c = underscoredChar e := by
      intro h
      rcases List.mem_cons.1 h with rfl | h
      · exact Or.inr ⟨d, List.mem_cons_self, rfl⟩
      · refine (ih h).imp_right ?_
        rintro ⟨e, he, hc⟩
        exact ⟨e, List.mem_cons_of_mem _ he, hc⟩
    rw [underscoredAfter] at h
    split at h
    · rcases List.mem_cons.1 h with rfl | h
      · exact Or.inl rfl
      · exact hword h
    · exact hword h

/-- What is neither a small letter nor an underscore comes of itself only. -/
theorem eq_of_underscoredChar_eq {c d : Char} (hlower : d.isLower = false) (hd : d ≠ '_')
    (h : underscoredChar c = d) : c = d := by
  rw [underscoredChar] at h
  split at h
  · exact absurd h.symm hd
  -- A capital is moved on by 32, which leads to a small letter.
  delta Char.toLower at h
  delta Char.isLower at hlower
  split at h
  next hupper =>
    have hval := congrArg (fun d : Char ↦ d.val.toNat) h
    simp only [UInt32.le_iff_toNat_le] at hupper
    simp [UInt32.toNat_add] at hval hupper
    simp [UInt32.le_iff_toNat_le] at hlower
    omega
  · exact h

theorem newline_not_mem_underscored {name : String} (h : '\n' ∉ name.toList) :
    '\n' ∉ (underscored name).toList := by
  rw [underscored, String.toList_ofList]
  intro hmem
  rcases mem_underscoredAfter hmem with hc | ⟨c, hc, hnewline⟩
  · cases hc
  rw [eq_of_underscoredChar_eq rfl (by decide) hnewline.symm] at hc
  rcases mem_slashed hc with hc | hc
  · cases hc
  · exact h (mem_relative hc)

/-! ### Segment by segment -/

theorem slashed_eq_intercalate (cs : List Char) : slashed cs = ['/'].intercalate (split cs) := by
  fun_induction slashed cs with
  | case1 cs ih =>
    obtain ⟨piece, pieces, hsplit⟩ := List.exists_cons_of_ne_nil (split_ne_nil cs)
    rw [split, hsplit, List.intercalate_cons_cons, ih, hsplit]
    rfl
  | case2 c cs hne ih =>
    obtain ⟨piece, pieces, hsplit⟩ := List.exists_cons_of_ne_nil (split_ne_nil cs)
    rw [split, hsplit, ih, hsplit]
    · cases pieces with
      | nil => rw [List.intercalate_singleton, List.intercalate_singleton]
      | cons next pieces =>
        rw [List.intercalate_cons_cons, List.intercalate_cons_cons]
        rfl
    · exact hne
  | case3 => rfl

theorem split_eq_singleton {cs : List Char} (h : ¬[':', ':'] <:+: cs) : split cs = [cs] := by
  fun_induction split cs with
  | case1 cs ih => exact absurd (List.prefix_append [':', ':'] cs).isInfix h
  | case2 c cs hne piece pieces hsplit ih =>
    rw [List.infix_cons_iff, not_or] at h
    obtain ⟨rfl, rfl⟩ := List.cons.inj (hsplit.symm.trans (ih h.2))
    rfl
  | case3 c cs hne hsplit => exact absurd hsplit (split_ne_nil cs)
  | case4 => rfl

/-- No word begins behind a slash or ends on account of one. -/
theorem underscoredAfter_append_slash (previous : Option Char) (cs rest : List Char) :
    underscoredAfter previous (cs ++ '/' :: rest) =
      underscoredAfter previous cs ++ '/' :: underscoredAfter none rest := by
  induction cs generalizing previous with
  | nil =>
    have hslash : ∀ next, beginsWord '/' next = false := fun _ ↦ rfl
    cases rest with
    | nil => rfl
    | cons c rest => simp [underscoredAfter, underscoredChar, hslash]
  | cons c cs ih =>
    have hnext : ∀ c, beginsWord c (cs ++ '/' :: rest).head? = beginsWord c cs.head? := by
      intro c
      cases cs <;> rfl
    rw [List.cons_append, underscoredAfter, underscoredAfter, ih]
    simp only [hnext]
    split <;> rfl

theorem underscoredAfter_intercalate (pieces : List (List Char)) :
    underscoredAfter none (['/'].intercalate pieces) =
      ['/'].intercalate (pieces.map (underscoredAfter none)) := by
  induction pieces with
  | nil => rfl
  | cons piece pieces ih =>
    cases pieces with
    | nil => rw [List.map_singleton, List.intercalate_singleton, List.intercalate_singleton]
    | cons next pieces =>
      rw [List.intercalate_cons_cons, List.append_assoc, List.singleton_append,
        underscoredAfter_append_slash, ih, List.map_cons, List.map_cons, List.map_cons,
        List.intercalate_cons_cons, List.append_assoc, List.singleton_append]

/-- A text without separators has no slashes put into it. -/
theorem toList_underscored_ofList {cs : List Char} (h : ¬[':', ':'] <:+: cs) :
    (underscored (String.ofList cs)).toList = underscoredAfter none cs := by
  have hrelative : relative (String.ofList cs) = String.ofList cs := by
    refine ((relative_eq_or _).resolve_left fun hcs ↦ ?_).1
    rw [String.toList_ofList] at hcs
    rw [hcs] at h
    exact h (List.prefix_append [':', ':'] _).isInfix
  rw [underscored, hrelative, String.toList_ofList, String.toList_ofList, slashed_eq_intercalate,
    split_eq_singleton h, List.intercalate_singleton]

/-- The segments of a name are underscored each on its own. -/
theorem underscored_eq_intercalate (name : String) :
    underscored name = "/".intercalate ((segments (relative name)).map underscored) := by
  have hpieces : (split (relative name).toList).map (underscoredAfter none) =
      ((segments (relative name)).map underscored).map String.toList := by
    rw [segments, List.map_map, List.map_map]
    exact List.map_congr_left fun piece hpiece ↦
      (toList_underscored_ofList (not_infix_of_mem_split hpiece)).symm
  rw [← String.toList_inj, String.toList_intercalate, ← hpieces, underscored, String.toList_ofList,
    slashed_eq_intercalate, underscoredAfter_intercalate]
  rfl

/-! ### The path of a file -/

/-- A path ends as the name of a file does. -/
theorem exists_signaturePath_eq (name : String) :
    ∃ directory, signaturePath name = directory ++ underscored name ++ ".rbs" ∧
      '\n' ∉ directory.toList := by
  rw [signaturePath]
  split
  · exact ⟨"", by simp, by simp⟩
  · exact ⟨modelsDirectory ++ "/", by simp [String.append_assoc], by decide⟩

/-- The path of a class whose name is one can stand in a comment. -/
theorem isCommentText_signaturePath {name : String}
    (h : (segments name).all isConstantName = true) :
    IsCommentText (" " ++ signaturePath name) := by
  have hname : '\n' ∉ name.toList := by
    intro hmem
    rcases isWordChar_or_of_mem h hmem with hword | hcolon
    · exact absurd hword (by decide)
    · cases hcolon
  obtain ⟨directory, hpath, hdirectory⟩ := exists_signaturePath_eq name
  rw [hpath, IsCommentText]
  constructor
  · have hunderscored := newline_not_mem_underscored hname
    simp [hdirectory, hunderscored]
  · intro c hc
    rw [← String.append_assoc, String.toList_append, List.getLast?_append] at hc
    cases hc
    decide

end ConstantPath

end ModelSignatures
