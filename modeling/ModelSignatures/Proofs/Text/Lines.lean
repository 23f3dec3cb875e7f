import ModelSignatures.Proofs.Token.Lossless
import ModelSignatures.Proofs.Token.Places

/-!
# Positions in the lines of a text

A position is in a text if its line is one of the text's lines and its column is at most one behind
the last character of that line. The positions in a text are those behind its beginnings
(`Position.isIn_atEnd`), and a position is moved out of the text only by a column too far to the
right (`Position.isIn_moved_iff`).
-/

namespace ModelSignatures

/-- The lines of a text, with a line feed between each two of them. -/
def linesOf (source : String) : List (List Char) :=
  source.toList.splitOn '\n'

/-- Whether the position is that of a character of the text, or of the end of one of its lines. -/
structure Position.IsIn (p : Position) (source : String) : Prop where
  one_le_line : 1 ≤ p.line
  line_le : p.line ≤ (linesOf source).length
  one_le_column : 1 ≤ p.column
  column_le : ∀ line ∈ (linesOf source)[p.line - 1]?, p.column ≤ line.length + 1

/-! ### The line of a place -/

theorem length_splitOn_newline (cs : List Char) :
    (cs.splitOn '\n').length = cs.count '\n' + 1 := by
  induction cs with
  | nil => rfl
  | cons c cs ih =>
    rw [List.splitOn_cons_eq_if_modifyHead, List.count_cons]
    split
    · rw [List.length_cons, ih]
    · rw [List.length_modifyHead, ih]

/-- A text that ends no line, or the part behind its last line feed. -/
theorem eq_or_exists_last_newline (cs : List Char) :
    '\n' ∉ cs ∨ ∃ front last, cs = front ++ '\n' :: last ∧ '\n' ∉ last := by
  induction cs with
  | nil => exact Or.inl (by simp)
  | cons c cs ih =>
    rcases ih with hnone | ⟨front, last, rfl, hlast⟩
    · by_cases hc : c = '\n'
      · exact Or.inr ⟨[], cs, by rw [hc]; rfl, hnone⟩
      · exact Or.inl (List.not_mem_cons_of_ne_of_not_mem (Ne.symm hc) hnone)
    · exact Or.inr ⟨c :: front, last, rfl, hlast⟩

theorem bne_newline_of_not_mem {cs : List Char} (h : '\n' ∉ cs) : ∀ c ∈ cs, (c != '\n') = true := by
  intro c hc
  rw [bne_iff_ne]
  rintro rfl
  exact h hc

namespace Location

theorem column_atEnd_of_not_mem {cs : List Char} (h : '\n' ∉ cs) :
    (atEnd cs).column = 1 + cs.length := by
  rw [← List.mem_reverse] at h
  rw [atEnd, List.takeWhile_eq_self_iff.2 (bne_newline_of_not_mem h), List.length_reverse]

theorem column_atEnd_append_newline (front : List Char) {last : List Char} (h : '\n' ∉ last) :
    (atEnd (front ++ '\n' :: last)).column = 1 + last.length := by
  have hsplit : (front ++ '\n' :: last).reverse = last.reverse ++ '\n' :: front.reverse := by simp
  rw [← List.mem_reverse] at h
  rw [atEnd, hsplit, List.takeWhile_append_of_pos (bne_newline_of_not_mem h),
    List.takeWhile_cons_of_neg (by simp), List.append_nil, List.length_reverse]

end Location

/-- The first line of a text, and the others. -/
theorem head?_splitOn (cs : List Char) :
    ∃ others, cs.splitOn '\n' = cs.takeWhile (· != '\n') :: others := by
  obtain ⟨line, rest, rfl, hline, hrest⟩ := exists_append_of_not_mem '\n' cs
  rw [(takeWhile_append_of_not_mem hline hrest).1]
  rcases rest with - | ⟨c, rest⟩
  · exact ⟨[], by rw [List.append_nil, List.splitOn_eq_singleton hline]⟩
  · obtain rfl : c = '\n' := hrest c rfl
    exact ⟨_, List.splitOn_append_cons_self_of_not_mem hline rest⟩

/-- The line of the place behind the first characters of a text goes on up to the next line feed. -/
theorem exists_line_atEnd (before after : List Char) :
    ∃ line, ((before ++ after).splitOn '\n')[(Location.atEnd before).line - 1]? = some line ∧
      line.length + 1 = (Location.atEnd before).column + (after.takeWhile (· != '\n')).length := by
  have hindex : (Location.atEnd before).line - 1 = before.count '\n' := Nat.add_sub_cancel_left ..
  rw [hindex]
  rcases eq_or_exists_last_newline before with hnone | ⟨front, last, rfl, hlast⟩
  · obtain ⟨others, hothers⟩ := head?_splitOn (before ++ after)
    refine ⟨_, by rw [List.count_eq_zero.2 hnone, hothers]; rfl, ?_⟩
    rw [List.takeWhile_append_of_pos (bne_newline_of_not_mem hnone), List.length_append,
      Location.column_atEnd_of_not_mem hnone]
    omega
  · -- the lines of `front` stand above the one on which `before` ends
    obtain ⟨others, hothers⟩ := head?_splitOn (last ++ after)
    have hcount : (front ++ '\n' :: last).count '\n' = (front.splitOn '\n').length := by
      rw [length_splitOn_newline, List.count_append, List.count_cons_self,
        List.count_eq_zero.2 hlast]
    refine ⟨(last ++ after).takeWhile (· != '\n'), ?_, ?_⟩
    · rw [hcount, List.append_assoc, List.cons_append, List.splitOn_append_cons_self,
        List.getElem?_append_right (Nat.le_refl _), Nat.sub_self, hothers]
      rfl
    · rw [List.takeWhile_append_of_pos (bne_newline_of_not_mem hlast), List.length_append,
        Location.column_atEnd_append_newline front hlast]
      omega

namespace Position

variable {source : String} {before after : List Char}

theorem line_atEnd_le (h : source.toList = before ++ after) :
    (Location.atEnd before).line ≤ (linesOf source).length := by
  have hline : (Location.atEnd before).line = 1 + before.count '\n' := rfl
  rw [hline, linesOf, length_splitOn_newline, h, List.count_append]
  omega

/-- A position on the line of a place of the text is in the text unless it is behind the end of
that line. -/
theorem isIn_moved_iff (h : source.toList = before ++ after) {p : Position}
    (hline : p.line = (Location.atEnd before).line)
    (hcolumn : (Location.atEnd before).column ≤ p.column) :
    p.IsIn source ↔
      p.column ≤ (Location.atEnd before).column + (after.takeWhile (· != '\n')).length := by
  obtain ⟨line, hget, hlength⟩ := exists_line_atEnd before after
  have hlineOf : (linesOf source)[p.line - 1]? = some line := by rw [linesOf, h, hline, hget]
  rw [← hlength]
  refine ⟨fun hp ↦ hp.column_le line hlineOf, fun hle ↦ ⟨?_, ?_, ?_, fun line' hline' ↦ ?_⟩⟩
  · rw [hline]
    exact Nat.le_add_right 1 _
  · rw [hline]
    exact line_atEnd_le h
  · exact Nat.le_trans (Nat.le_add_right 1 _) hcolumn
  · rw [hlineOf] at hline'
    cases hline'
    exact hle

/-- The place behind the first characters of a text is in the text. -/
theorem isIn_atEnd (h : source.toList = before ++ after) :
    (Location.atEnd before).toPosition.IsIn source :=
  (isIn_moved_iff h rfl (Nat.le_refl _)).2 (Nat.le_add_right _ _)

end Position

/-! ### Bytes and columns -/

/-- A text has at least as many bytes as characters, and just as many if they are all ASCII. -/
theorem length_le_utf8ByteSize (cs : List Char) :
    cs.length ≤ (String.ofList cs).utf8ByteSize ∧
      ((String.ofList cs).utf8ByteSize = cs.length ↔ ∀ c ∈ cs, c.utf8Size = 1) := by
  induction cs with
  | nil => simp
  | cons c cs ih =>
    have hsize : (String.ofList (c :: cs)).utf8ByteSize =
        c.utf8Size + (String.ofList cs).utf8ByteSize := by
      rw [← List.singleton_append, String.ofList_append, String.utf8ByteSize_append,
        ← String.singleton_eq_ofList, String.utf8ByteSize_singleton]
    have hpos := Char.utf8Size_pos c
    obtain ⟨hle, hiff⟩ := ih
    rw [hsize, List.length_cons, List.forall_mem_cons, ← hiff]
    omega

namespace Location

/-- The column of a place is counted on by characters, and back at one behind a line feed. -/
theorem column_atEnd_append_le (before cs : List Char) :
    (atEnd (before ++ cs)).column ≤ (atEnd before).column + cs.length ∧
      ((atEnd (before ++ cs)).column = (atEnd before).column + cs.length ↔ '\n' ∉ cs) := by
  rcases eq_or_exists_last_newline cs with hnone | ⟨front, last, rfl, hlast⟩
  · have hcolumn : (atEnd (before ++ cs)).column = (atEnd before).column + cs.length := by
      rw [← walk_atEnd, column_walk_of_not_mem hnone]
    exact ⟨Nat.le_of_eq hcolumn, iff_of_true hcolumn hnone⟩
  · have hcolumn : (atEnd (before ++ (front ++ '\n' :: last))).column = 1 + last.length := by
      rw [← List.append_assoc, column_atEnd_append_newline _ hlast]
    have hstart : 1 ≤ (atEnd before).column := Nat.le_add_right 1 _
    rw [hcolumn, List.length_append, List.length_cons]
    exact ⟨by omega, iff_of_false (by omega) (by simp)⟩

/-- As many columns behind a place as some characters have bytes is behind these characters, and
just there if they are all ASCII and end no line. -/
theorem column_atEnd_append_le_bytes (before cs : List Char) :
    (atEnd (before ++ cs)).column ≤
        (atEnd before).column + (String.ofList cs).utf8ByteSize ∧
      ((atEnd before).column + (String.ofList cs).utf8ByteSize = (atEnd (before ++ cs)).column ↔
        ∀ c ∈ cs, c.utf8Size = 1 ∧ c ≠ '\n') := by
  obtain ⟨hcolumn, hnewline⟩ := column_atEnd_append_le before cs
  obtain ⟨hbytes, hascii⟩ := length_le_utf8ByteSize cs
  refine ⟨by omega, ?_⟩
  rw [forall₂_and, ← hascii]
  have hnone : (∀ c ∈ cs, c ≠ '\n') ↔ '\n' ∉ cs :=
    ⟨fun h hmem ↦ h _ hmem rfl, fun h c hc hnew ↦ h (hnew ▸ hc)⟩
  rw [hnone, ← hnewline]
  omega

end Location

end ModelSignatures
