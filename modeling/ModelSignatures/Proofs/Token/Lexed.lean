import ModelSignatures.Proofs.Token.Tokenized

/-!
# What the lexer guarantees of its tokens

Every token that was read can be told from its kind alone (`TokenKind.Lexed`), and the tokens of a
text stand one behind the other: none begins on a line above the end of one before it, and none
begins on the line of a comment before it (`Token.wellPlaced_of_tokenize`).
-/

namespace ModelSignatures

/-! ### Kinds -/

/-- What is known of the kind of a token that was read: as for a well-formed token, but that the
text of an annotation need only avoid the delimiter which it was read up to. -/
def TokenKind.Lexed : TokenKind → Prop
  | .annot text => ∃ pair ∈ annotationDelimiters, pair.2 ∉ text.toList
  | kind => kind.WellFormed

namespace Lexer

theorem lexed_of_scan {c : Char} {cs : List Char} {s : Scanned} (h : scan c cs = .ok s) :
    s.kind.Lexed := by
  cases scan_eq_ok_iff.1 h with
  | word begins goesOn =>
    refine ⟨by simp, ?_⟩
    rw [String.toList_ofList]
    exact List.forall_mem_cons.2 ⟨begins, goesOn⟩
  | symbol => trivial
  | annot delimited inside => exact ⟨_, delimited, by rwa [String.toList_ofList]⟩
  | @comment line _ inside =>
    show IsCommentText _
    rw [IsCommentText, String.toList_ofList]
    refine ⟨fun hmem ↦ ?_, getLast?_trimEnd⟩
    obtain ⟨blanks, hblanks, -⟩ := exists_blank_suffix line
    rw [hblanks] at inside
    exact inside (List.mem_append_left _ hmem)

/-- A comment is read up to the end of its line. -/
theorem comment_of_scan {c : Char} {cs : List Char} {s : Scanned} (h : scan c cs = .ok s)
    (hs : s.kind.isComment = true) : '\n' ∉ s.taken ∧ ∀ d ∈ s.rest.head?, d = '\n' := by
  cases scan_eq_ok_iff.1 h with
  | word | symbol | annot => cases hs
  | comment inside behind =>
    exact ⟨List.not_mem_cons_of_ne_of_not_mem (by decide) inside, behind⟩

end Lexer

/-! ### Lines -/

namespace Location

theorem line_le_step (place : Location) (c : Char) : place.line ≤ (place.step c).line := by
  unfold step
  split
  · exact Nat.le_succ _
  · exact Nat.le_refl _

theorem line_le_walk (place : Location) (cs : List Char) : place.line ≤ (place.walk cs).line := by
  induction cs generalizing place with
  | nil => exact Nat.le_refl _
  | cons c cs ih => exact Nat.le_trans (place.line_le_step c) (ih _)

theorem offset_lt_step (place : Location) (c : Char) : place.offset < (place.step c).offset := by
  have hsize := Char.utf8Size_pos c
  unfold step
  split
  · exact Nat.lt_add_of_pos_right hsize
  · exact Nat.lt_add_of_pos_right hsize

theorem offset_lt_walk {place : Location} {cs : List Char} (h : cs ≠ []) :
    place.offset < (place.walk cs).offset := by
  induction cs generalizing place with
  | nil => exact absurd rfl h
  | cons c cs ih =>
    rw [walk_cons]
    cases cs with
    | nil => exact place.offset_lt_step c
    | cons d cs => exact Nat.lt_trans (place.offset_lt_step c) (ih (List.cons_ne_nil d cs))

/-- Walking over characters that end no line stays on the line. -/
theorem line_walk_of_not_mem {place : Location} {cs : List Char} (h : '\n' ∉ cs) :
    (place.walk cs).line = place.line := by
  induction cs generalizing place with
  | nil => rfl
  | cons c cs ih =>
    rw [List.mem_cons, not_or] at h
    rw [walk_cons, ih h.2, step, if_neg (Ne.symm h.1)]

end Location

/-- Whether `t` stands in front of `u`: it does not end below the line on which `u` begins, and a
comment ends its line. -/
structure Token.Precedes (t u : Token) : Prop where
  line_le : t.stop.line ≤ u.start.line
  line_lt : t.kind.isComment = true → t.stop.line < u.start.line

/-- Whether the token stands on the lines that it says it does: a comment on a single one. -/
structure Token.WellPlaced (t : Token) : Prop where
  line_le : t.start.line ≤ t.stop.line
  line_eq : t.kind.isComment = true → t.stop.line = t.start.line

namespace Lexer.Tokenized

variable {place : Location} {cs : List Char} {tokens : List Token}

/-- No token begins above the place at which the text does. -/
theorem line_le (h : Tokenized place cs tokens) : ∀ t ∈ tokens, place.line ≤ t.start.line := by
  intro t ht
  obtain ⟨before, -, -, -, hstart, -⟩ := h.exists_places t ht
  rw [hstart]
  exact place.line_le_walk before

/-- Behind the end of a line the tokens begin below it. -/
theorem line_lt (h : Tokenized place cs tokens) (hcs : ∀ c ∈ cs.head?, c = '\n') :
    ∀ t ∈ tokens, place.line < t.start.line := by
  cases cs with
  | nil =>
    have hempty : Tokenized place [] [] := .blanks (by simp)
    obtain rfl := h.unique hempty
    exact fun t ht ↦ (nomatch ht)
  | cons c cs =>
    obtain rfl := hcs c rfl
    have hbehind := (tokenized_append_iff (List.forall_mem_singleton.2 rfl)).1 h
    exact fun t ht ↦ Nat.lt_of_lt_of_le (Nat.lt_succ_self _) (hbehind.line_le t ht)

theorem wellPlaced (h : Tokenized place cs tokens) : ∀ t ∈ tokens, t.kind.Lexed ∧ t.WellPlaced := by
  induction h with
  | blanks => exact fun t ht ↦ (nomatch ht)
  | token _ _ scanned _ ih =>
    refine List.forall_mem_cons.2 ⟨⟨lexed_of_scan scanned, Location.line_le_walk _ _, ?_⟩, ih⟩
    exact fun hkind ↦ Location.line_walk_of_not_mem (comment_of_scan scanned hkind).1

theorem pairwise_precedes (h : Tokenized place cs tokens) : tokens.Pairwise Token.Precedes := by
  induction h with
  | blanks => exact .nil
  | token _ _ scanned behind ih =>
    refine .cons (fun t ht ↦ ⟨behind.line_le t ht, fun hkind ↦ ?_⟩) ih
    -- what is left behind a comment begins with the end of its line
    exact behind.line_lt (comment_of_scan scanned hkind).2 t ht

end Lexer.Tokenized

theorem Token.wellPlaced_of_tokenize {source : String} {tokens : List Token}
    (h : Token.tokenize source = .ok tokens) :
    (∀ t ∈ tokens, t.kind.Lexed ∧ t.WellPlaced) ∧ tokens.Pairwise Token.Precedes :=
  ⟨(tokenize_eq_ok_iff.1 h).wellPlaced, (tokenize_eq_ok_iff.1 h).pairwise_precedes⟩

end ModelSignatures
