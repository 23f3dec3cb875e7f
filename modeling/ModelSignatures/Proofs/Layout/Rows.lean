import Mathlib.Data.List.Chain
import ModelSignatures.Proofs.Text.Lines
import ModelSignatures.Proofs.TypeExpr.Legible

/-!
# The rows of a layout

The rows of a layout are the lines that it opens, and the rows of two layouts one behind the other
are those of the first and those of the second, if the second opens a line (`rows_append`). Rows are
tidy if none ends in a blank and an empty one stands only alone between others, and they stay tidy
when they are put together, with an empty one between them or none.
-/

namespace ModelSignatures

/-! ### Tidy rows -/

/-- A row behind so many spaces. -/
def indented (indent : Nat) (cs : List Char) : List Char :=
  List.replicate indent ' ' ++ cs

/-- Whether a row ends in a character that is not blank, and so is not empty. -/
def IsFull (row : List Char) : Prop :=
  ∃ c ∈ row.getLast?, isBlank c = false

/-- A full row is not empty. -/
theorem IsFull.ne_nil {row : List Char} (h : IsFull row) : row ≠ [] := by
  rintro rfl
  obtain ⟨c, hc, -⟩ := h
  cases hc

/-- A row is full if its end is. -/
theorem IsFull.append_left (first : List Char) {second : List Char} (h : IsFull second) :
    IsFull (first ++ second) := by
  obtain ⟨c, hc, hblank⟩ := h
  exact ⟨c, List.mem_getLast?_append_of_mem_getLast? hc, hblank⟩

/-- What a token is written as ends in a character that is not blank. -/
theorem TokenKind.Legible.isFull {kind : TokenKind} (h : kind.Legible) : IsFull kind.spelling := by
  cases kind with
  | word text =>
    obtain ⟨c, hc⟩ := Option.ne_none_iff_exists'.1 (mt List.getLast?_eq_none_iff.1 h.1)
    exact ⟨c, hc, Lexer.isBlank_of_isWordChar (h.2 c (List.mem_of_getLast? hc))⟩
  | symbol s => cases s <;> exact ⟨_, rfl, by decide⟩
  | annot text =>
    refine ⟨_, List.getLast?_concat, ?_⟩
    have hclosing : ∀ pair ∈ annotationDelimiters, isBlank pair.2 = false := by decide
    exact hclosing _ (delimitersFor_mem text.toList)
  | comment text =>
    rw [spelling]
    rcases htext : text.toList.getLast? with - | c
    · rw [List.getLast?_eq_none_iff.1 htext]
      exact ⟨'#', rfl, by decide⟩
    · exact IsFull.append_left ['#'] ⟨c, htext, h.2 c htext⟩

/-- A token is written on one line, if it is no annotation of more. -/
theorem TokenKind.Legible.newline_not_mem {kind : TokenKind} (h : kind.Legible)
    (hannot : ∀ text, kind = .annot text → '\n' ∉ text.toList) : '\n' ∉ kind.spelling := by
  cases kind with
  | word text => exact (show (word text).InCode from h).newline_not_mem
  | symbol s => exact (show (symbol s).InCode from h).newline_not_mem
  | annot text =>
    have hdelimiters : ∀ pair ∈ annotationDelimiters, pair.1 ≠ '\n' ∧ pair.2 ≠ '\n' := by decide
    obtain ⟨hopening, hclosing⟩ := hdelimiters _ (delimitersFor_mem text.toList)
    simp [spelling, hannot text rfl, hopening.symm, hclosing.symm]
  | comment text => exact List.not_mem_cons_of_ne_of_not_mem (by decide) h.1

/-- What stands in code is legible. -/
theorem TokenKind.InCode.legible {kind : TokenKind} (h : kind.InCode) : kind.Legible := by
  cases kind with
  | word text | symbol s => exact h
  | annot text | comment text => exact h.elim

/-- Whether some rows begin and end with no empty one and have no two of them one below the other,
and no row ends in a blank. -/
structure IsTidy (rows : List (List Char)) : Prop where
  head : rows.head? ≠ some []
  last : rows.getLast? ≠ some []
  apart : rows.IsChain fun row next ↦ row = [] → next ≠ []
  trimmed : ∀ row ∈ rows, ∀ c ∈ row.getLast?, isBlank c = false

/-- Full rows are tidy. -/
theorem isTidy_of_full {rows : List (List Char)} (h : ∀ row ∈ rows, IsFull row) : IsTidy rows where
  head hhead := (h [] (List.mem_of_mem_head? hhead)).ne_nil rfl
  last hlast := (h [] (List.mem_of_getLast? hlast)).ne_nil rfl
  apart := by
    refine (List.pairwise_of_forall_mem_list ?_).isChain
    exact fun row hrow next hnext _ ↦ (h next hnext).ne_nil
  trimmed row hrow c hc := by
    obtain ⟨d, hd, hblank⟩ := h row hrow
    rw [Option.mem_def] at hc hd
    cases hd.symm.trans hc
    exact hblank

theorem isTidy_nil : IsTidy [] :=
  isTidy_of_full (List.forall_mem_nil _)

section Append

variable {rows others : List (List Char)}

/-- Tidy rows stay tidy below others. -/
theorem IsTidy.append (h : IsTidy rows) (hothers : IsTidy others) : IsTidy (rows ++ others) where
  head hhead := by
    cases rows with
    | nil => exact hothers.head hhead
    | cons row rows => exact h.head hhead
  last hlast := by
    rcases others.eq_nil_or_concat with rfl | ⟨others, row, rfl⟩
    · rw [List.append_nil] at hlast
      exact h.last hlast
    · rw [List.concat_eq_append] at *
      rw [← List.append_assoc, List.getLast?_concat] at hlast
      exact hothers.last (List.getLast?_concat.trans hlast)
  apart := by
    refine h.apart.append hothers.apart ?_
    rintro row hrow next - rfl
    exact absurd hrow h.last
  trimmed := List.forall_mem_append.2 ⟨h.trimmed, hothers.trimmed⟩

/-- An empty row may stand between rows, of which there are some on both sides. -/
theorem IsTidy.append_blank (h : IsTidy rows) (hne : rows ≠ []) (hothers : IsTidy others)
    (hothersNe : others ≠ []) : IsTidy (rows ++ [] :: others) where
  head hhead := by
    rw [List.head?_append_of_ne_nil _ hne] at hhead
    exact h.head hhead
  last hlast := by
    rw [List.getLast?_append_of_ne_nil _ (List.cons_ne_nil _ _), List.getLast?_cons,
      List.getLast?_eq_some_getLast hothersNe] at hlast
    exact hothers.last ((List.getLast?_eq_some_getLast hothersNe).trans hlast)
  apart := by
    have hbehind : ([] :: others).IsChain fun row next ↦ row = [] → next ≠ [] := by
      rw [List.isChain_cons]
      refine ⟨fun next hnext _ hnil ↦ ?_, hothers.apart⟩
      subst hnil
      exact hothers.head hnext
    refine h.apart.append hbehind ?_
    rintro row hrow next - rfl
    exact absurd hrow h.last
  trimmed := by
    rw [List.forall_mem_append, List.forall_mem_cons]
    exact ⟨h.trimmed, by simp, hothers.trimmed⟩

end Append

/-- Rows with one empty row between each two groups of them. -/
theorem isTidy_intercalate {groups : List (List (List Char))}
    (h : ∀ rows ∈ groups, IsTidy rows ∧ rows ≠ []) : IsTidy ([[]].intercalate groups) := by
  cases groups with
  | nil => exact isTidy_nil
  | cons rows groups =>
    rw [Layout.intercalate_cons]
    rw [List.forall_mem_cons] at h
    obtain ⟨⟨htidy, hne⟩, hgroups⟩ := h
    induction groups generalizing rows with
    | nil => rwa [List.flatMap_nil, List.append_nil]
    | cons next groups ih =>
      rw [List.forall_mem_cons] at hgroups
      have hboth := htidy.append_blank hne hgroups.1.1 hgroups.1.2
      rw [List.flatMap_cons, ← List.append_assoc]
      exact ih _ hgroups.2 hboth (by simp)

namespace Layout

/-! ### Rows -/

/-- The lines that a layout opens. -/
def rows (layout : Layout) : List (List Char) :=
  ((chars layout).splitOn '\n').tail

@[simp] theorem rows_nil : rows [] = [] := rfl

@[simp] theorem rows_blank : rows [.blank] = [[]] := rfl

/-- A layout that opens a line adds its own rows below those above it. -/
theorem rows_append (first : Layout) {second : Layout} (h : OpensLine second) :
    rows (first ++ second) = rows first ++ rows second := by
  have hopens : chars second = [] ∨ ∃ cs, chars second = '\n' :: cs := by
    cases second with
    | nil => exact Or.inl rfl
    | cons item second =>
      cases item with
      | line | blank => exact Or.inr ⟨_, rfl⟩
      | space | token => exact h.elim
  rw [rows, rows, rows, chars_append]
  rcases hopens with heq | ⟨cs, heq⟩
  · rw [heq, List.append_nil]
    exact (List.append_nil _).symm
  · obtain ⟨others, hfirst⟩ := head?_splitOn (chars first)
    have hsecond : ('\n' :: cs).splitOn '\n' = [] :: cs.splitOn '\n' :=
      List.splitOn_append_cons_self_of_not_mem List.not_mem_nil cs
    rw [heq, List.splitOn_append_cons_self, hfirst, hsecond]
    rfl

/-- Code that ends no line is a row by itself. -/
theorem rows_line (indent : Nat) {code : Layout} (h : '\n' ∉ chars code) :
    rows (.line indent :: code) = [indented indent (chars code)] := by
  have hrow : '\n' ∉ indented indent (chars code) := by
    rw [indented, List.mem_append, not_or]
    exact ⟨by simp, h⟩
  have hchars : chars (.line indent :: code) = [] ++ '\n' :: indented indent (chars code) := by
    rw [chars_cons]
    rfl
  rw [rows, hchars, List.splitOn_append_cons_self_of_not_mem List.not_mem_nil,
    List.splitOn_eq_singleton hrow]
  rfl

/-- The lines of a text are the rows of its layout, and what stands behind the last line feed. -/
theorem linesOf_text {layout : Layout}
    (h : layout = [] ∨ ∃ indent more, layout = .line indent :: more) :
    linesOf layout.text = rows layout ++ [[]] := by
  rcases h with rfl | ⟨indent, more, rfl⟩
  · rfl
  · have hchars : chars (.line indent :: more) =
        [] ++ '\n' :: (List.replicate indent ' ' ++ chars more) := by
      rw [chars_cons]
      rfl
    have htext : (text (.line indent :: more)).toList =
        (List.replicate indent ' ' ++ chars more) ++ '\n' :: [] := by
      show (String.ofList ((chars (.line indent :: more)).drop 1 ++ ['\n'])).toList = _
      rw [hchars, String.toList_ofList]
      rfl
    rw [linesOf, htext, rows, hchars, List.splitOn_append_cons_self_of_not_mem List.not_mem_nil,
      List.splitOn_append_cons_self]
    rfl

/-! ### Rows of tokens -/

/-- The rows of some tokens, each of which has a line of its own. -/
def tokenRows (indent : Nat) (ks : List TokenKind) : List (List Char) :=
  ks.map fun kind ↦ indented indent kind.spelling

/-- Tokens on lines of their own have a row for each line that they have. -/
theorem tokenRows_append (indent : Nat) (ks more : List TokenKind) :
    tokenRows indent (ks ++ more) = tokenRows indent ks ++ tokenRows indent more :=
  List.map_append

/-- The rows of legible tokens are full. -/
theorem isFull_tokenRows (indent : Nat) {ks : List TokenKind} (h : ∀ kind ∈ ks, kind.Legible) :
    ∀ row ∈ tokenRows indent ks, IsFull row :=
  List.forall_mem_map.2 fun kind hkind ↦ (h kind hkind).isFull.append_left _

/-- Tokens on lines of their own are in the rows of these tokens. -/
theorem rows_tokenLines (indent : Nat) {ks : List TokenKind}
    (h : ∀ kind ∈ ks, '\n' ∉ kind.spelling) :
    rows (ks.flatMap fun kind ↦ [.line indent, .token kind]) = tokenRows indent ks := by
  induction ks with
  | nil => rfl
  | cons kind ks ih =>
    rw [List.forall_mem_cons] at h
    have hopens : OpensLine (ks.flatMap fun kind ↦ [.line indent, .token kind]) := by
      cases ks <;> trivial
    have hkind : chars [.token kind] = kind.spelling := List.append_nil _
    rw [List.flatMap_cons, rows_append _ hopens, rows_line indent (hkind ▸ h.1), ih h.2, hkind]
    rfl

/-- Comments and annotations on lines of their own. -/
theorem rows_remarkLines (indent : Nat) {texts : List String} {kind : String → TokenKind}
    (h : ∀ text ∈ texts, '\n' ∉ (kind text).spelling) :
    rows (texts.flatMap fun text ↦ [.line indent, .token (kind text)]) =
      tokenRows indent (texts.map kind) := by
  rw [← rows_tokenLines indent (List.forall_mem_map.2 h), List.flatMap_map]

/-! ### Rows of code -/

/-- Whether nothing stands behind the last token of a layout. -/
def EndsInToken (layout : Layout) : Prop :=
  ∃ kind, layout.getLast? = some (.token kind)

theorem endsInToken_token (kind : TokenKind) : EndsInToken [.token kind] :=
  ⟨kind, rfl⟩

/-- A layout ends in a token if what stands last does. -/
theorem EndsInToken.append_left (first : Layout) {second : Layout} (h : EndsInToken second) :
    EndsInToken (first ++ second) := by
  obtain ⟨kind, hkind⟩ := h
  exact ⟨kind, List.mem_getLast?_append_of_mem_getLast? hkind⟩

/-- A list of layouts that end in tokens ends in one. -/
theorem endsInToken_intercalate (separator : Layout) {items : List Layout} (hne : items ≠ [])
    (h : ∀ item ∈ items, EndsInToken item) : EndsInToken (separator.intercalate items) := by
  obtain ⟨init, last, rfl⟩ := (List.eq_nil_or_concat items).resolve_left hne
  have hlast := h last (by simp)
  cases init with
  | nil => simpa using hlast
  | cons first others =>
    rw [List.concat_eq_append, List.cons_append, intercalate_cons, List.flatMap_append,
      List.flatMap_singleton]
    exact ((hlast.append_left separator).append_left _).append_left _

/-- Whether a layout is code that goes on with a line and ends in a token. -/
structure IsCodeLine (layout : Layout) : Prop where
  inline : Inline TokenKind.InCode layout
  ends : EndsInToken layout

/-- A line of code is full. -/
theorem IsCodeLine.isFull {layout : Layout} (h : IsCodeLine layout) : IsFull (chars layout) := by
  obtain ⟨kind, hkind⟩ := h.ends
  have hcode : kind.InCode := h.inline _ (List.mem_of_getLast? hkind)
  obtain ⟨init, rfl⟩ := List.getLast?_eq_some_iff.1 hkind
  rw [chars_append, show chars [.token kind] = kind.spelling from List.append_nil _]
  exact hcode.legible.isFull.append_left _

/-- A line of code is one line. -/
theorem IsCodeLine.newline_not_mem {layout : Layout} (h : IsCodeLine layout) :
    '\n' ∉ chars layout :=
  h.inline.not_mem_chars (by decide) fun _ hkind ↦ hkind.newline_not_mem

/-- A comment at the end of a line stays on it, and is full unless there is none. -/
theorem chars_lineComment {c : Option String} (hc : ∀ text ∈ c, IsCommentText text) :
    '\n' ∉ chars (lineComment c) ∧
      (chars (lineComment c) = [] ∨ IsFull (chars (lineComment c))) := by
  cases c with
  | none => exact ⟨by simp [lineComment], Or.inl rfl⟩
  | some text =>
    have hlegible : (TokenKind.comment text).Legible := hc text rfl
    have hchars : chars (lineComment (some text)) = [' '] ++ (TokenKind.comment text).spelling := by
      simp [lineComment, Item.chars]
    rw [hchars]
    refine ⟨?_, Or.inr (hlegible.isFull.append_left _)⟩
    simpa [TokenKind.spelling] using (hc text rfl).1

/-- Code of some lines and a comment at the end of the last are a row for each of the lines. -/
theorem rows_codeLines (indent next : Nat) {first : Layout} (hfirst : IsCodeLine first)
    {others : List Layout} (hothers : ∀ other ∈ others, IsCodeLine other) {c : Option String}
    (hc : ∀ text ∈ c, IsCommentText text) :
    ∃ behind more,
      rows (.line indent :: (first ++ others.flatMap (.line next :: ·) ++ lineComment c)) =
        indented indent (chars first ++ behind) :: more ∧
      more.length = others.length ∧
      (∀ row ∈ more, ∃ other ∈ others, ∃ behind, row = indented next (chars other ++ behind)) ∧
      ∀ row ∈ indented indent (chars first ++ behind) :: more, IsFull row := by
  obtain ⟨hnewline, hfull⟩ := chars_lineComment hc
  -- over the further lines: the comment stays at the end of the last of them
  induction others generalizing indent first with
  | nil =>
    have hcode : '\n' ∉ chars (first ++ lineComment c) := by
      rw [chars_append, List.mem_append, not_or]
      exact ⟨hfirst.newline_not_mem, hnewline⟩
    refine ⟨chars (lineComment c), [], ?_, rfl, by simp, List.forall_mem_singleton.2 ?_⟩
    · rw [List.flatMap_nil, List.append_nil, rows_line indent hcode, chars_append]
    · refine IsFull.append_left _ ?_
      rcases hfull with hnil | hfull
      · rw [hnil, List.append_nil]
        exact hfirst.isFull
      · exact hfull.append_left _
  | cons other others ih =>
    rw [List.forall_mem_cons] at hothers
    obtain ⟨behind, more, hrows, hlength, hmore, hall⟩ := ih next hothers.1 hothers.2
    refine ⟨[], _, ?_, congrArg (· + 1) hlength, List.forall_mem_cons.2 ⟨?_, fun row hrow ↦ ?_⟩,
      List.forall_mem_cons.2 ⟨?_, hall⟩⟩
    · have hsplit : .line indent :: (first ++ (other :: others).flatMap (.line next :: ·) ++
          lineComment c) = .line indent :: first ++
            .line next :: (other ++ others.flatMap (.line next :: ·) ++ lineComment c) := by
        simp
      have hopens : OpensLine
          (.line next :: (other ++ others.flatMap (.line next :: ·) ++ lineComment c)) := trivial
      rw [hsplit, rows_append _ hopens, rows_line indent hfirst.newline_not_mem, hrows,
        List.append_nil]
      rfl
    · exact ⟨other, List.mem_cons_self, behind, rfl⟩
    · obtain ⟨u, hu, hrow⟩ := hmore row hrow
      exact ⟨u, List.mem_cons_of_mem _ hu, hrow⟩
    · rw [List.append_nil]
      exact hfirst.isFull.append_left _

/-- A line of code, with a comment or without one, is one full row. -/
theorem rows_codeLine (indent : Nat) {code : Layout} (hcode : IsCodeLine code) {c : Option String}
    (hc : ∀ text ∈ c, IsCommentText text) :
    ∃ behind, rows (.line indent :: (code ++ lineComment c)) =
        [indented indent (chars code ++ behind)] ∧
      ∀ row ∈ [indented indent (chars code ++ behind)], IsFull row := by
  obtain ⟨behind, more, hrows, hlength, -, hfull⟩ :=
    rows_codeLines indent 0 hcode (List.forall_mem_nil _) hc
  obtain rfl := List.length_eq_zero_iff.1 hlength
  rw [List.flatMap_nil, List.append_nil] at hrows
  exact ⟨behind, hrows, hfull⟩

/-- An entry is a row for each of its comments and annotations, and the rows of its code. -/
theorem rows_entry (outer indent : Nat) {comments annots : List String}
    (hcomments : ∀ text ∈ comments, '\n' ∉ (TokenKind.comment text).spelling)
    (hannots : ∀ text ∈ annots, '\n' ∉ (TokenKind.annot text).spelling) (code : Layout)
    (c : Option String) :
    rows (entry outer indent comments annots code c) =
      tokenRows outer (comments.map .comment) ++ tokenRows indent (annots.map .annot) ++
        rows (.line indent :: (code ++ lineComment c)) := by
  have hopens : OpensLine (.line indent :: (code ++ lineComment c)) := trivial
  have hlines : OpensLine (annots.flatMap (annotLine indent) ++
      .line indent :: (code ++ lineComment c)) := by
    cases annots <;> trivial
  rw [entry, rows_append _ hlines, rows_append _ hopens, List.append_assoc]
  exact congrArg₂ _ (rows_remarkLines outer hcomments)
    (congrArg (· ++ _) (rows_remarkLines indent hannots))

end Layout

end ModelSignatures
