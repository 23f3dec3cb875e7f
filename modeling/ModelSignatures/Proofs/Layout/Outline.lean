import ModelSignatures.Proofs.Layout.Code
import ModelSignatures.Proofs.Lexeme.Outline

/-!
# The outline of a laid out text

The outline of a text can be read off its layout: a comment on a line that the layout opens is
alone, and one behind a token is at the end of the token's line (`outline_text`).
-/

namespace ModelSignatures

namespace Layout

/-- The marks of a layout; a comment at its front is at the end of a line if `atLineEnd`. -/
def marks (atLineEnd : Bool) : Layout → List Mark
  | [] => []
  | .line _ :: layout | .blank :: layout => marks false layout
  | .space :: layout => marks atLineEnd layout
  | .token (.comment text) :: layout => .comment atLineEnd text :: marks atLineEnd layout
  | .token kind :: layout => .code kind :: marks true layout

theorem marks_token {kind : TokenKind} (hkind : kind.isComment = false) (atLineEnd : Bool)
    (layout : Layout) :
    marks atLineEnd (.token kind :: layout) = .code kind :: marks true layout := by
  cases kind with
  | comment text => cases hkind
  | _ => rfl

/-! ### Places -/

/-- The marks of a layout are those of its tokens, wherever it is written. -/
theorem marks_tokensAt {layout : Layout}
    (hlayout : ∀ text, .token (.comment text) ∈ layout → '\n' ∉ text.toList)
    {before : Option Token} {place : Location} (h : ∀ b ∈ before, b.stop.line ≤ place.line) :
    Token.marks before (layout.tokensAt place) =
      layout.marks (Lexeme.endsLineOf before place) := by
  induction layout generalizing before place with
  | nil => rfl
  | cons item layout ih =>
    have hrest : ∀ text, .token (.comment text) ∈ layout → '\n' ∉ text.toList :=
      fun text hmem ↦ hlayout text (List.mem_cons_of_mem _ hmem)
    -- a comment below the line of the token before does not end that line
    have hbelow : ∀ next : Location, next.line = place.line + 1 →
        Token.marks before (tokensAt next layout) = marks false layout := by
      intro next hnext
      have hends : Lexeme.endsLineOf before next = false := by
        rw [Lexeme.endsLineOf, Option.any_eq_false]
        intro b hb
        have hle := h b hb
        rw [beq_eq_false_iff_ne]
        omega
      rw [ih hrest fun b hb ↦ ?_, hends]
      have hle := h b hb
      omega
    cases item with
    | line indent => exact hbelow _ (line_walk_line place indent)
    | blank => exact hbelow (place.walk Item.blank.chars) rfl
    | space =>
      have hspace : ∀ b ∈ before, b.stop.line ≤ (place.walk Item.space.chars).line := h
      exact ih hrest hspace
    | token kind =>
      rw [tokensAt]
      cases hkind : kind.isComment with
      | false =>
        rw [Token.marks_cons hkind, marks_token hkind, ih hrest fun b hb ↦ ?_]
        · simp [Lexeme.endsLineOf]
        · cases hb
          exact Nat.le_refl _
      | true =>
        obtain ⟨text, rfl⟩ := TokenKind.exists_eq_comment hkind
        have hline : (place.walk (TokenKind.comment text).spelling).line = place.line := by
          refine Location.line_walk_of_not_mem ?_
          rw [TokenKind.spelling, List.mem_cons, not_or]
          exact ⟨by decide, hlayout text List.mem_cons_self⟩
        have hends : Lexeme.endsLineOf before (place.walk (TokenKind.comment text).spelling) =
            Lexeme.endsLineOf before place := by
          rw [Lexeme.endsLineOf, hline, Lexeme.endsLineOf]
        rw [Token.marks_comment rfl, ih hrest (fun b hb ↦ hline ▸ h b hb), hends, marks]

/-! ### Lines -/

/-- A layout that opens a line has the same marks wherever it stands. -/
theorem OpensLine.marks_eq {layout : Layout} (h : OpensLine layout) (atLineEnd : Bool) :
    marks atLineEnd layout = marks false layout := by
  cases layout with
  | nil => rfl
  | cons item layout => cases item <;> first | rfl | cases h

theorem marks_append (first : Layout) {second : Layout} (h : OpensLine second)
    (atLineEnd : Bool) :
    marks atLineEnd (first ++ second) = marks atLineEnd first ++ marks false second := by
  induction first generalizing atLineEnd with
  | nil => exact h.marks_eq atLineEnd
  | cons item first ih =>
    cases item with
    | token kind =>
      cases kind with
      | comment text => exact congrArg (_ :: ·) (ih _)
      | _ => exact congrArg (_ :: ·) (ih _)
    | _ => exact ih _

/-- The comment behind code is at the end of its line. -/
theorem IsCode.marks_append {layout : Layout} (h : IsCode layout) (c : Option String)
    {atLineEnd : Bool} (hne : atLineEnd = true ∨ tokens layout ≠ []) :
    marks atLineEnd (layout ++ lineComment c) =
      (tokens layout).map .code ++ (c.map (Mark.comment true)).toList := by
  induction layout generalizing atLineEnd with
  | nil =>
    obtain rfl : atLineEnd = true := hne.resolve_right fun hnil ↦ hnil rfl
    cases c <;> rfl
  | cons item layout ih =>
    cases item with
    | line | blank => exact ih h.2 (Or.inr h.1)
    | space => exact ih h hne
    | token kind =>
      rw [List.cons_append, marks_token h.1, ih h.2 (Or.inl rfl)]
      rfl

theorem marks_commentLines (indent : Nat) (texts : List String) :
    marks false (texts.flatMap (commentLine indent)) = texts.map (Mark.comment false) := by
  induction texts with
  | nil => rfl
  | cons text texts ih => exact congrArg (_ :: ·) ih

theorem marks_annotLines (indent : Nat) (texts : List String) (layout : Layout) :
    marks false (texts.flatMap (annotLine indent) ++ .line indent :: layout) =
      (texts.map fun text ↦ .code (.annot text)) ++ marks false layout := by
  induction texts with
  | nil => rfl
  | cons text texts ih =>
    rw [List.map_cons, List.cons_append, ← ih]
    cases texts <;> rfl

/-- The comments around an entry stand where they do in its marks. -/
theorem marks_entry (outer indent : Nat) (comments annots : List String) {code : Layout}
    (hcode : IsCode code) (hne : tokens code ≠ []) (c : Option String) :
    marks false (entry outer indent comments annots code c) =
      comments.map (Mark.comment false) ++
        ((annots.map TokenKind.annot ++ tokens code).map Mark.code ++
          (c.map (Mark.comment true)).toList) := by
  have hopens : OpensLine (annots.flatMap (annotLine indent) ++
      .line indent :: (code ++ lineComment c)) := by
    cases annots <;> trivial
  rw [entry, marks_append _ hopens, marks_commentLines, marks_annotLines,
    hcode.marks_append c (Or.inr hne), List.map_append, List.map_map, List.append_assoc]
  rfl

/-! ### Texts -/

/-- The outline of a readable layout of lines is told by its marks. -/
theorem outline_text {layout : Layout}
    (hlines : layout = [] ∨ ∃ indent more, layout = .line indent :: more)
    (h : layout.Readable ['\n']) (hannots : layout.AnnotsFit) :
    ∃ found, Token.tokenize (text layout) = .ok found ∧
      Token.outline found = marks false layout := by
  rcases hlines with rfl | ⟨indent, more, rfl⟩
  · exact ⟨[], tokenize_text_nil, rfl⟩
  · rw [readable_line] at h
    have htokens := tokenize_text indent h hannots.of_cons
    refine ⟨_, htokens, ?_⟩
    rw [Token.outline_eq_marks htokens, marks_tokensAt (fun text hmem ↦
      (legible_of_readable h (mem_tokens hmem)).1) (by simp)]
    rfl

end Layout

end ModelSignatures
