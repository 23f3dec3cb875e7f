import ModelSignatures.Proofs.Layout.Rows
import ModelSignatures.Proofs.Signature.Legible

/-!
# The rows of signatures

Every line of code ends in a token, so its row is full: it is not empty and ends in no blank. The
rows of a member or of a header begin with its keyword behind its indentation, and only a method has
more rows than one, whose bars stand below the colon behind its name (`Method.barIndent_eq`).
-/

namespace ModelSignatures

open Layout (word symbol chars rows methodName lineComment EndsInToken endsInToken_token
  endsInToken_intercalate IsCodeLine rows_codeLines tokenRows rows_entry)

/-! ### Ends of code -/

/-- A name ends in a token. -/
theorem TypeName.WellFormed.endsInToken {name : TypeName} (h : name.WellFormed) :
    EndsInToken name.layout := by
  refine EndsInToken.append_left _ (endsInToken_intercalate _ (by simp [h.nonempty]) ?_)
  exact List.forall_mem_map.2 fun segment _ ↦ endsInToken_token _

/-- A name with arguments, or without any, ends in a token. -/
theorem TypeName.WellFormed.endsInToken_layoutApplied {name : TypeName} (h : name.WellFormed)
    (args : List Layout) : EndsInToken (name.layoutApplied args) := by
  rw [TypeName.layoutApplied]
  split
  · exact h.endsInToken
  · exact (endsInToken_token _).append_left _

/-- A type ends in a token, at every level. -/
theorem TypeExpr.WellFormed.endsInToken {t : TypeExpr} (h : t.WellFormed) (level : Nat) :
    EndsInToken (t.layout level) := by
  induction h generalizing level with
  | base b =>
    rw [TypeExpr.layout]
    exact endsInToken_token _
  | classRef named =>
    rw [TypeExpr.layout]
    exact named.endsInToken_layoutApplied _
  | aliasRef named =>
    rw [TypeExpr.layout]
    exact named.endsInToken
  | optional _ single =>
    rw [layout_optional single]
    exact (endsInToken_token _).append_left _
  | @union ts several _ ih =>
    rw [TypeExpr.layout, Layout.parenthesizedAt, layouts_eq_map]
    split
    · refine endsInToken_intercalate _ ?_ (List.forall_mem_map.2 fun t ht ↦ ih t ht 1)
      rintro hnil
      rw [List.map_eq_nil_iff.1 hnil] at several
      cases several
    · exact (endsInToken_token _).append_left _

/-- A class with arguments ends in a token. -/
theorem ClassType.WellFormed.endsInToken {c : ClassType} (h : c.WellFormed) :
    EndsInToken c.layout :=
  h.named.endsInToken_layoutApplied _

/-- The name of a method ends in a token, its suffix if it has one. -/
theorem Layout.endsInToken_methodName (name : String) : EndsInToken (methodName name) := by
  unfold methodName
  split
  · exact (endsInToken_token _).append_left _
  · exact (endsInToken_token _).append_left _
  · exact (endsInToken_token _).append_left _
  · exact endsInToken_token _

/-- A way to call a method is a line of code. -/
theorem Overload.WellFormed.isCodeLine {o : Overload} (h : o.WellFormed) : IsCodeLine o.layout where
  inline := h.legible.inline
  ends := (h.result.endsInToken 1).append_left _

/-- A header is a line of code. -/
theorem DeclarationKind.WellFormed.isCodeLine {kind : DeclarationKind} (h : kind.WellFormed)
    {name : TypeName} (hname : name.WellFormed) : IsCodeLine (kind.header name) where
  inline := h.legible.inline hname.legible
  ends := by
    rcases kind with (- | superclass) | -
    · exact hname.endsInToken.append_left _
    · exact (h superclass rfl).endsInToken.append_left _
    · exact hname.endsInToken.append_left _

/-- The code of a member that is no method is a single line. -/
theorem MemberContent.WellFormed.isCodeLine {content : MemberContent} (h : content.WellFormed)
    (hline : content.isDeclaration = false) (hmethod : ∀ m, content ≠ .method m) (indent : Nat) :
    IsCodeLine (content.code indent) where
  inline := h.legible.inline hmethod indent
  ends := by
    cases content with
    | including mixin | extending mixin =>
      rw [MemberContent.WellFormed] at h
      exact (ClassType.WellFormed.endsInToken h).append_left _
    | attr kind name type =>
      rw [MemberContent.WellFormed] at h
      exact (h.2.endsInToken 0).append_left _
    | method m => exact absurd rfl (hmethod m)
    | aliasing newName oldName => exact (Layout.endsInToken_methodName oldName).append_left _
    | nested d => cases hline

/-! ### Rows of methods -/

namespace Method

/-- What stands on the line of a method in front of the colon behind its name. -/
def front (m : Method) : List Char :=
  "def ".toList ++ ((if m.singleton then "self.".toList else []) ++ m.name.toList)

/-- The header of a method is what is in front of the colon, and the colon. -/
theorem chars_header (m : Method) : chars m.header = m.front ++ [':'] := by
  obtain ⟨name, singleton, overloads⟩ := m
  cases singleton <;>
    simp [header, front, Layout.chars_append, Layout.chars_methodName, word, symbol,
      Layout.Item.chars, TokenKind.spelling, Symbol.spelling]

/-- A word character is one byte. -/
theorem utf8Size_of_isWordChar {c : Char} (h : isWordChar c = true) : c.utf8Size = 1 := by
  rw [Char.utf8Size_eq_one_iff, UInt32.le_iff_toNat_le]
  exact Nat.le_trans (Lexer.toNat_of_isWordChar h).2 (by decide)

/-- The bars of a method stand below its colon, since its name has as many bytes as characters. -/
theorem barIndent_eq {m : Method} (h : IsMethodName m.name) : m.barIndent = m.front.length := by
  -- the bars are indented by bytes and the colon stands behind characters
  have hsuffix : ∀ c ∈ ['?', '!', '='], c.utf8Size = 1 := by simp [Char.utf8Size_eq_one_iff]
  have hascii : ∀ c ∈ m.name.toList, c.utf8Size = 1 := by
    rcases h with hword | ⟨stem, c, hword, hc, hname⟩
    · exact fun c hc ↦ utf8Size_of_isWordChar (hword.2 c hc)
    · rw [hname, String.toList_push, List.forall_mem_append]
      exact ⟨fun c hc ↦ utf8Size_of_isWordChar (hword.2 c hc),
        List.forall_mem_singleton.2 (hsuffix c hc)⟩
  have hsize := (length_le_utf8ByteSize m.name.toList).2.2 hascii
  rw [String.ofList_toList] at hsize
  rw [barIndent, front, hsize]
  split <;> simp <;> omega

end Method

/-- Whether the rows are those of a member that is no declaration. The bars of a method's further
overloads stand below the colon behind its name. -/
inductive MemberContent.RowsAt (indent : Nat) : MemberContent → List (List Char) → Prop
  | method {m : Method} {first : List Char} {others : List (List Char)}
      (counted : m.overloads.length = others.length + 1)
      (barred : ∀ row ∈ others, ∃ other, row = indented (indent + m.front.length) ('|' :: other)) :
      RowsAt indent (.method m) (indented indent (m.front ++ ':' :: first) :: others)
  | line {content : MemberContent} {keyword : String} {behind : List Char}
      (single : ∀ m, content ≠ .method m) (begins : keyword ∈ keywords) :
      RowsAt indent content [indented indent (keyword.toList ++ behind)]

/-- A member has at least one row. -/
theorem MemberContent.RowsAt.ne_nil {indent : Nat} {content : MemberContent}
    {rows : List (List Char)} (h : content.RowsAt indent rows) : rows ≠ [] := by
  cases h <;> exact List.cons_ne_nil _ _

/-- A method is in the rows of its overloads, each of them full. -/
theorem Method.WellFormed.rowsAt {m : Method} (h : m.WellFormed) (indent : Nat)
    {c : Option String} (hc : ∀ text ∈ c, IsCommentText text) :
    (MemberContent.method m).RowsAt indent
        (rows (.line indent :: (m.code indent ++ lineComment c))) ∧
      ∀ row ∈ rows (.line indent :: (m.code indent ++ lineComment c)), IsFull row := by
  have hfront := chars_header m
  have hbar := barIndent_eq h.name
  have hheader := m.inline_header h.name
  obtain ⟨name, singleton, overloads⟩ := m
  have hall := h.overloads
  rcases overloads with - | ⟨first, others⟩
  · exact absurd rfl h.callable
  rw [List.forall_mem_cons] at hall
  -- the first overload goes on with the line of the header, each further one has its own line
  let further : List Layout := others.map fun o ↦ symbol .pipe ++ [.space] ++ o.layout
  have hfirst : IsCodeLine
      (header ⟨name, singleton, first :: others⟩ ++ [.space] ++ first.layout) :=
    ⟨(hheader.append Layout.inline_space).append hall.1.isCodeLine.inline,
      hall.1.isCodeLine.ends.append_left _⟩
  have hfurther : ∀ other ∈ further, IsCodeLine other := by
    refine List.forall_mem_map.2 fun o ho ↦ ⟨?_, (hall.2 o ho).isCodeLine.ends.append_left _⟩
    exact ((Layout.inline_symbol _).append Layout.inline_space).append
      (hall.2 o ho).isCodeLine.inline
  have hcode : code ⟨name, singleton, first :: others⟩ indent =
      header ⟨name, singleton, first :: others⟩ ++ [.space] ++ first.layout ++
        further.flatMap (.line (indent + barIndent ⟨name, singleton, first :: others⟩) :: ·) := by
    rw [code, List.flatMap_map]
    rfl
  obtain ⟨behind, more, hrows, hlength, hmore, hfull⟩ := rows_codeLines indent
    (indent + barIndent ⟨name, singleton, first :: others⟩) hfirst hfurther hc
  rw [hcode, hrows]
  refine ⟨?_, hfull⟩
  rw [Layout.chars_append, Layout.chars_append, hfront]
  simp only [List.append_assoc, List.singleton_append]
  refine .method ?_ fun row hrow ↦ ?_
  · rw [hlength, List.length_map, List.length_cons]
  · obtain ⟨other, hother, behind, rfl⟩ := hmore row hrow
    obtain ⟨o, -, rfl⟩ := List.mem_map.1 hother
    exact ⟨_, by rw [hbar]; rfl⟩

/-- The rows of a member's code. -/
theorem MemberContent.WellFormed.rowsAt {content : MemberContent} (h : content.WellFormed)
    (hline : content.isDeclaration = false) (indent : Nat) {c : Option String}
    (hc : ∀ text ∈ c, IsCommentText text) :
    content.RowsAt indent (rows (.line indent :: (content.code indent ++ lineComment c))) ∧
      ∀ row ∈ rows (.line indent :: (content.code indent ++ lineComment c)), IsFull row := by
  by_cases hmethod : ∃ m, content = .method m
  · obtain ⟨m, rfl⟩ := hmethod
    rw [MemberContent.WellFormed] at h
    exact Method.WellFormed.rowsAt h indent hc
  · rw [not_exists] at hmethod
    obtain ⟨keyword, hkeyword, more, hmore⟩ : ∃ keyword ∈ keywords, ∃ more,
        chars (content.code indent) = keyword.toList ++ more := by
      cases content with
      | including mixin => exact ⟨"include", by decide, _, rfl⟩
      | extending mixin => exact ⟨"extend", by decide, _, rfl⟩
      | attr kind name type => exact ⟨kind.keyword, by cases kind <;> decide, _, rfl⟩
      | method m => exact absurd rfl (hmethod m)
      | aliasing newName oldName => exact ⟨"alias", by decide, _, rfl⟩
      | nested d => cases hline
    obtain ⟨behind, hrows, hfull⟩ :=
      Layout.rows_codeLine indent (h.isCodeLine hline hmethod indent) hc
    rw [hrows]
    refine ⟨?_, hfull⟩
    rw [hmore, List.append_assoc]
    exact .line hmethod hkeyword

/-! ### Rows of declarations -/

/-- The word that a declaration begins with. -/
def DeclarationKind.keyword : DeclarationKind → String
  | ofClass _ => "class"
  | ofModule => "module"

/-- The row of a header. -/
theorem DeclarationKind.WellFormed.rows_header {kind : DeclarationKind} (h : kind.WellFormed)
    {name : TypeName} (hname : name.WellFormed) (indent : Nat) {c : Option String}
    (hc : ∀ text ∈ c, IsCommentText text) :
    ∃ behind, rows (.line indent :: (kind.header name ++ lineComment c)) =
        [indented indent (kind.keyword.toList ++ behind)] ∧
      ∀ row ∈ [indented indent (kind.keyword.toList ++ behind)], IsFull row := by
  obtain ⟨more, hmore⟩ : ∃ more, chars (kind.header name) = kind.keyword.toList ++ more := by
    rcases kind with (- | superclass) | - <;> exact ⟨_, rfl⟩
  obtain ⟨behind, hrows, hfull⟩ := Layout.rows_codeLine indent (h.isCodeLine hname) hc
  rw [hmore, List.append_assoc] at hrows hfull
  exact ⟨_, hrows, hfull⟩

/-! ### Rows of entries -/

/-- Comments stay on their lines. -/
theorem AreCommentTexts.newline_not_mem {texts : List String} (h : AreCommentTexts texts) :
    ∀ text ∈ texts, '\n' ∉ (TokenKind.comment text).spelling :=
  fun text htext ↦ List.not_mem_cons_of_ne_of_not_mem (by decide) (h text htext).1

/-- The rows of comments and annotations are full. -/
theorem AreCommentTexts.isFull_tokenRows {comments : List String} (h : AreCommentTexts comments)
    (annots : List String) (indent : Nat) :
    ∀ row ∈ tokenRows indent (comments.map .comment ++ annots.map .annot), IsFull row := by
  refine Layout.isFull_tokenRows indent (List.forall_mem_append.2 ⟨?_, ?_⟩)
  · exact List.forall_mem_map.2 h
  · exact List.forall_mem_map.2 fun _ _ ↦ trivial

section Entries

variable {comments annots : List String} (hcomments : AreCommentTexts comments)
  (hannots : ∀ text ∈ annots, '\n' ∉ (TokenKind.annot text).spelling)
include hcomments hannots

/-- The rows of a member that is no declaration. -/
theorem Member.exists_rows_layout {content : MemberContent} (h : content.WellFormed)
    (hline : content.isDeclaration = false) {comment : Option String}
    (hcomment : ∀ text ∈ comment, IsCommentText text) (blankBefore : Bool) (depth : Nat) :
    ∃ written, rows (Member.layout ⟨content, comments, annots, comment, blankBefore⟩ depth) =
        tokenRows (2 * depth) (comments.map .comment ++ annots.map .annot) ++ written ∧
      content.RowsAt (2 * depth) written ∧ ∀ row ∈ written, IsFull row := by
  refine ⟨_, ?_, h.rowsAt hline (2 * depth) hcomment⟩
  rw [Member.layout_eq h.legible hline, rows_entry _ _ hcomments.newline_not_mem hannots,
    Layout.tokenRows_append]

/-- The rows of a declaration: those of its header and of its end, around the rows of its members
and of its last comments. -/
theorem Declaration.exists_rows_layout {kind : DeclarationKind} {name : TypeName}
    (hkind : kind.WellFormed) (hname : name.WellFormed) {headerComment endComment : Option String}
    (hheader : ∀ text ∈ headerComment, IsCommentText text)
    (hend : ∀ text ∈ endComment, IsCommentText text) {members : List Member}
    (hmembers : ∀ m ∈ members, m.Legible) {trailing : List String}
    (htrailing : AreCommentTexts trailing) (depth : Nat) :
    ∃ headerText endText,
      rows (Declaration.layout ⟨kind, name, [], [], headerComment, members, trailing, endComment⟩
          depth comments annots) =
        tokenRows (2 * depth) (comments.map .comment ++ annots.map .annot) ++
          indented (2 * depth) (kind.keyword.toList ++ headerText) ::
            (rows (Member.layouts members (depth + 1) true) ++
              tokenRows (2 * depth + 2) (trailing.map .comment) ++
              [indented (2 * depth) ("end".toList ++ endText)]) ∧
      IsFull (indented (2 * depth) (kind.keyword.toList ++ headerText)) ∧
      IsFull (indented (2 * depth) ("end".toList ++ endText)) := by
  obtain ⟨headerText, hheaderRows, hheaderFull⟩ := hkind.rows_header hname (2 * depth) hheader
  have hendLine : IsCodeLine (word "end") :=
    ⟨Layout.inline_word (by decide +kernel), endsInToken_token _⟩
  obtain ⟨endText, hendRows, hendFull⟩ := Layout.rows_codeLine (2 * depth) hendLine hend
  rw [show chars (word "end") = "end".toList from List.append_nil _] at hendRows hendFull
  refine ⟨headerText, endText, ?_, hheaderFull _ List.mem_cons_self,
    hendFull _ List.mem_cons_self⟩
  have hopens := Layout.opensLine_entry (2 * depth + 2) (2 * depth) trailing [] (word "end")
    endComment
  rw [Declaration.layout_eq, List.append_nil, List.append_nil,
    Layout.rows_append _ ((Member.opensLine_layouts hmembers _ _).append hopens),
    Layout.rows_append _ hopens, rows_entry _ _ hcomments.newline_not_mem hannots,
    rows_entry _ _ htrailing.newline_not_mem (List.forall_mem_nil _), Layout.tokenRows_append,
    hheaderRows, hendRows]
  simp [tokenRows]

end Entries

/-! ### Rows of texts -/

namespace Signature

/-- The rows of a signature: those of its declarations and those of its last comments. -/
theorem rows_layout {s : Signature} (h : AreCommentTexts s.trailingComments) :
    rows s.layout = [[]].intercalate ((s.declarations.map fun d ↦ rows (d.layout 0 [] [])) ++
      if s.trailingComments.isEmpty then []
      else [tokenRows 0 (s.trailingComments.map .comment)]) := by
  have hmore : ∀ ds : List Declaration, rows (ds.flatMap fun d ↦ .blank :: d.layout 0 [] []) =
      ds.flatMap fun d ↦ [] :: rows (d.layout 0 [] []) := by
    intro ds
    induction ds with
    | nil => rfl
    | cons d ds ih =>
      rw [List.flatMap_cons, List.flatMap_cons,
        Layout.rows_append _ (opensLine_moreDeclarations ds), ih, ← List.singleton_append,
        Layout.rows_append _ (d.opensLine_layout 0 [] [])]
      rfl
  have hcons : ∀ d ds, rows (declarationsLayout (d :: ds)) =
      rows (d.layout 0 [] []) ++ ds.flatMap fun d ↦ [] :: rows (d.layout 0 [] []) := by
    intro d ds
    rw [declarationsLayout_cons, Layout.rows_append _ (opensLine_moreDeclarations ds), hmore]
  have hcomments : rows (s.trailingComments.flatMap (Layout.commentLine 0)) =
      tokenRows 0 (s.trailingComments.map .comment) :=
    Layout.rows_remarkLines 0 h.newline_not_mem
  have hopens := Layout.opensLine_commentLines 0 s.trailingComments
  rw [layout_eq, Layout.rows_append _ s.opensLine_closingLayout, closingLayout,
    Layout.rows_append _ hopens, hcomments]
  rcases s.declarations with - | ⟨d, ds⟩ <;> rcases s.trailingComments with - | ⟨c, cs⟩
  · rfl
  · simp [declarationsLayout]
  · simp [hcons, Layout.intercalate_cons, List.flatMap_map, tokenRows]
  · simp [hcons, Layout.intercalate_cons, List.flatMap_map]

end Signature

end ModelSignatures
