import ModelSignatures.Proofs.Signature.Annotations
import ModelSignatures.Proofs.Signature.Rows
import ModelSignatures.Proofs.Signature.TokenGroups

/-!
# How a formatted text is arranged

The tokens of a source are divided into blocks, one for each declaration and for each other member,
and what is written for a block is told by its tokens alone: how far each row is indented, and where
an empty row stands. A block inside a body is written one level deeper, and an empty row is written
before it just if its tokens begin more than one line below those of the block above
(`Block.Arranged`). That the text of a formatted source is arranged so (`arranges_of_format`) rests
on the induction over what the tokens spell (`Phrase.Spells.isArranged`), which divides the tokens
and the rows alike.
-/

namespace ModelSignatures

open Layout (rows tokenRows)

/-! ### Blocks -/

/-- Whether a token may stand above a line of code: an annotation, or a comment on a line for
itself. -/
def Token.IsRemark (source : List Token) (t : Token) : Prop :=
  (∃ text, t.kind = .annot text) ∨ t.IsCommentLine source

/-- A declaration or another member of a source, and what is written for it. -/
structure Block where
  isDeclaration : Bool
  /-- The tokens in the source, with those of its comments and of its annotations. -/
  tokens : List Token
  /-- The lines that are written. -/
  rows : List (List Char)

namespace Block

/-- Whether a block begins more than one line below the last line of another in the source. -/
def isApartFrom (below above : Block) : Bool :=
  above.tokens.getLast?.any (·.endsApart below.tokens)

/-- The rows of some blocks: an empty row stands before each that is apart from the block above. -/
def rowsBehind (above : Option Block) : List Block → List (List Char)
  | [] => []
  | b :: bs => (if above.any b.isApartFrom then [[]] else []) ++ b.rows ++ rowsBehind (some b) bs

/-- Whether a block of the source is arranged as it has to be at the given depth: its comments and
its annotations are indented like its own lines, its members and the comments above its `end` one
level deeper, and there is no empty row below its header or above its `end`. -/
inductive Arranged (source : List Token) : Nat → Block → Prop
  | member {depth : Nat} {content : MemberContent} {before : Option Token}
      {remarks code behind : List Token} {rows : List (List Char)}
      (remarked : ∀ t ∈ remarks, t.IsRemark source)
      (spelled : content.Spells (Token.pieces before code))
      (ended : Token.EndLineOf behind code) (written : content.RowsAt (2 * depth) rows) :
      Arranged source depth
        ⟨false, remarks ++ (code ++ behind),
          tokenRows (2 * depth) (remarks.map (·.kind)) ++ rows⟩
  | declaration {depth : Nat} {kind : DeclarationKind} {name : TypeName}
      {remarks header behind closing last : List Token} {ending : Token} {blocks : List Block}
      {inner : List (List Char)} {headerText endText : List Char}
      (remarked : ∀ t ∈ remarks, t.IsRemark source)
      (headed : kind.Spells name (header.map (·.kind))) (ended : Token.EndLineOf behind header)
      (inside : ∀ b ∈ blocks, Arranged source (depth + 1) b)
      (commented : ∀ t ∈ closing, t.IsCommentLine source) (closed : ending.kind = .word "end")
      (endedLast : Token.EndLineOf last [ending])
      (body : inner = rowsBehind none blocks ++ tokenRows (2 * depth + 2) (closing.map (·.kind)))
      (noneBelowHeader : inner.head? ≠ some []) (noneAboveEnd : inner.getLast? ≠ some []) :
      Arranged source depth
        ⟨true, remarks ++ (header ++ behind) ++
            (blocks.flatMap (·.tokens) ++ (closing ++ ending :: last)),
          tokenRows (2 * depth) (remarks.map (·.kind)) ++
            indented (2 * depth) (kind.keyword.toList ++ headerText) ::
              (inner ++ [indented (2 * depth) ("end".toList ++ endText)])⟩

/-- Whether a block is arranged and its rows, of which there are some, are tidy. -/
structure IsLaid (source : List Token) (depth : Nat) (b : Block) : Prop where
  arranged : b.Arranged source depth
  tidy : IsTidy b.rows
  nonempty : b.rows ≠ []

/-- Rows stay tidy with those of blocks below them. -/
theorem isTidy_append_rowsBehind {source : List Token} {depth : Nat} {blocks : List Block}
    (h : ∀ b ∈ blocks, b.IsLaid source depth) {rows : List (List Char)} (hrows : IsTidy rows)
    (hne : rows ≠ []) (above : Option Block) : IsTidy (rows ++ rowsBehind above blocks) := by
  induction blocks generalizing rows above with
  | nil =>
    rw [rowsBehind, List.append_nil]
    exact hrows
  | cons b bs ih =>
    rw [List.forall_mem_cons] at h
    rw [rowsBehind, ← List.append_assoc, ← List.append_assoc]
    refine ih h.2 ?_ (by simp [h.1.nonempty]) (some b)
    split
    · rw [List.append_assoc]
      exact hrows.append_blank hne h.1.tidy h.1.nonempty
    · rw [List.append_nil]
      exact hrows.append h.1.tidy

theorem isTidy_rowsBehind_none {source : List Token} {depth : Nat} {blocks : List Block}
    (h : ∀ b ∈ blocks, b.IsLaid source depth) : IsTidy (rowsBehind none blocks) := by
  cases blocks with
  | nil => exact isTidy_nil
  | cons b bs =>
    rw [List.forall_mem_cons] at h
    exact isTidy_append_rowsBehind h.2 h.1.tidy h.1.nonempty (some b)

end Block

/-! ### Phrases -/

/-- The tokens of a line: the comments and the annotations above it, its code, and the comment at
its end. -/
theorem Token.Gathered.exists_remarks {source : List Token} {before : Option Token}
    {ts : List Token} {above code : List View} (h : Token.Gathered source before ts (above ++ code))
    {annots comments : List String} {spaced : Bool} {lineComment : Option String}
    (annotated : above.map (·.kind) = annots.map .annot) (hne : code ≠ [])
    (line : View.IsLine (above ++ code) comments spaced lineComment) :
    ∃ remarks codeTokens behind before', ts = remarks ++ (codeTokens ++ behind) ∧
      remarks.map (·.kind) = comments.map .comment ++ annots.map .annot ∧
      (∀ t ∈ remarks, t.IsRemark source) ∧ code.map View.toPiece = pieces before' codeTokens ∧
      EndLineOf behind codeTokens ∧ spaced = before.any (·.endsApart ts) := by
  obtain ⟨commentTokens, lineTokens, behind, rfl, hcomments, halone, hpieces, hbehind, hspaced⟩ :=
    h.exists_line line
  rw [List.map_append] at hpieces
  obtain ⟨annotTokens, codeTokens, before', rfl, hannots, hcode⟩ :=
    exists_append_of_pieces_eq hpieces.symm
  have hkinds : annotTokens.map (·.kind) = annots.map .annot := by
    have hmap := congrArg (List.map Piece.kind) hannots
    rw [List.map_map, map_kind_pieces] at hmap
    rw [← annotated, hmap]
    rfl
  refine ⟨commentTokens ++ annotTokens, codeTokens, behind, before', by simp, ?_,
    List.forall_mem_append.2 ⟨fun t ht ↦ Or.inr (halone t ht), fun t ht ↦ Or.inl ?_⟩,
    hcode.symm, ?_, hspaced⟩
  · rw [List.map_append, hcomments, hkinds]
  · obtain ⟨text, -, htext⟩ := List.mem_map.1 (hkinds ▸ List.mem_map_of_mem ht)
    exact ⟨text, htext.symm⟩
  · have hcodeNe : codeTokens ≠ [] := by
      rintro rfl
      exact hne (List.map_eq_nil_iff.1 hcode.symm)
    rwa [EndLineOf, List.getLast?_append_of_ne_nil _ hcodeNe] at hbehind

/-- Whether the tokens behind another are arranged in what is written for a phrase. -/
def Phrase.IsArranged (source : List Token) (before : Option Token) (ts : List Token) :
    Phrase → Prop
  | declaration comments annots spaced d =>
    spaced = before.any (·.endsApart ts) ∧
      ∀ depth, Block.IsLaid source depth ⟨true, ts, rows (d.layout depth comments annots)⟩
  | members first ms => ∀ depth, ∃ blocks : List Block, ts = blocks.flatMap (·.tokens) ∧
      (∀ b ∈ blocks, b.IsLaid source depth) ∧
      ∀ above : Option Block, above.isNone = first →
        (∀ a ∈ above, ∃ b ∈ before, Token.EndOnLineOf a.tokens b) →
          rows (Member.layouts ms depth first) = Block.rowsBehind above blocks
  | declarations ds => ∃ blocks : List Block, ts = blocks.flatMap (·.tokens) ∧
      (∀ b ∈ blocks, b.isDeclaration = true ∧ b.IsLaid source 0) ∧
      blocks.map (·.rows) = ds.map fun d ↦ rows (d.layout 0 [] [])

/-! ### What is written for phrases -/

theorem DeclarationKind.Spells.ne_nil {kind : DeclarationKind} {name : TypeName}
    {header : List View} (h : kind.Spells name (header.map (·.kind))) : header ≠ [] := by
  obtain ⟨v, -, hv, -⟩ := h.head_view
  exact List.ne_nil_of_mem (List.mem_of_mem_head? hv)

theorem MemberContent.Spells.ne_nil {content : MemberContent} {code : List View}
    (h : content.Spells (code.map View.toPiece)) : code ≠ [] := by
  obtain ⟨v, -, hv, -⟩ := h.head_view
  exact List.ne_nil_of_mem (List.mem_of_mem_head? hv)

theorem Phrase.Spells.ne_nil {comments annots : List String} {spaced : Bool} {d : Declaration}
    {vs : List View} (h : Spells (.declaration comments annots spaced d) vs) : vs ≠ [] := by
  have hlength := h.length_lt
  rintro rfl
  cases hlength

/-- Annotations are written on one line if they are read from tokens that are. -/
theorem View.newline_not_mem_annots {above : List View} {annots : List String}
    (annotated : above.map (·.kind) = annots.map .annot)
    (h : ∀ v ∈ above, '\n' ∉ v.kind.spelling) :
    ∀ text ∈ annots, '\n' ∉ (TokenKind.annot text).spelling := by
  rw [← List.forall_mem_map (f := TokenKind.annot) (P := fun kind ↦ '\n' ∉ kind.spelling),
    ← annotated, List.forall_mem_map]
  exact h

/-- Members are written one below the other, an empty row between two that are apart. -/
theorem Member.rows_layouts_cons {m : Member} {ms : List Member} (hm : m.Legible)
    (hms : ∀ m ∈ ms, m.Legible) {depth : Nat} {first : Bool} {above : Option Block} {b : Block}
    {blocks : List Block} (hblank : (m.blankBefore && !first) = above.any b.isApartFrom)
    (hrows : rows (m.layout depth) = b.rows)
    (hmore : rows (Member.layouts ms depth false) = Block.rowsBehind (some b) blocks) :
    rows (Member.layouts (m :: ms) depth first) = Block.rowsBehind above (b :: blocks) := by
  rw [Member.layouts, Layout.rows_append _ (Member.opensLine_layouts hms depth false),
    Layout.rows_append _ (hm.opensLine_layout depth), hrows, hmore, Block.rowsBehind, hblank]
  split <;> rfl

/-- A member is apart from the one above it exactly if an empty line stands before it. -/
theorem Block.isApartFrom_eq {before : Option Token} {above : Option Block} {b : Block}
    {spaced : Bool} (hspaced : spaced = before.any (·.endsApart b.tokens))
    (habove : ∀ a ∈ above, ∃ t ∈ before, Token.EndOnLineOf a.tokens t) :
    ((!above.isNone && spaced) && !above.isNone) = above.any b.isApartFrom := by
  cases above with
  | none => rfl
  | some a =>
    obtain ⟨t, ht, last, hlast, hline⟩ := habove a rfl
    rw [Option.mem_def] at ht hlast
    subst ht
    simp [hspaced, Block.isApartFrom, hlast, Token.endsApart, hline]

/-- A block in front of those of the members below is one more, since an empty row stands between
two members exactly if they are apart. -/
theorem Phrase.IsArranged.cons {source us rest : List Token} {before last : Option Token}
    {m : Member} {ms : List Member}
    (hmore : IsArranged source last rest (.members false ms)) (hm : m.Legible)
    (hms : ∀ m ∈ ms, m.Legible) (hends : ∃ b ∈ last, Token.EndOnLineOf us b) {spaced : Bool}
    (hspaced : spaced = before.any (·.endsApart us)) {first : Bool}
    (hblank : m.blankBefore = (!first && spaced)) {isDeclaration : Bool}
    (hlaid : ∀ depth, Block.IsLaid source depth ⟨isDeclaration, us, rows (m.layout depth)⟩) :
    IsArranged source before (us ++ rest) (.members first (m :: ms)) := by
  intro depth
  obtain ⟨blocks, rfl, hblocks, hrows⟩ := hmore depth
  refine ⟨⟨isDeclaration, us, rows (m.layout depth)⟩ :: blocks, rfl,
    List.forall_mem_cons.2 ⟨hlaid depth, hblocks⟩, ?_⟩
  rintro above rfl habove
  refine Member.rows_layouts_cons hm hms ?_ rfl (hrows _ rfl (by rintro _ ⟨⟩; exact hends))
  rw [hblank]
  exact Block.isApartFrom_eq hspaced habove

/-- A line that spells a member is written as the rows of the member. -/
theorem Member.isLaid {content : MemberContent} {comments annots : List String} {spaced : Bool}
    {lineComment : Option String} {above code : List View}
    (annotated : above.map (·.kind) = annots.map .annot)
    (spelled : content.Spells (code.map View.toPiece))
    (line : View.IsLine (above ++ code) comments spaced lineComment)
    (hvs : ∀ v ∈ above ++ code, v.Legible) (hlines : ∀ v ∈ above ++ code, '\n' ∉ v.kind.spelling)
    {source : List Token} {before : Option Token} {ts : List Token}
    (hts : Token.Gathered source before ts (above ++ code))
    (blankBefore : Bool) (depth : Nat) :
    spaced = before.any (·.endsApart ts) ∧
      Block.IsLaid source depth ⟨false, ts,
        rows (Member.layout ⟨content, comments, annots, lineComment, blankBefore⟩ depth)⟩ := by
  obtain ⟨remarks, codeTokens, behind, before', rfl, hremarks, hremarked, hcode, hended, hspaced⟩ :=
    hts.exists_remarks annotated spelled.ne_nil line
  obtain ⟨hcomments, hcomment⟩ := line.legible hvs
  obtain ⟨hcontent, hisLine⟩ := spelled.wellFormed (List.forall_mem_map.2
    fun v hv ↦ (hvs v (List.mem_append_right _ hv)).kind)
  have hannots := View.newline_not_mem_annots annotated
    fun v hv ↦ hlines v (List.mem_append_left _ hv)
  obtain ⟨written, hrows, hwritten, hfull⟩ :=
    Member.exists_rows_layout hcomments hannots hcontent hisLine hcomment blankBefore depth
  have hne : written ≠ [] := hwritten.ne_nil
  rw [hrows]
  refine ⟨hspaced, hremarks ▸ .member hremarked (hcode ▸ spelled) hended hwritten, ?_,
    by simp [hne]⟩
  exact isTidy_of_full
    (List.forall_mem_append.2 ⟨hcomments.isFull_tokenRows annots (2 * depth), hfull⟩)

/-- A line that spells a header, the blocks of a body and the line of an `end` are written as the
rows of the declaration. -/
theorem Declaration.isLaid {kind : DeclarationKind} {name : TypeName}
    {comments annots : List String} {spaced : Bool} {headerComment : Option String}
    {members : List Member} {above header : List View} {ending : View}
    (annotated : above.map (·.kind) = annots.map .annot)
    (headed : kind.Spells name (header.map (·.kind)))
    (line : View.IsLine (above ++ header) comments spaced headerComment)
    (closed : ending.kind = .word "end") (hmembers : ∀ m ∈ members, m.Legible)
    (hvs : ∀ v ∈ above ++ header, v.Legible)
    (hlines : ∀ v ∈ above ++ header, '\n' ∉ v.kind.spelling) (hending : ending.Legible)
    {source : List Token} {before last : Option Token} {us rest : List Token}
    (hus : Token.Gathered source before us (above ++ header))
    (hrest : Token.Gathered source last rest [ending]) {blocks : List Block} {depth : Nat}
    (hblocks : ∀ b ∈ blocks, b.IsLaid source (depth + 1))
    (hrows : rows (Member.layouts members (depth + 1) true) = Block.rowsBehind none blocks) :
    spaced = before.any (·.endsApart (us ++ (blocks.flatMap (·.tokens) ++ rest))) ∧
      Block.IsLaid source depth
        ⟨true, us ++ (blocks.flatMap (·.tokens) ++ rest),
          rows (Declaration.layout ⟨kind, name, [], [], headerComment, members, ending.leading,
            ending.trailing⟩ depth comments annots)⟩ := by
  have hheaderNe : header ≠ [] := headed.ne_nil
  have hne := hus.ne_nil (List.append_ne_nil_of_right_ne_nil above hheaderNe)
  obtain ⟨remarks, headerTokens, behind, before', rfl, hremarks, hremarked, hcode, hended,
    hspaced⟩ := hus.exists_remarks annotated hheaderNe line
  obtain ⟨closing, endTokens, endBehind, rfl, hleading, halone, hendPieces, hendEnded, -⟩ :=
    hrest.exists_line View.IsLine.singleton
  obtain ⟨t, rfl, ht⟩ := Token.exists_of_pieces_eq_singleton hendPieces.symm
  have hheaded : kind.Spells name (headerTokens.map (·.kind)) := by
    have hkinds := congrArg (List.map Piece.kind) hcode
    rw [List.map_map, Token.map_kind_pieces] at hkinds
    exact hkinds ▸ headed
  obtain ⟨hcomments, hcomment⟩ := line.legible hvs
  obtain ⟨hkind, hname⟩ := headed.wellFormed (List.forall_mem_map.2
    fun v hv ↦ (hvs v (List.mem_append_right _ hv)).kind)
  have hannots := View.newline_not_mem_annots annotated
    fun v hv ↦ hlines v (List.mem_append_left _ hv)
  obtain ⟨headerText, endText, hlayout, hheaderFull, hendFull⟩ :=
    Declaration.exists_rows_layout hcomments hannots hkind hname hcomment hending.trailing hmembers
      hending.leading depth
  have hinner : IsTidy (Block.rowsBehind none blocks ++
      tokenRows (2 * depth + 2) (ending.leading.map .comment)) :=
    (Block.isTidy_rowsBehind_none hblocks).append
      (isTidy_of_full (Layout.isFull_tokenRows _ (List.forall_mem_map.2 hending.leading)))
  have hbody : IsTidy (indented (2 * depth) (kind.keyword.toList ++ headerText) ::
      (Block.rowsBehind none blocks ++ tokenRows (2 * depth + 2) (ending.leading.map .comment) ++
        [indented (2 * depth) ("end".toList ++ endText)])) :=
    (isTidy_of_full (List.forall_mem_singleton.2 hheaderFull)).append
      (hinner.append (isTidy_of_full (List.forall_mem_singleton.2 hendFull)))
  rw [hlayout, hrows]
  refine ⟨by simpa only [Token.endsApart_append hne] using hspaced, ?_, ?_, by simp⟩
  · exact hremarks ▸ .declaration hremarked hheaded hended
      (fun b hb ↦ (hblocks b hb).arranged) halone (ht.trans closed) hendEnded (by rw [hleading])
      hinner.head hinner.last
  · exact (isTidy_of_full (hcomments.isFull_tokenRows annots _)).append hbody

/-- The tokens of what spells a phrase are divided into blocks, and so is what is written for it. -/
theorem Phrase.Spells.isArranged {phrase : Phrase} {vs : List View} (h : phrase.Spells vs)
    (hvs : ∀ v ∈ vs, v.Legible) (hlines : ∀ v ∈ vs, '\n' ∉ v.kind.spelling)
    {source : List Token} {before : Option Token} {ts : List Token}
    (hts : Token.Gathered source before ts vs) :
    phrase.IsArranged source before ts := by
  -- over the derivation: the tokens are split where the views of the parts are
  induction h generalizing before ts with
  | @declaration kind name comments annots spaced headerComment members above header body ending
      annotated headed line inner closed ih =>
    rw [← List.append_assoc, List.forall_mem_append] at hvs hlines
    rw [← List.append_assoc] at hts
    obtain ⟨hvs, hbodyVs⟩ := hvs
    obtain ⟨hlines, hbodyLines⟩ := hlines
    rw [List.forall_mem_append] at hbodyVs hbodyLines
    obtain ⟨us, behind, last, rfl, hus, hbehind, -⟩ := hts.exists_append
    obtain ⟨bodyTokens, rest, last', rfl, hbody, hrest, -⟩ := hbehind.exists_append
    have hmembers := (inner.wellFormed hbodyVs.1).1
    have hlaid : ∀ depth, spaced = before.any (·.endsApart (us ++ (bodyTokens ++ rest))) ∧
        Block.IsLaid source depth ⟨true, us ++ (bodyTokens ++ rest),
          rows (Declaration.layout ⟨kind, name, [], [], headerComment, members, ending.leading,
            ending.trailing⟩ depth comments annots)⟩ := by
      intro depth
      obtain ⟨blocks, rfl, hblocks, hrows⟩ := ih hbodyVs.1 hbodyLines.1 hbody (depth + 1)
      exact Declaration.isLaid annotated headed line closed (fun m hm ↦ (hmembers m hm).legible)
        hvs hlines (hbodyVs.2 ending List.mem_cons_self) hus hrest hblocks
        (hrows none rfl (by simp))
    exact ⟨(hlaid 0).1, fun depth ↦ (hlaid depth).2⟩
  | noMember first =>
    intro depth
    cases hts
    exact ⟨[], rfl, List.forall_mem_nil _, fun above _ _ ↦ by rw [Member.layouts]; rfl⟩
  | @lineMember first content comments annots spaced lineComment ms above code more annotated
      spelled line others ih =>
    have hspells : Phrase.Spells (.members first _) (above ++ (code ++ more)) :=
      .lineMember annotated spelled line others
    obtain ⟨hmember, hms⟩ := List.forall_mem_cons.1 (hspells.wellFormed hvs).1
    rw [← List.append_assoc] at hvs hlines hts
    rw [List.forall_mem_append] at hvs hlines
    obtain ⟨us, rest, last, rfl, hus, hrest, hlast⟩ := hts.exists_append
    have hlaid := Member.isLaid annotated spelled line hvs.1 hlines.1 hus (!first && spaced)
    have hends := hlast.resolve_left fun h ↦
      hus.ne_nil (List.append_ne_nil_of_right_ne_nil above spelled.ne_nil) h.1
    exact (ih hvs.2 hlines.2 hrest).cons hmember.legible (fun m hm ↦ (hms m hm).legible) hends
      (hlaid 0).1 rfl fun depth ↦ (hlaid depth).2
  | @nestedMember first comments annots spaced d ms vs more declared others ihd ih =>
    have hspells : Phrase.Spells (.members first _) (vs ++ more) := .nestedMember declared others
    obtain ⟨hmember, hms⟩ := List.forall_mem_cons.1 (hspells.wellFormed hvs).1
    rw [List.forall_mem_append] at hvs hlines
    obtain ⟨us, rest, last, rfl, hus, hrest, hlast⟩ := hts.exists_append
    obtain ⟨hspaced, hlaid⟩ := ihd hvs.1 hlines.1 hus
    have hends := hlast.resolve_left fun h ↦ hus.ne_nil declared.ne_nil h.1
    have hnested : ∀ depth, Block.IsLaid source depth ⟨true, us, rows (Member.layout
        ⟨.nested d, comments, annots, none, !first && spaced⟩ depth)⟩ := by
      intro depth
      rw [Member.layout]
      exact hlaid depth
    exact (ih hvs.2 hlines.2 hrest).cons hmember.legible (fun m hm ↦ (hms m hm).legible) hends
      hspaced rfl hnested
  | noDeclaration =>
    cases hts
    exact ⟨[], rfl, List.forall_mem_nil _, rfl⟩
  | @moreDeclarations comments annots spaced d ds vs more declared others ihd ih =>
    obtain ⟨-, hown, hownAnnots, -⟩ := declared.wellFormed
      fun v hv ↦ hvs v (List.mem_append_left _ hv)
    rw [List.forall_mem_append] at hvs hlines
    obtain ⟨us, rest, last, rfl, hus, hrest, -⟩ := hts.exists_append
    obtain ⟨-, hlaid⟩ := ihd hvs.1 hlines.1 hus
    obtain ⟨blocks, rfl, hblocks, hrows⟩ := ih hvs.2 hlines.2 hrest
    refine ⟨⟨true, us, _⟩ :: blocks, rfl, List.forall_mem_cons.2 ⟨⟨rfl, hlaid 0⟩, hblocks⟩, ?_⟩
    rw [List.map_cons, List.map_cons, hrows, Declaration.layout_annotated hown hownAnnots]

/-! ### Texts -/

namespace Signature

/-- Whether the tokens of a source are those of its declarations and of its last comments, and the
rows are what is written for these, with one empty row between each two of them. -/
structure Arranges (tokens : List Token) (blocks : List Block) (closing : List Token)
    (rows : List (List Char)) : Prop where
  divided : tokens = blocks.flatMap (·.tokens) ++ closing
  declared : ∀ b ∈ blocks, b.isDeclaration = true ∧ b.Arranged tokens 0
  commented : ∀ t ∈ closing, t.IsCommentLine tokens
  written : rows = [[]].intercalate (blocks.map (·.rows) ++
    if closing.isEmpty then [] else [tokenRows 0 (closing.map (·.kind))])

/-- A source without line feeds inside its annotations is formatted as some tidy rows with a line
feed behind each of them, which are arranged as the tokens of the source tell. -/
theorem arranges_of_format {source text : String} (hformat : format source = .ok text)
    {tokens : List Token} (htokens : Token.tokenize source = .ok tokens)
    (hannots : ∀ t ∈ tokens, ∀ annot, t.kind = .annot annot → '\n' ∉ annot.toList) :
    ∃ blocks closing rows, linesOf text = rows ++ [[]] ∧ IsTidy rows ∧
      Arranges tokens blocks closing rows := by
  obtain ⟨s, hparse, htext⟩ := Except.map_eq_ok_iff.1 hformat
  obtain ⟨found, hfound, hread⟩ := Except.bind_eq_ok_iff.1 hparse
  obtain rfl : found = tokens := Except.ok.inj (hfound.symm.trans htokens)
  have hlegible : ∀ t ∈ found, t.kind.Legible :=
    fun t ht ↦ ((Token.wellPlaced_of_tokenize htokens).1 t ht).1.legible
  obtain ⟨hspells, hclosing⟩ := ofDocument_eq_ok_iff.1 hread
  obtain ⟨hviews, hlast⟩ := Lexeme.legible_of_gather none (List.forall_mem_nil _) hlegible
  obtain ⟨front, closing, hdivided, hfront, hback, halone⟩ := Token.gathers_of_tokenize htokens
  have hlines : ∀ v ∈ (Document.ofTokens found).lexemes.map Lexeme.view,
      '\n' ∉ v.kind.spelling := by
    intro v hv
    obtain ⟨t, ht, hkind⟩ := hfront.exists_mem_of_mem v hv
    have hmem : t ∈ found := by
      rw [hdivided]
      exact List.mem_append_left _ ht
    exact hkind ▸ (hlegible t hmem).newline_not_mem (hannots t hmem)
  obtain ⟨blocks, rfl, hblocks, hrows⟩ :=
    hspells.isArranged (List.forall_mem_map.2 hviews) hlines hfront
  have hcomments : AreCommentTexts s.trailingComments := by
    rw [hclosing]
    exact List.forall_mem_map.2 hlast
  have hkinds : closing.map (·.kind) = s.trailingComments.map .comment := by
    rw [hback, hclosing, List.map_map]
    rfl
  have hempty : s.trailingComments.isEmpty = closing.isEmpty := by
    rw [← List.isEmpty_map (f := TokenKind.comment), ← hkinds, List.isEmpty_map]
  -- the last comments are written below the declarations like one more group of rows
  have hwritten := rows_layout hcomments
  rw [← hrows, hempty, ← hkinds] at hwritten
  have htidy : IsTidy (rows s.layout) := by
    rw [hwritten]
    refine isTidy_intercalate (List.forall_mem_append.2 ⟨List.forall_mem_map.2 fun b hb ↦
      ⟨(hblocks b hb).2.tidy, (hblocks b hb).2.nonempty⟩, ?_⟩)
    split
    · exact List.forall_mem_nil _
    next hne =>
      rw [List.isEmpty_iff] at hne
      refine List.forall_mem_singleton.2 ⟨isTidy_of_full (Layout.isFull_tokenRows 0 ?_), ?_⟩
      · rw [hkinds]
        exact List.forall_mem_map.2 hcomments
      · simp [tokenRows, hne]
  refine ⟨blocks, closing, rows s.layout, ?_, htidy, hdivided, fun b hb ↦ ?_,
    halone, hwritten⟩
  · rw [htext]
    exact Layout.linesOf_text s.layout_eq_nil_or
  · exact ⟨(hblocks b hb).1, (hblocks b hb).2.arranged⟩

/-- Empty lines are lost and kept, and a bar moves below its colon. -/
theorem arranges_of_format_spread :
    let source := "\n# a\n%a(x)class A<B # b\n\n\n  # c\n  def self.m?: (A)->B|()->C # d\n\n\n" ++
      " # e\n  module M def z: ()->Z end attr_reader q : Q\n\n# f\nend class C\nend # g\n# h"
    let text := "# a\n%a\x7bx\x7d\nclass A < B # b\n  # c\n  def self.m?: (A) -> B\n" ++
      "             | () -> C # d\n\n  # e\n  module M\n    def z: () -> Z\n  end\n" ++
      "  attr_reader q: Q\n  # f\nend\n\nclass C\nend # g\n\n# h\n"
    ∃ tokens blocks closing rows, Token.tokenize source = .ok tokens ∧ format source = .ok text ∧
      linesOf text = rows ++ [[]] ∧ IsTidy rows ∧ Arranges tokens blocks closing rows := by
  intro source text
  have hformat : format source = .ok text := by decide +kernel
  obtain ⟨tokens, htokens, hannots⟩ := Except.map_eq_ok_iff.1 (show (Token.tokenize source).map
    (fun tokens ↦ annotTexts (tokens.map (·.kind))) = .ok ["x"] by decide +kernel)
  obtain ⟨blocks, closing, rows, hlines, htidy, harranges⟩ :=
    arranges_of_format hformat htokens fun t ht annot hkind ↦ by
      have hmem : annot ∈ annotTexts (tokens.map (·.kind)) :=
        mem_annotTexts.2 (List.mem_map.2 ⟨t, ht, hkind⟩)
      rw [← hannots, List.mem_singleton] at hmem
      subst hmem
      decide
  exact ⟨tokens, blocks, closing, rows, htokens, hformat, hlines, htidy, harranges⟩

end Signature

end ModelSignatures
