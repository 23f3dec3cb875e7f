import ModelSignatures.Proofs.Signature.Misplaced
import ModelSignatures.Proofs.Signature.Plain
import ModelSignatures.Proofs.Signature.Stretches

/-!
# Where comments may stand

A comment is refused where it stands inside a header or inside a member that is no declaration, and
kept everywhere else. Which tokens are those of headers and members is told by the productions, the
comments aside (`Token.Lines`), and every text that is accepted without its comments has such lines
(`Phrase.Spells.exists_lines`). The lines of its tokens are those of its lexemes
(`Token.Lines.exists_gather`), among which the first misplaced comment is refused.
-/

namespace ModelSignatures

open Nonterminal (production annotation line header means_of_production exists_annots
  exists_spells_of_line exists_spells_of_header)
open Reading (innerComments)
open Rule (Derives derives_sequence_iff)

/-! ### Lines -/

namespace Token

/-- Whether some tokens are a stretch, and derived from the rule but for the comments inside. -/
structure IsLine (rule : Rule Piece Nonterminal) (ts : List Token) : Prop extends IsStretch ts where
  derived : Derives production rule (pieces none (withoutComments ts))

/-- The lines of a text, or of the body of a declaration: the headers of the declarations and the
members that are no declarations, each from its first annotation to its last token. -/
inductive Lines : (body : Bool) → List Token → List (List Token) → Prop
  | done (body : Bool) : Lines body [] []
  | gap {body : Bool} {c : Token} {ts : List Token} {lines : List (List Token)}
      (comment : c.kind.isComment = true) (behind : Lines body ts lines) :
      Lines body (c :: ts) lines
  | member {ts more : List Token} {lines : List (List Token)}
      (isLine : IsLine (.many annotation ++ line) ts) (behind : Lines true more lines) :
      Lines true (ts ++ more) (ts :: lines)
  | declaration {body : Bool} {ts inner more : List Token} {closing : Token}
      {lines others : List (List Token)} (isLine : IsLine (.many annotation ++ header) ts)
      (members : Lines true inner lines) (closed : closing.kind = .word "end")
      (behind : Lines body more others) :
      Lines body (ts ++ (inner ++ closing :: more)) (ts :: (lines ++ others))

end Token

namespace Nonterminal

/-- A member of one line is derived from annotations and code that spells it. -/
theorem derives_annotated_line_iff {ps : List Piece} :
    Derives production (.many annotation ++ line) ps ↔
      ∃ above code, ps = above ++ code ∧ (∃ annots : List String,
        above.map Piece.kind = annots.map .annot) ∧
          ∃ content : MemberContent, content.Spells code := by
  rw [derives_sequence_iff]
  constructor
  · rintro ⟨above, code, rfl, habove, hcode⟩
    exact ⟨above, code, rfl, exists_annots (habove.denotes means_of_production),
      exists_spells_of_line (hcode.denotes means_of_production)⟩
  · rintro ⟨above, code, rfl, ⟨annots, habove⟩, ⟨content, hcontent⟩⟩
    exact ⟨above, code, rfl, derives_annotations habove, hcontent.derives⟩

/-- A header is derived from annotations and code that spells it. -/
theorem derives_annotated_header_iff {ps : List Piece} :
    Derives production (.many annotation ++ header) ps ↔
      ∃ above code, ps = above ++ code ∧ (∃ annots : List String,
        above.map Piece.kind = annots.map .annot) ∧
          ∃ (kind : DeclarationKind) (name : TypeName), kind.Spells name (code.map Piece.kind) := by
  rw [derives_sequence_iff]
  constructor
  · rintro ⟨above, code, rfl, habove, hcode⟩
    exact ⟨above, code, rfl, exists_annots (habove.denotes means_of_production),
      exists_spells_of_header (hcode.denotes means_of_production)⟩
  · rintro ⟨above, code, rfl, ⟨annots, habove⟩, ⟨kind, name, hkind⟩⟩
    exact ⟨above, code, rfl, derives_annotations habove, hkind.derives rfl⟩

end Nonterminal

/-! ### What stands before a line does not matter -/

/-- Whether some pieces are the same but for what the first touches. -/
structure Piece.Alike (ps qs : List Piece) : Prop where
  kinds : ps.map Piece.kind = qs.map Piece.kind
  tail : ps.tail = qs.tail

/-- The pieces of tokens are alike, whatever stands in front of them. -/
theorem Token.alike_pieces (b b' : Option Token) (ts : List Token) :
    Piece.Alike (pieces b ts) (pieces b' ts) := by
  cases ts with
  | nil => exact ⟨rfl, rfl⟩
  | cons t ts => exact ⟨rfl, rfl⟩

/-- A member is spelled by what is alike, since its first piece is a keyword. -/
theorem MemberContent.Spells.alike {content : MemberContent} {ps qs : List Piece}
    (h : content.Spells ps) (halike : Piece.Alike ps qs) : content.Spells qs := by
  obtain ⟨hkinds, htail⟩ := halike
  obtain ⟨p, more, rfl, -⟩ := h.head
  obtain ⟨q, others, rfl, hq, -⟩ := List.map_eq_cons_iff.1 hkinds.symm
  obtain rfl : more = others := htail
  cases h with
  | including keyword spelled => exact .including (hq.trans keyword) spelled
  | extending keyword spelled => exact .extending (hq.trans keyword) spelled
  | attr keyword named spelled typed => exact .attr (hq.trans keyword) named spelled typed
  | method keyword spelled => exact .method (hq.trans keyword) spelled
  | aliasing keyword new old => exact .aliasing (hq.trans keyword) new old

/-- Whether what is derived from the rule is never empty, and does not depend on what stands before
it. -/
structure Nonterminal.IsLineRule (rule : Rule Piece Nonterminal) : Prop where
  ne_nil : ∀ {ps}, Derives production rule ps → ps ≠ []
  alike : ∀ {ps qs}, Piece.Alike ps qs → Derives production rule ps → Derives production rule qs

/-- Members of one line are told without what stands before them. -/
theorem Nonterminal.isLineRule_line : IsLineRule (.many annotation ++ line) where
  ne_nil := by
    rintro _ h rfl
    obtain ⟨above, code, heq, -, content, hcontent⟩ := derives_annotated_line_iff.1 h
    obtain ⟨p, more, rfl, -⟩ := hcontent.head
    simp at heq
  alike := by
    intro ps qs halike h
    rw [derives_annotated_line_iff] at h ⊢
    obtain ⟨above, code, rfl, ⟨annots, habove⟩, content, hcontent⟩ := h
    rcases above with - | ⟨p, above⟩
    · exact ⟨[], qs, rfl, ⟨annots, habove⟩, content, hcontent.alike halike⟩
    · obtain ⟨q, others, rfl, hq, -⟩ := List.map_eq_cons_iff.1 halike.kinds.symm
      obtain rfl : above ++ code = others := halike.tail
      refine ⟨q :: above, code, rfl, ⟨annots, ?_⟩, content, hcontent⟩
      rw [List.map_cons, hq, ← List.map_cons, habove]

/-- Headers are told without what stands before them, since no piece counts that touches another. -/
theorem Nonterminal.isLineRule_header : IsLineRule (.many annotation ++ header) where
  ne_nil := by
    rintro _ h rfl
    obtain ⟨above, code, heq, -, kind, name, hkind⟩ := derives_annotated_header_iff.1 h
    rw [(List.append_eq_nil_iff.1 heq.symm).2] at hkind
    obtain ⟨text, more, hnil, -⟩ := hkind.head
    cases hnil
  alike := by
    intro ps qs halike h
    rw [derives_annotated_header_iff] at h ⊢
    obtain ⟨above, code, rfl, ⟨annots, habove⟩, kind, name, hkind⟩ := h
    have hkinds := halike.kinds.symm
    rw [List.map_append] at hkinds
    obtain ⟨above', code', rfl, habove', hcode'⟩ := List.map_eq_append_iff.1 hkinds
    exact ⟨above', code', rfl, ⟨annots, habove'.trans habove⟩, kind, name, hcode' ▸ hkind⟩

/-! ### From tokens to lexemes -/

/-- The lexemes of a line. -/
theorem Token.IsLine.exists_gather {rule : Rule Piece Nonterminal} {ts : List Token}
    (h : IsLine rule ts) (hplaced : ∀ t ∈ ts, t.WellPlaced) (hpairs : ts.Pairwise Precedes)
    (hrule : Nonterminal.IsLineRule rule) (before : Option Token) (pending : List Comment)
    (rest : List Token) :
    ∃ ls last, Lexeme.gather before pending (ts ++ rest) =
        (ls ++ (Lexeme.gather last [] rest).1, (Lexeme.gather last [] rest).2) ∧
      innerComments ls = comments ts ∧ Derives production rule (ls.map Lexeme.piece) := by
  obtain ⟨ls, last, hgather, hinner, hpieces⟩ :=
    Lexeme.exists_gather_stretch h.toIsStretch hplaced hpairs before pending rest
  refine ⟨ls, last, hgather, hinner, ?_⟩
  rw [hpieces]
  exact hrule.alike (alike_pieces none before _) h.derived

/-- The lines of a text are those of its lexemes. -/
theorem Token.Lines.exists_gather {body : Bool} {ts : List Token} {lines : List (List Token)}
    (h : Lines body ts lines) (hplaced : ∀ t ∈ ts, t.WellPlaced) (hpairs : ts.Pairwise Precedes)
    (before : Option Token) (pending : List Comment) (rest : List Token) :
    ∃ ls before' pending', Lexeme.gather before pending (ts ++ rest) =
        (ls ++ (Lexeme.gather before' pending' rest).1,
          (Lexeme.gather before' pending' rest).2) ∧
      Lexeme.Lines body ls (comments lines.flatten) := by
  -- over the lines: each is gathered with the comments that are pending above it
  induction h generalizing before pending rest with
  | done body => exact ⟨[], before, pending, rfl, .done body⟩
  | gap comment _ ih =>
    obtain ⟨text, htext⟩ := TokenKind.exists_eq_comment comment
    rw [List.cons_append, Lexeme.gather_comment htext]
    exact ih (fun t ht ↦ hplaced t (List.mem_cons_of_mem _ ht)) (List.pairwise_cons.1 hpairs).2 _ _
      rest
  | @member ts more lines isLine _ ih =>
    rw [List.forall_mem_append] at hplaced
    rw [List.pairwise_append] at hpairs
    obtain ⟨ls, last, hgather, hinner, hderives⟩ := isLine.exists_gather hplaced.1 hpairs.1
      Nonterminal.isLineRule_line before pending (more ++ rest)
    obtain ⟨others, before', pending', hbehind, hlines⟩ := ih hplaced.2 hpairs.2.1 last [] rest
    obtain ⟨_, _, hsplit, ⟨annots, habove⟩, content, hcontent⟩ :=
      Nonterminal.derives_annotated_line_iff.1 hderives
    obtain ⟨above, code, rfl, rfl, rfl⟩ := List.map_eq_append_iff.1 hsplit
    refine ⟨above ++ code ++ others, before', pending', ?_, ?_⟩
    · rw [List.append_assoc, hgather, hbehind]
      simp
    · rw [List.flatten_cons, comments_append, ← hinner, List.append_assoc]
      rw [Lexeme.map_kind_map_piece] at habove
      exact .member habove hcontent hlines
  | @declaration body ts inner more closing lines others isLine _ closed _ ihinner ih =>
    rw [List.forall_mem_append, List.forall_mem_append, List.forall_mem_cons] at hplaced
    rw [List.pairwise_append, List.pairwise_append, List.pairwise_cons] at hpairs
    obtain ⟨ls, last, hgather, hinner, hderives⟩ := isLine.exists_gather hplaced.1 hpairs.1
      Nonterminal.isLineRule_header before pending ((inner ++ closing :: more) ++ rest)
    obtain ⟨ms, before', pending', hmembers, hlines⟩ :=
      ihinner hplaced.2.1 hpairs.2.1.1 last [] (closing :: (more ++ rest))
    obtain ⟨ds, before'', pending'', hbehind, hothers⟩ :=
      ih hplaced.2.2.2 hpairs.2.1.2.1.2 (some closing) [] rest
    obtain ⟨_, _, hsplit, ⟨annots, habove⟩, kind, name, hkind⟩ :=
      Nonterminal.derives_annotated_header_iff.1 hderives
    obtain ⟨above, code, rfl, rfl, rfl⟩ := List.map_eq_append_iff.1 hsplit
    have hcode : closing.kind.isComment = false := by rw [closed]; rfl
    obtain ⟨l, hl, hclosing⟩ := Lexeme.exists_gather_cons hcode before' pending' (more ++ rest)
    refine ⟨above ++ (code ++ (ms ++ l :: ds)), before'', pending'', ?_, ?_⟩
    · rw [List.append_assoc, hgather, List.append_assoc inner, List.cons_append, hmembers, hclosing,
        hbehind]
      simp
    · rw [List.flatten_cons, List.flatten_append, comments_append, comments_append, ← hinner]
      rw [Lexeme.map_kind_map_piece] at habove hkind
      exact .declaration habove hkind hlines (hl.trans closed) hothers

/-! ### Every accepted text has lines -/

namespace Token

/-- Tokens have no pieces only if there are none. -/
theorem pieces_eq_nil_iff {b : Option Token} {ts : List Token} : pieces b ts = [] ↔ ts = [] := by
  cases ts <;> simp [pieces]

/-- What is derived piece by piece divides the tokens, the comments among them too. -/
theorem exists_append_of_pieces {b : Option Token} {ts : List Token} {ps qs : List Piece}
    (h : pieces b (withoutComments ts) = ps ++ qs) :
    ∃ us vs b', ts = us ++ vs ∧ pieces b (withoutComments us) = ps ∧
      pieces b' (withoutComments vs) = qs := by
  obtain ⟨front, back, b', hts, hfront, hback⟩ := exists_append_of_pieces_eq h
  obtain ⟨us, vs, rfl, rfl, rfl⟩ := List.filter_eq_append_iff.1 hts
  exact ⟨us, vs, b', rfl, hfront, hback⟩

/-- The first token that is no comment stands behind comments only. -/
theorem exists_of_withoutComments_eq_cons {t : Token} {ts us : List Token}
    (h : withoutComments ts = t :: us) :
    ∃ gap rest, ts = gap ++ t :: rest ∧ withoutComments gap = [] ∧ t.kind.isComment = false ∧
      withoutComments rest = us := by
  obtain ⟨gap, rest, rfl, hgap, ht, hrest⟩ := List.filter_eq_cons_iff.1 h
  exact ⟨gap, rest, rfl, List.filter_eq_nil_iff.2 hgap, by simpa using ht, hrest⟩

/-- Tokens that are not all comments have a stretch between comments. -/
theorem exists_stretch {ts : List Token} (h : withoutComments ts ≠ []) :
    ∃ gap us gap', ts = gap ++ (us ++ gap') ∧ withoutComments gap = [] ∧
      withoutComments gap' = [] ∧ IsStretch us ∧ withoutComments us = withoutComments ts := by
  obtain ⟨init, last, hinit⟩ := (List.eq_nil_or_concat (withoutComments ts)).resolve_left h
  rw [List.concat_eq_append] at hinit
  obtain ⟨start, _, rfl, hstart, hend⟩ := List.filter_eq_append_iff.1 hinit
  obtain ⟨gap, gap', rfl, hgap, hlast, hgap'⟩ := exists_of_withoutComments_eq_cons hend
  have hfront : withoutComments (start ++ (gap ++ [last])) = init ++ [last] := by
    rw [withoutComments_append, withoutComments_append, hgap, withoutComments_cons_of_code hlast,
      ← hstart]
    rfl
  obtain ⟨first, others, hfirst⟩ := List.exists_cons_of_ne_nil (l := init ++ [last]) (by simp)
  obtain ⟨above, tail, hsplit, habove, hfirstCode, -⟩ :=
    exists_of_withoutComments_eq_cons (hfront.trans hfirst)
  have hlastOf : (first :: tail).getLast? = some last := by
    rw [← List.getLast?_append_of_ne_nil above (List.cons_ne_nil first tail), ← hsplit,
      ← List.append_assoc, List.getLast?_concat]
  refine ⟨above, first :: tail, gap', ?_, habove, hgap',
    ⟨⟨first, rfl, hfirstCode⟩, ⟨last, hlastOf, hlast⟩⟩, ?_⟩
  · rw [← List.append_assoc above, ← hsplit]
    simp
  · rw [hinit, ← hfront, hsplit, withoutComments_append, habove]
    rfl

/-- What is derived from the rule of a line is a line between comments. -/
theorem exists_isLine {rule : Rule Piece Nonterminal} (hrule : Nonterminal.IsLineRule rule)
    {before : Option Token} {ts : List Token}
    (h : Derives production rule (pieces before (withoutComments ts))) :
    ∃ gap us gap', ts = gap ++ (us ++ gap') ∧ withoutComments gap = [] ∧
      withoutComments gap' = [] ∧ IsLine rule us := by
  obtain ⟨gap, us, gap', rfl, hgap, hgap', hus, heq⟩ :=
    exists_stretch (mt pieces_eq_nil_iff.2 (hrule.ne_nil h))
  refine ⟨gap, us, gap', rfl, hgap, hgap', hus, ?_⟩
  rw [heq]
  exact hrule.alike (alike_pieces before none _) h

namespace Lines

variable {body : Bool} {ts us : List Token} {lines others : List (List Token)}

/-- There are no lines where there are only comments. -/
theorem ofGap (body : Bool) {gap : List Token} (h : withoutComments gap = []) :
    Lines body gap [] := by
  induction gap with
  | nil => exact .done body
  | cons c gap ih =>
    cases hc : c.kind.isComment with
    | true =>
      rw [withoutComments_cons_of_comment hc] at h
      exact .gap hc (ih h)
    | false =>
      rw [withoutComments_cons_of_code hc] at h
      cases h

/-- Lines of tokens one behind the other are those of both. -/
theorem append (h : Lines body ts lines) (hmore : Lines body us others) :
    Lines body (ts ++ us) (lines ++ others) := by
  induction h with
  | done => exact hmore
  | gap comment _ ih => exact .gap comment (ih hmore)
  | member isLine _ ih =>
    rw [List.append_assoc]
    exact .member isLine (ih hmore)
  | declaration isLine members closed _ _ ih =>
    rw [List.append_assoc, List.append_assoc, List.cons_append, List.cons_append,
      List.append_assoc]
    exact .declaration isLine members closed (ih hmore)

/-- The lines of a text are lines of a body. -/
theorem toBody (h : Lines false ts lines) : Lines true ts lines := by
  generalize hbody : false = body at h
  induction h with
  | done => exact .done true
  | gap comment _ ih => exact .gap comment (ih hbody)
  | member => cases hbody
  | declaration isLine members closed _ _ ih =>
    exact .declaration isLine members closed (ih hbody)

end Lines

end Token

/-- Whether the phrase is what a body is made of. -/
def Phrase.isBody : Phrase → Bool
  | members _ _ => true
  | declaration .. | declarations _ => false

/-- A member of one line, with comments around it, is one more line above those of other members. -/
theorem Token.Lines.exists_member {before : Option Token} {ts rest : List Token}
    {others : List (List Token)}
    (hline : Derives production (.many annotation ++ line) (pieces before (withoutComments ts)))
    (hrest : Lines true rest others) : ∃ lines, Lines true (ts ++ rest) lines := by
  obtain ⟨gap, us, gap', rfl, hgap, hgap', isLine⟩ :=
    exists_isLine Nonterminal.isLineRule_line hline
  have hall := Lines.member isLine ((Lines.ofGap true hgap').append hrest)
  rw [List.append_assoc, List.append_assoc]
  exact ⟨_, (Lines.ofGap true hgap).append hall⟩

/-- A header and an `end`, with comments around both, are lines around those of a body. -/
theorem Token.Lines.exists_declaration {before before' : Option Token}
    {top inner bottom : List Token} {lines : List (List Token)} {ending : Piece}
    (hheader : Derives production (.many annotation ++ header)
      (pieces before (withoutComments top)))
    (hinner : Lines true inner lines)
    (hbottom : pieces before' (withoutComments bottom) = [ending])
    (closed : ending.kind = .word "end") :
    ∃ lines, Lines false (top ++ (inner ++ bottom)) lines := by
  obtain ⟨gap, us, gap', rfl, hgap, hgap', isLine⟩ :=
    exists_isLine Nonterminal.isLineRule_header hheader
  obtain ⟨closing, hclosing, hkind⟩ := exists_of_pieces_eq_singleton hbottom
  obtain ⟨above, behind, rfl, habove, -, hbehind⟩ := exists_of_withoutComments_eq_cons hclosing
  -- the comments below the header and those above the `end` are in the body
  have hbody : Lines true (gap' ++ (inner ++ above)) _ :=
    (Lines.ofGap true hgap').append (hinner.append (Lines.ofGap true habove))
  have hall := Lines.declaration isLine hbody (hkind.trans closed) (Lines.ofGap false hbehind)
  have hsplit : gap ++ (us ++ gap') ++ (inner ++ (above ++ closing :: behind)) =
      gap ++ (us ++ (gap' ++ (inner ++ above) ++ closing :: behind)) := by simp
  rw [hsplit]
  exact ⟨_, (Lines.ofGap false hgap).append hall⟩

/-- Where the pieces of some tokens spell a phrase, whatever comments are between them, the tokens
have lines. -/
theorem Phrase.Spells.exists_lines {phrase : Phrase} {vs : List View} (h : phrase.Spells vs)
    {before : Option Token} {ts : List Token}
    (hts : Token.pieces before (Token.withoutComments ts) = vs.map View.toPiece) :
    ∃ lines, Token.Lines phrase.isBody ts lines := by
  induction h generalizing before ts with
  | @declaration kind name comments annots spaced headerComment members above code body ending
      annotated headed _ _ closed ih =>
    rw [← List.append_assoc, List.map_append, @List.map_append _ _ _ body] at hts
    obtain ⟨top, rest, b, rfl, htop, hrest⟩ := Token.exists_append_of_pieces hts
    obtain ⟨inner, bottom, b', rfl, hinner, hbottom⟩ := Token.exists_append_of_pieces hrest
    obtain ⟨lines, hlines⟩ := ih hinner
    have hheader : Derives production (.many annotation ++ header)
        ((above ++ code).map View.toPiece) := by
      rw [List.map_append]
      exact .sequence (derives_annotations (by rwa [List.map_map]))
        (headed.derives (List.map_map ..))
    rw [← htop] at hheader
    exact Token.Lines.exists_declaration hheader hlines hbottom closed
  | noMember first =>
    exact ⟨[], .ofGap _ (Token.pieces_eq_nil_iff.1 hts)⟩
  | @lineMember first content comments annots spaced lineComment ms above code more annotated
      spelled _ _ ih =>
    rw [← List.append_assoc, List.map_append] at hts
    obtain ⟨us, vs, b, rfl, hus, hvs⟩ := Token.exists_append_of_pieces hts
    obtain ⟨others, hothers⟩ := ih hvs
    have hline : Derives production (.many annotation ++ line)
        ((above ++ code).map View.toPiece) := by
      rw [List.map_append]
      exact .sequence (derives_annotations (by rwa [List.map_map])) spelled.derives
    rw [← hus] at hline
    exact Token.Lines.exists_member hline hothers
  | nestedMember _ _ ihd ih =>
    rw [List.map_append] at hts
    obtain ⟨us, vs, b, rfl, hus, hvs⟩ := Token.exists_append_of_pieces hts
    obtain ⟨lines, hlines⟩ := ihd hus
    obtain ⟨others, hothers⟩ := ih hvs
    exact ⟨_, hlines.toBody.append hothers⟩
  | noDeclaration =>
    exact ⟨[], .ofGap _ (Token.pieces_eq_nil_iff.1 hts)⟩
  | moreDeclarations _ _ ihd ih =>
    rw [List.map_append] at hts
    obtain ⟨us, vs, b, rfl, hus, hvs⟩ := Token.exists_append_of_pieces hts
    obtain ⟨lines, hlines⟩ := ihd hus
    obtain ⟨others, hothers⟩ := ih hvs
    exact ⟨_, hlines.append hothers⟩

/-! ### Texts -/

/-- There are no comments exactly if no token is one. -/
theorem Token.comments_eq_nil_iff {ts : List Token} :
    comments ts = [] ↔ ∀ t ∈ ts, t.kind.isComment = false := by
  induction ts with
  | nil => simp [comments]
  | cons t ts ih =>
    rw [List.forall_mem_cons]
    cases hkind : t.kind.isComment with
    | false => rw [comments_cons_of_code hkind, ih]; simp
    | true =>
      obtain ⟨text, htext⟩ := TokenKind.exists_eq_comment hkind
      rw [comments_cons_of_comment htext]
      simp

/-- The first comment is the first token that is one. -/
theorem Token.head?_comments {ts : List Token} {c : Token}
    (h : ts.find? (·.kind.isComment) = some c) :
    ∃ text, (comments ts).head? = some ⟨text, c.start.toPosition⟩ := by
  induction ts with
  | nil => cases h
  | cons t ts ih =>
    cases hkind : t.kind.isComment with
    | false =>
      rw [List.find?_cons_of_neg (by simp [hkind])] at h
      rw [comments_cons_of_code hkind]
      exact ih h
    | true =>
      rw [List.find?_cons, hkind] at h
      cases h
      obtain ⟨text, htext⟩ := TokenKind.exists_eq_comment hkind
      rw [comments_cons_of_comment htext]
      exact ⟨text, rfl⟩

/-- Comments are gone once they are left out. -/
theorem Token.withoutComments_withoutComments (ts : List Token) :
    withoutComments (withoutComments ts) = withoutComments ts :=
  List.filter_eq_self.2 fun _ ht ↦ (List.mem_filter.1 ht).2

/-- The pieces of the lexemes are those of the tokens that are no comments. -/
theorem Document.map_piece_ofTokens (tokens : List Token) :
    (Document.ofTokens tokens).lexemes.map Lexeme.piece =
      Token.pieces none (Token.withoutComments tokens) :=
  Lexeme.map_piece_gather none [] tokens

namespace Signature

/-- In a text that is accepted without its comments they are accepted too, unless one stands inside
a line: then the first that does is refused. Accepted comments change nothing but what is kept of
them, and of empty lines. -/
theorem parse_comments {source : String} {tokens : List Token} {s₀ : Signature}
    (h : Token.tokenize source = .ok tokens)
    (hcode : Signature.ofTokens (Token.withoutComments tokens) = .ok s₀) :
    (∃ lines, Token.Lines false tokens lines) ∧
    (∀ lines, Token.Lines false tokens lines →
      ((∃ s, Signature.parse source = .ok s) ↔
        ∀ t ∈ lines.flatten, t.kind.isComment = false) ∧
      ∀ c, lines.flatten.find? (·.kind.isComment) = some c →
        Signature.parse source = .error ⟨c.start.toPosition, .misplacedComment⟩) ∧
    ∀ s, Signature.parse source = .ok s → s.plain = s₀.plain := by
  obtain ⟨hplaced, hpairs⟩ := Token.wellPlaced_of_tokenize h
  have hparse : Signature.parse source = Signature.ofTokens tokens := by
    rw [Signature.parse, h, Except.ok_bind]
  refine ⟨?_, fun lines hlines ↦ ?_, fun s hs ↦ ?_⟩
  · refine (ofDocument_eq_ok_iff.1 hcode).1.exists_lines (?_ : Token.pieces none _ = _)
    rw [Lexeme.map_toPiece_map_view, Document.map_piece_ofTokens,
      Token.withoutComments_withoutComments]
  · obtain ⟨ls, before, pending, hgather, hrefused⟩ :=
      hlines.exists_gather (fun t ht ↦ (hplaced t ht).2) hpairs none [] []
    have hlexemes : (Document.ofTokens tokens).lexemes = ls := by
      rw [List.append_nil] at hgather
      exact (congrArg Prod.fst hgather).trans (List.append_nil ls)
    rw [← hlexemes] at hrefused
    have herror : ∀ c, lines.flatten.find? (·.kind.isComment) = some c →
        Signature.parse source = .error ⟨c.start.toPosition, .misplacedComment⟩ := by
      intro c hc
      obtain ⟨text, hhead⟩ := Token.head?_comments hc
      rw [hparse]
      exact hrefused.ofDocument_error hhead
    refine ⟨⟨?_, fun hnone ↦ ?_⟩, herror⟩
    · rintro ⟨s, hs⟩
      rcases hfind : lines.flatten.find? (·.kind.isComment) with - | c
      · simpa only [Bool.not_eq_true] using List.find?_eq_none.1 hfind
      · rw [herror c hfind] at hs
        cases hs
    · rw [hparse]
      rw [Token.comments_eq_nil_iff.2 hnone] at hrefused
      exact hrefused.ofDocument_ok
  · rw [hparse] at hs
    refine plain_eq_of_pieces hs hcode ?_
    rw [Document.map_piece_ofTokens, Document.map_piece_ofTokens,
      Token.withoutComments_withoutComments]

/-- Of the comments at the end of a header and in the middle of a method the second stands inside a
line. -/
theorem parse_comments_sample :
    ∃ tokens s₀,
      Token.tokenize "class A # kept\n  def f: () -> # refused\n    B\nend\n" = .ok tokens ∧
      Signature.ofTokens (Token.withoutComments tokens) = .ok s₀ ∧
      ∃ lines, Token.Lines false tokens lines ∧ ∃ t ∈ lines.flatten, t.kind.isComment = true := by
  generalize hsource : "class A # kept\n  def f: () -> # refused\n    B\nend\n" = source
  have hcode : ((Token.tokenize source).toOption.any
      fun tokens ↦ (Signature.ofTokens (Token.withoutComments tokens)).isOk) = true := by
    rw [← hsource]
    decide +kernel
  have hparse : (Signature.parse source).isOk = false := by
    rw [← hsource]
    decide +kernel
  cases htokens : Token.tokenize source with
  | error e => rw [htokens] at hcode; cases hcode
  | ok tokens =>
    rw [htokens] at hcode
    cases hs : Signature.ofTokens (Token.withoutComments tokens) with
    | error e => rw [Except.toOption, Option.any_some, hs] at hcode; cases hcode
    | ok s₀ =>
      obtain ⟨⟨lines, hlines⟩, hall, -⟩ := parse_comments htokens hs
      refine ⟨tokens, s₀, rfl, hs, lines, hlines, ?_⟩
      by_contra hnone
      obtain ⟨s, hs⟩ := (hall lines hlines).1.2 (by simpa using hnone)
      rw [hs] at hparse
      cases hparse

end Signature

end ModelSignatures
