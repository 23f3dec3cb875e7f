import ModelSignatures.Signature.Format
import ModelSignatures.Proofs.Signature.Members

/-!
# The grammar of declarations

A phrase of a signature text is spelled by a list of views: here the comments count too, each at the
one place where the grammar keeps it. `Phrase.Spells` is the whole grammar, and a document is read
as a signature exactly when its views spell the declarations (`ofDocument_eq_ok_iff`).
-/

namespace ModelSignatures

open Reading (takeAnnotations takeAnnotations_append exists_takeAnnotations leadingComments
  endOfLine endOfLine_of_isLine isLine_of_endOfLine NoSymbol)

/-- The kinds of views are those of the lexemes that they are views of. -/
@[simp] theorem Lexeme.map_kind_map_view (ls : List Lexeme) :
    (ls.map Lexeme.view).map (·.kind) = ls.map Lexeme.kind := by
  rw [List.map_map]
  rfl

/-- The pieces of views are those of the lexemes that they are views of. -/
@[simp] theorem Lexeme.map_toPiece_map_view (ls : List Lexeme) :
    (ls.map Lexeme.view).map View.toPiece = ls.map Lexeme.piece := by
  rw [List.map_map]
  rfl

/-- A part of a signature text. -/
inductive Phrase
  /-- A declaration with what stands above it. -/
  | declaration (comments annots : List String) (spaced : Bool) (d : Declaration)
  /-- The members of a body, or those behind the first. -/
  | members (first : Bool) (ms : List Member)
  | declarations (ds : List Declaration)

/-- The grammar of signatures. -/
inductive Phrase.Spells : Phrase → List View → Prop
  | declaration {kind : DeclarationKind} {name : TypeName} {comments annots : List String}
      {spaced : Bool} {headerComment : Option String} {members : List Member}
      {above header body : List View} {ending : View}
      (annotated : above.map (·.kind) = annots.map .annot)
      (headed : kind.Spells name (header.map (·.kind)))
      (line : View.IsLine (above ++ header) comments spaced headerComment)
      (inner : Spells (.members true members) body) (closed : ending.kind = .word "end") :
      Spells
        (.declaration comments annots spaced
          ⟨kind, name, [], [], headerComment, members, ending.leading, ending.trailing⟩)
        (above ++ (header ++ (body ++ [ending])))
  | noMember (first : Bool) : Spells (.members first []) []
  | lineMember {first : Bool} {content : MemberContent} {comments annots : List String}
      {spaced : Bool} {lineComment : Option String} {ms : List Member}
      {above code more : List View} (annotated : above.map (·.kind) = annots.map .annot)
      (spelled : content.Spells (code.map View.toPiece))
      (line : View.IsLine (above ++ code) comments spaced lineComment)
      (others : Spells (.members false ms) more) :
      Spells (.members first (⟨content, comments, annots, lineComment, !first && spaced⟩ :: ms))
        (above ++ (code ++ more))
  | nestedMember {first : Bool} {comments annots : List String} {spaced : Bool} {d : Declaration}
      {ms : List Member} {vs more : List View}
      (declared : Spells (.declaration comments annots spaced d) vs)
      (others : Spells (.members false ms) more) :
      Spells (.members first (⟨.nested d, comments, annots, none, !first && spaced⟩ :: ms))
        (vs ++ more)
  | noDeclaration : Spells (.declarations []) []
  | moreDeclarations {comments annots : List String} {spaced : Bool} {d : Declaration}
      {ds : List Declaration} {vs more : List View}
      (declared : Spells (.declaration comments annots spaced d) vs)
      (others : Spells (.declarations ds) more) :
      Spells (.declarations ({ d with comments, annotations := annots } :: ds)) (vs ++ more)

/-- A declaration is longer than what stands above it. -/
theorem Phrase.Spells.length_lt {comments annots : List String} {spaced : Bool} {d : Declaration}
    {vs : List View} (h : Spells (.declaration comments annots spaced d) vs) :
    annots.length < vs.length := by
  cases h with
  | declaration annotated =>
    have hlength := congrArg List.length annotated
    simp only [List.length_map, List.length_append, List.length_cons] at hlength ⊢
    omega

/-! ### What the readers take -/

/-- Whether a reader of declarations takes just what spells them, where the annotations above have
been taken. -/
def Declaration.Reads (declaration : List Lexeme → Reader Declaration) : Prop :=
  ∀ ⦃above ls rest : List Lexeme⦄ ⦃annots : List String⦄ ⦃d : Declaration⦄,
    above.map Lexeme.kind = annots.map .annot → declaration (above ++ ls) ls = .ok (d, rest) →
      ∃ pre, ls = pre ++ rest ∧
        Phrase.Spells
          (.declaration (leadingComments (above ++ ls)) annots
            ((above ++ ls).head?.any (·.spaced)) d)
          ((above ++ pre).map Lexeme.view)

section Reads

variable {declaration : List Lexeme → Reader Declaration}
  (hdeclaration : Declaration.Reads declaration)
include hdeclaration

/-- A member that was read can be put in front of others. -/
theorem MemberContent.read_reads {bound : Nat} {above ls rest : List Lexeme} {annots : List String}
    {content : MemberContent} {lineComment : Option String}
    (habove : above.map Lexeme.kind = annots.map .annot)
    (h : MemberContent.read declaration bound (above ++ ls) ls =
      .ok ((content, lineComment), rest)) :
    ∃ pre, ls = pre ++ rest ∧ ∀ first ms more, Phrase.Spells (.members false ms) more →
      Phrase.Spells
        (.members first
          (⟨content, leadingComments (above ++ ls), annots, lineComment,
            !first && (above ++ ls).head?.any (·.spaced)⟩ :: ms))
        ((above ++ pre).map Lexeme.view ++ more) := by
  rw [MemberContent.read] at h
  split at h
  · rw [Except.bind_eq_ok_iff] at h
    obtain ⟨⟨d, after⟩, hd, h⟩ := h
    cases h
    obtain ⟨pre, rfl, hpre⟩ := hdeclaration habove hd
    exact ⟨pre, rfl, fun first ms more hmore ↦ .nestedMember hpre hmore⟩
  · rw [Except.bind_eq_ok_iff] at h
    obtain ⟨⟨content', after⟩, hcontent, h⟩ := h
    dsimp only at h
    rw [Except.bind_eq_ok_iff] at h
    obtain ⟨comment, hcomment, h⟩ := h
    cases h
    obtain ⟨pre, rfl, hpre⟩ := readLine_reads bound hcontent
    refine ⟨pre, rfl, fun first ms more hmore ↦ ?_⟩
    have hne : above ++ pre ≠ [] := by
      obtain ⟨p, tail, hp, -⟩ := hpre.head
      obtain ⟨l, pre, rfl, -⟩ := List.map_eq_cons_iff.1 hp
      simp
    rw [← List.append_assoc] at hcomment ⊢
    have hline := isLine_of_endOfLine hne hcomment
    rw [List.map_append] at hline ⊢
    rw [List.append_assoc (above.map Lexeme.view)]
    exact .lineMember (by rw [Lexeme.map_kind_map_view, habove])
      (by rwa [Lexeme.map_toPiece_map_view]) hline hmore

/-- The reader of a body takes members that its lexemes spell. -/
theorem Member.readAll_reads (bound : Nat) (first : Bool) :
    Reader.Reads (Member.readAll declaration bound first) fun ms pre ↦
      Phrase.Spells (.members first ms) (pre.map Lexeme.view) := by
  induction bound generalizing first with
  | zero =>
    intro ls ms rest h
    cases h
  | succ bound ih =>
    intro ls ms rest h
    obtain ⟨annots, above, behind, rfl, htake, habove⟩ := exists_takeAnnotations ls
    rw [Member.readAll, htake] at h
    dsimp only at h
    split at h
    · cases h
    · split at h
      · cases h
        exact ⟨[], rfl, .noMember first⟩
      · cases h
    · rw [Except.bind_eq_ok_iff] at h
      obtain ⟨⟨⟨content, comment⟩, after⟩, hcontent, h⟩ := h
      dsimp only at h
      rw [Except.bind_eq_ok_iff] at h
      obtain ⟨⟨members, after'⟩, hmembers, h⟩ := h
      cases h
      obtain ⟨pre, rfl, hpre⟩ := MemberContent.read_reads hdeclaration habove hcontent
      obtain ⟨more, rfl, hmore⟩ := ih false hmembers
      refine ⟨(above ++ pre) ++ more, by simp, ?_⟩
      show Phrase.Spells _ _
      rw [List.map_append]
      exact hpre first members _ hmore

end Reads

/-- A reader of an `end` that succeeds takes one lexeme, which is an `end`, and returns its
comments. -/
theorem Declaration.eq_cons_of_readEnd {ls rest : List Lexeme} {trailing : List String}
    {comment : Option String} (h : Declaration.readEnd ls = .ok ((trailing, comment), rest)) :
    ∃ l, ls = l :: rest ∧ l.kind = .word "end" ∧ l.view.leading = trailing ∧
      l.view.trailing = comment := by
  unfold Declaration.readEnd at h
  split at h
  · cases h
    exact ⟨_, rfl, rfl, rfl, rfl⟩
  · cases h

/-- What the reader of a declaration returns is spelled by what it takes, annotations included. -/
theorem Declaration.read_reads (bound : Nat) : Declaration.Reads (Declaration.read bound) := by
  induction bound with
  | zero =>
    intro above ls rest annots d _ h
    rw [Declaration.read] at h
    cases h
  | succ bound ih =>
    intro above ls rest annots d habove h
    rw [Declaration.read, Except.bind_eq_ok_iff] at h
    obtain ⟨⟨⟨kind, name⟩, body⟩, hheader, h⟩ := h
    dsimp only at h
    rw [Except.bind_eq_ok_iff] at h
    obtain ⟨headerComment, hcomment, h⟩ := h
    rw [Except.bind_eq_ok_iff] at h
    obtain ⟨⟨members, last⟩, hmembers, h⟩ := h
    dsimp only at h
    rw [Except.bind_eq_ok_iff] at h
    obtain ⟨⟨⟨trailing, endComment⟩, after⟩, hend, h⟩ := h
    cases h
    obtain ⟨header, rfl, hkind⟩ := DeclarationKind.read_reads bound hheader
    obtain ⟨inner, rfl, hinner⟩ := Member.readAll_reads ih bound true hmembers
    obtain ⟨l, rfl, hl, rfl, rfl⟩ := Declaration.eq_cons_of_readEnd hend
    have hne : above ++ header ≠ [] := by
      obtain ⟨text, more, hks, -⟩ := hkind.head
      obtain ⟨l', header, rfl, -⟩ := List.map_eq_cons_iff.1 hks
      simp
    rw [← List.append_assoc] at hcomment
    have hline := isLine_of_endOfLine hne hcomment
    refine ⟨header ++ (inner ++ [l]), by simp, ?_⟩
    rw [List.append_assoc] at hline
    rw [List.map_append] at hline ⊢
    rw [List.map_append, List.map_append]
    exact .declaration (by rw [Lexeme.map_kind_map_view, habove])
      (by rwa [Lexeme.map_kind_map_view]) hline hinner hl

/-- What the reader of a whole text returns is spelled by all of the text. -/
theorem Declaration.readAll_reads {bound : Nat} {ls : List Lexeme} {ds : List Declaration}
    (hbound : ls.length ≤ bound) (h : Declaration.readAll bound ls = .ok ds) :
    Phrase.Spells (.declarations ds) (ls.map Lexeme.view) := by
  induction bound generalizing ls ds with
  | zero =>
    cases h
    rw [List.length_eq_zero_iff.1 (Nat.le_zero.1 hbound)]
    exact .noDeclaration
  | succ bound ih =>
    obtain ⟨annots, above, behind, rfl, htake, habove⟩ := exists_takeAnnotations ls
    rw [Declaration.readAll, htake] at h
    dsimp only at h
    split at h
    next hempty =>
      split at h
      next hannots =>
        cases h
        rw [List.isEmpty_iff] at hempty hannots
        subst hempty hannots
        rw [List.map_eq_nil_iff.1 habove]
        exact .noDeclaration
      · cases h
    · rw [Except.bind_eq_ok_iff] at h
      obtain ⟨⟨d, after⟩, hd, h⟩ := h
      dsimp only at h
      rw [Except.bind_eq_ok_iff] at h
      obtain ⟨others, hothers, h⟩ := h
      cases h
      obtain ⟨pre, rfl, hpre⟩ := Declaration.read_reads (bound + 1) habove hd
      have hlength := hpre.length_lt
      have hannots := congrArg List.length habove
      simp only [List.length_map, List.length_append] at hbound hlength hannots
      have hall := Phrase.Spells.moreDeclarations hpre (ih (by omega) hothers)
      rw [← List.map_append, List.append_assoc] at hall
      exact hall

/-! ### What the readers succeed on -/

/-- A word stands first in front of which there are at most annotations, so no symbol does. -/
theorem View.not_symbol_of_annotated {annots : List String} {above code more : List View}
    {v : View} {text : String} (annotated : above.map (·.kind) = annots.map .annot)
    (hcode : code.head? = some v) (hv : v.kind = .word text) :
    ∀ w ∈ (above ++ (code ++ more)).head?, ∀ s, w.kind ≠ .symbol s := by
  intro w hw s
  rcases above with - | ⟨u, above⟩
  · rcases code with - | ⟨u, code⟩
    · cases hcode
    · cases hcode
      cases hw
      rw [hv]
      simp
  · cases hw
    obtain ⟨text', annots, -, hkind, -⟩ := List.map_eq_cons_iff.1 annotated.symm
    rw [show w.kind = _ from hkind.symm]
    simp

/-- A header begins with one of the keywords `class` and `module`. -/
theorem DeclarationKind.Spells.head_view {kind : DeclarationKind} {name : TypeName}
    {header : List View} (h : DeclarationKind.Spells kind name (header.map (·.kind))) :
    ∃ v text, header.head? = some v ∧ v.kind = .word text ∧ (text = "class" ∨ text = "module") := by
  obtain ⟨text, more, hks, htext⟩ := h.head
  obtain ⟨v, header, rfl, hv, -⟩ := List.map_eq_cons_iff.1 hks
  exact ⟨v, text, rfl, hv, htext⟩

/-- A member that is no declaration begins with a keyword of its own. -/
theorem MemberContent.Spells.head_view {content : MemberContent} {code : List View}
    (h : content.Spells (code.map View.toPiece)) :
    ∃ v text, code.head? = some v ∧ v.kind = .word text ∧ text ∈ MemberContent.keywords := by
  obtain ⟨p, more, hps, text, hmem, htext⟩ := h.head
  obtain ⟨v, code, rfl, rfl, -⟩ := List.map_eq_cons_iff.1 hps
  exact ⟨v, text, rfl, htext, hmem⟩

/-- The lexemes of a member begin with its keyword. -/
theorem MemberContent.Spells.head_code {content : MemberContent} {code : List Lexeme}
    (spelled : content.Spells (code.map Lexeme.piece)) :
    ∃ v text, (code.map Lexeme.view).head? = some v ∧ v.kind = .word text ∧
      text ∈ MemberContent.keywords := by
  rw [← Lexeme.map_toPiece_map_view] at spelled
  exact spelled.head_view

/-- The lexemes of a header begin with its keyword. -/
theorem DeclarationKind.Spells.head_code {kind : DeclarationKind} {name : TypeName}
    {code : List Lexeme} (headed : kind.Spells name (code.map Lexeme.kind)) :
    ∃ v text, (code.map Lexeme.view).head? = some v ∧ v.kind = .word text ∧
      (text = "class" ∨ text = "module") := by
  rw [← Lexeme.map_kind_map_view] at headed
  exact headed.head_view

/-- A member has at least one piece. -/
theorem MemberContent.Spells.length_pos {content : MemberContent} {ps : List Piece}
    (h : content.Spells ps) : 0 < ps.length := by
  obtain ⟨p, more, rfl, -⟩ := h.head
  simp

/-- A header has at least one token. -/
theorem DeclarationKind.Spells.length_pos {kind : DeclarationKind} {name : TypeName}
    {ks : List TokenKind} (h : kind.Spells name ks) : 0 < ks.length := by
  obtain ⟨text, more, rfl, -⟩ := h.head
  simp

/-- No keyword of a member is one with which a declaration or the end of one begins. -/
theorem MemberContent.no_declaration_of_mem_keywords {text : String} (h : text ∈ keywords) :
    (text == "class" || text == "module") = false ∧ text ≠ "end" := by
  revert text
  decide

/-- No member begins with a symbol. -/
theorem Phrase.Spells.not_symbol {first : Bool} {ms : List Member} {vs : List View}
    (h : Spells (.members first ms) vs) : ∀ v ∈ vs.head?, ∀ s, v.kind ≠ .symbol s := by
  cases h with
  | noMember => simp
  | lineMember annotated spelled =>
    obtain ⟨v, text, hv, htext, -⟩ := spelled.head_view
    exact View.not_symbol_of_annotated annotated hv htext
  | nestedMember declared =>
    cases declared with
    | declaration annotated headed =>
      obtain ⟨v, text, hv, htext, -⟩ := headed.head_view
      rw [List.append_assoc, List.append_assoc]
      exact View.not_symbol_of_annotated annotated hv htext

/-- Members stand in front of a symbol only if nothing of them is written and the symbol comes next.
-/
theorem Phrase.Spells.noSymbol {first : Bool} {ms : List Member} {ls rest : List Lexeme}
    (h : Spells (.members first ms) (ls.map Lexeme.view)) (hrest : NoSymbol rest) :
    NoSymbol (ls ++ rest) := by
  rcases ls with - | ⟨l, ls⟩
  · exact hrest
  · rintro _ ⟨⟩ s
    exact h.not_symbol _ rfl s

/-- Whether the reader of the phrase reads what stands in front of `rest`. -/
def Phrase.IsRead (bound : Nat) (ls rest : List Lexeme) : Phrase → Prop
  | declaration comments annots spaced d =>
    ∃ behind, takeAnnotations (ls ++ rest) = (annots, behind) ∧ Declaration.isNext behind = true ∧
      Declaration.read bound (ls ++ rest) behind = .ok (d, rest) ∧
      leadingComments (ls ++ rest) = comments ∧ (ls ++ rest).head?.any (·.spaced) = spaced
  | members first ms =>
    (∃ l more, rest = l :: more ∧ l.kind = .word "end") → ∀ n > ls.length,
      Member.readAll (Declaration.read bound) n first (ls ++ rest) = .ok (ms, rest)
  | declarations ds => rest = [] → Declaration.readAll bound ls = .ok ds

/-- Whether a declaration comes next is decided by the word in front. -/
theorem Declaration.isNext_of_head {ls rest : List Lexeme} {v : View} {text : String}
    (hls : (ls.map Lexeme.view).head? = some v) (hv : v.kind = .word text) :
    Declaration.isNext (ls ++ rest) = (text == "class" || text == "module") := by
  rcases ls with - | ⟨l, ls⟩
  · cases hls
  · cases hls
    cases l
    cases hv
    rfl

/-- In front of a header a declaration comes next. -/
theorem DeclarationKind.Spells.isNext {kind : DeclarationKind} {name : TypeName}
    {code : List Lexeme} (headed : kind.Spells name (code.map Lexeme.kind))
    (rest : List Lexeme) : Declaration.isNext (code ++ rest) = true := by
  obtain ⟨v, text, hv, htext, hkeyword⟩ := headed.head_code
  rw [Declaration.isNext_of_head hv htext]
  rcases hkeyword with rfl | rfl <;> rfl

/-- The annotations in front of a word are all taken, and nothing else is. -/
theorem Reading.takeAnnotations_of_head {annots : List String} {above ls rest : List Lexeme}
    {v : View} {text : String} (habove : above.map Lexeme.kind = annots.map .annot)
    (hls : (ls.map Lexeme.view).head? = some v) (hv : v.kind = .word text) :
    takeAnnotations (above ++ (ls ++ rest)) = (annots, ls ++ rest) := by
  refine takeAnnotations_append habove fun l hl text' ↦ ?_
  rcases ls with - | ⟨l', ls⟩
  · cases hls
  · cases hls
    cases hl
    rw [show l.kind = .word text from hv]
    simp

/-- A member that is no `end` is read with those behind it. -/
theorem Member.readAll_succ {declaration : List Lexeme → Reader Declaration} {bound : Nat}
    {first : Bool} {above ls after rest : List Lexeme} {annots : List String}
    {content : MemberContent} {comment : Option String} {members : List Member}
    {l : Lexeme} {text : String}
    (htake : takeAnnotations above = (annots, ls)) (hhead : ls.head? = some l)
    (hl : l.kind = .word text) (htext : text ≠ "end")
    (hcontent : MemberContent.read declaration bound above ls = .ok ((content, comment), after))
    (hmembers : Member.readAll declaration bound false after = .ok (members, rest)) :
    Member.readAll declaration (bound + 1) first above =
      .ok (⟨content, leadingComments above, annots, comment,
        !first && above.head?.any (·.spaced)⟩ :: members, rest) := by
  rw [Member.readAll, htake]
  dsimp only
  split
  · cases hhead
  next kind _ _ _ _ _ _ =>
    cases hhead
    cases hl
    exact absurd rfl htext
  · rw [hcontent]
    simp only [Except.ok_bind]
    rw [hmembers]
    rfl

/-- What spells a member that is no declaration is read up to the end of its line. -/
theorem MemberContent.read_eq_of_spells {declaration : List Lexeme → Reader Declaration}
    {bound : Nat} {content : MemberContent} {code rest : List Lexeme}
    (spelled : content.Spells (code.map Lexeme.piece)) (hbound : code.length ≤ bound)
    (hrest : NoSymbol rest) (above : List Lexeme) :
    MemberContent.read declaration bound above (code ++ rest) =
      endOfLine above rest >>= fun comment ↦ .ok ((content, comment), rest) := by
  obtain ⟨v, text, hv, htext, hkeyword⟩ := spelled.head_code
  have hnext : Declaration.isNext (code ++ rest) = false := by
    rw [Declaration.isNext_of_head hv htext]
    exact (no_declaration_of_mem_keywords hkeyword).1
  have hcode : readLine bound (code ++ rest) = .ok (content, rest) :=
    readLine_of_spells spelled rfl (by rwa [List.length_map]) hrest
  rw [MemberContent.read, if_neg (by simp [hnext]), hcode, Except.ok_bind]
  rfl

/-- A line that spells a member is read as that member, with the comment at its end. -/
theorem MemberContent.read_of_spells {declaration : List Lexeme → Reader Declaration} {bound : Nat}
    {content : MemberContent} {comments : List String} {spaced : Bool} {comment : Option String}
    {above code rest : List Lexeme} (spelled : content.Spells (code.map Lexeme.piece))
    (line : View.IsLine ((above ++ code).map Lexeme.view) comments spaced comment)
    (hbound : code.length ≤ bound) (hrest : NoSymbol rest) :
    MemberContent.read declaration bound (above ++ (code ++ rest)) (code ++ rest) =
      .ok ((content, comment), rest) := by
  rw [read_eq_of_spells spelled hbound hrest, ← List.append_assoc,
    (endOfLine_of_isLine line rest).1, Except.ok_bind]

/-- What spells a header is read up to the end of its line, and then the body. -/
theorem Declaration.read_eq_of_spells {bound : Nat} {kind : DeclarationKind} {name : TypeName}
    {header body : List Lexeme} (headed : kind.Spells name (header.map Lexeme.kind))
    (hbound : header.length ≤ bound) (hbody : NoSymbol body) (above : List Lexeme) :
    Declaration.read (bound + 1) above (header ++ body) =
      endOfLine above body >>= fun comment ↦
        Member.readAll (Declaration.read bound) bound true body >>= fun p ↦
          Declaration.readEnd p.2 >>= fun q ↦
            .ok (⟨kind, name, [], [], comment, p.1, q.1.1, q.1.2⟩, q.2) := by
  have hheader : DeclarationKind.read bound (header ++ body) = .ok ((kind, name), body) :=
    DeclarationKind.read_of_spells headed rfl (by rwa [List.length_map]) hbody
  rw [Declaration.read, hheader, Except.ok_bind]
  rfl

/-- An `end` is read wherever it stands in front. -/
theorem Declaration.readEnd_cons {ending : Lexeme} (closed : ending.kind = .word "end")
    (rest : List Lexeme) :
    Declaration.readEnd (ending :: rest) =
      .ok ((ending.view.leading, ending.view.trailing), rest) := by
  cases ending
  cases closed
  rfl

/-- A header, a body and the word that closes it are read as a declaration. -/
theorem Declaration.read_of_spells {bound : Nat} {kind : DeclarationKind} {name : TypeName}
    {comments : List String} {spaced : Bool} {comment : Option String} {members : List Member}
    {above header body rest : List Lexeme} {ending : Lexeme}
    (headed : kind.Spells name (header.map Lexeme.kind))
    (line : View.IsLine ((above ++ header).map Lexeme.view) comments spaced comment)
    (hbound : header.length ≤ bound) (closed : ending.kind = .word "end")
    (hbody : NoSymbol (body ++ ending :: rest))
    (hmembers : Member.readAll (Declaration.read bound) bound true (body ++ ending :: rest) =
      .ok (members, ending :: rest)) :
    Declaration.read (bound + 1) (above ++ (header ++ (body ++ ending :: rest)))
        (header ++ (body ++ ending :: rest)) =
      .ok (⟨kind, name, [], [], comment, members, ending.view.leading, ending.view.trailing⟩,
        rest) := by
  rw [read_eq_of_spells headed hbound hbody, ← List.append_assoc,
    (endOfLine_of_isLine line _).1, Except.ok_bind, hmembers, Except.ok_bind, readEnd_cons closed,
    Except.ok_bind]

/-- A declaration that comes next begins with a word that ends no body. -/
theorem Declaration.exists_head_of_isNext {ls : List Lexeme} (h : Declaration.isNext ls = true) :
    ∃ l text, ls.head? = some l ∧ l.kind = .word text ∧ text ≠ "end" := by
  unfold Declaration.isNext at h
  split at h
  · refine ⟨_, _, rfl, rfl, ?_⟩
    rintro rfl
    cases h
  · cases h

/-- A declaration is read with those behind it. -/
theorem Declaration.readAll_succ {bound : Nat} {above ls after : List Lexeme}
    {annots : List String} {d : Declaration} {ds : List Declaration}
    (htake : takeAnnotations above = (annots, ls)) (hnext : Declaration.isNext ls = true)
    (hread : Declaration.read (bound + 1) above ls = .ok (d, after))
    (hothers : Declaration.readAll bound after = .ok ds) :
    Declaration.readAll (bound + 1) above =
      .ok ({ d with comments := leadingComments above, annotations := annots } :: ds) := by
  have hempty : ls.isEmpty = false := by
    cases ls with
    | nil => cases hnext
    | cons => rfl
  rw [Declaration.readAll, htake]
  dsimp only
  rw [if_neg (by simp [hempty]), hread]
  simp only [Except.ok_bind]
  rw [hothers]
  rfl

namespace Phrase

variable {bound : Nat} {rest : List Lexeme} {comments annots : List String} {spaced : Bool}

/-- A declaration is read if its body is: the annotations, the header and the `end` are taken around
it. -/
theorem isRead_declaration {kind : DeclarationKind} {name : TypeName}
    {headerComment : Option String} {members : List Member} {above header body : List Lexeme}
    {ending : Lexeme} (annotated : above.map Lexeme.kind = annots.map .annot)
    (headed : kind.Spells name (header.map Lexeme.kind))
    (line : View.IsLine ((above ++ header).map Lexeme.view) comments spaced headerComment)
    (inner : Spells (.members true members) (body.map Lexeme.view))
    (closed : ending.kind = .word "end") (hheader : header.length ≤ bound)
    (hbody : body.length < bound)
    (hmembers : IsRead bound body (ending :: rest) (.members true members)) :
    IsRead (bound + 1) (above ++ (header ++ (body ++ [ending]))) rest
      (.declaration comments annots spaced
        ⟨kind, name, [], [], headerComment, members, ending.view.leading,
          ending.view.trailing⟩) := by
  obtain ⟨v, text, hv, htext, hkeyword⟩ := headed.head_code
  have hsplit : above ++ (header ++ (body ++ [ending])) ++ rest =
      above ++ (header ++ (body ++ ending :: rest)) := by simp
  obtain ⟨-, hleading, hspaced⟩ := endOfLine_of_isLine line (body ++ ending :: rest)
  rw [List.append_assoc] at hleading hspaced
  rw [IsRead, hsplit]
  exact ⟨header ++ (body ++ ending :: rest), Reading.takeAnnotations_of_head annotated hv htext,
    headed.isNext _,
    Declaration.read_of_spells headed line hheader closed
      (inner.noSymbol (Reading.noSymbol_cons closed rest))
      (hmembers ⟨ending, rest, rfl, closed⟩ bound hbody), hleading, hspaced⟩

theorem isRead_lineMember {first : Bool} {content : MemberContent} {lineComment : Option String}
    {ms : List Member} {above code more : List Lexeme}
    (annotated : above.map Lexeme.kind = annots.map .annot)
    (spelled : content.Spells (code.map Lexeme.piece))
    (line : View.IsLine ((above ++ code).map Lexeme.view) comments spaced lineComment)
    (others : Spells (.members false ms) (more.map Lexeme.view))
    (hmore : IsRead bound more rest (.members false ms)) :
    IsRead bound (above ++ (code ++ more)) rest
      (.members first (⟨content, comments, annots, lineComment, !first && spaced⟩ :: ms)) := by
  rintro hend n hn
  obtain ⟨v, text, hv, htext, hkeyword⟩ := spelled.head_code
  have hpos := spelled.length_pos
  rw [List.length_map] at hpos
  simp only [List.length_append] at hn
  obtain ⟨n, rfl⟩ : ∃ m, n = m + 1 := ⟨n - 1, by omega⟩
  have hrest : NoSymbol rest := by
    obtain ⟨l, tail, rfl, hl⟩ := hend
    exact Reading.noSymbol_cons hl tail
  have hread : MemberContent.read (Declaration.read bound) n (above ++ (code ++ (more ++ rest)))
      (code ++ (more ++ rest)) = .ok ((content, lineComment), more ++ rest) :=
    MemberContent.read_of_spells spelled line (by omega) (others.noSymbol hrest)
  have htake : takeAnnotations (above ++ (code ++ (more ++ rest))) =
      (annots, code ++ (more ++ rest)) :=
    Reading.takeAnnotations_of_head annotated hv htext
  obtain ⟨-, hleading, hspaced⟩ := endOfLine_of_isLine line (more ++ rest)
  rw [List.append_assoc] at hleading hspaced
  obtain ⟨l, tail, rfl⟩ : ∃ l tail, code = l :: tail := List.exists_cons_of_length_pos hpos
  cases hv
  rw [List.append_assoc, List.append_assoc, Member.readAll_succ htake rfl htext
    (MemberContent.no_declaration_of_mem_keywords hkeyword).2 hread (hmore hend n (by omega)),
    hleading, hspaced]

/-- A member that is a declaration is read if the declaration and the members below it are. -/
theorem isRead_nestedMember {first : Bool} {d : Declaration} {ms : List Member}
    {ls more : List Lexeme} (hls : 0 < ls.length)
    (hdeclared : IsRead bound ls (more ++ rest) (.declaration comments annots spaced d))
    (hmore : IsRead bound more rest (.members false ms)) :
    IsRead bound (ls ++ more) rest
      (.members first (⟨.nested d, comments, annots, none, !first && spaced⟩ :: ms)) := by
  rintro hend n hn
  obtain ⟨behind, htake, hnext, hread, hleading, hspaced⟩ := hdeclared
  rw [List.length_append] at hn
  obtain ⟨n, rfl⟩ : ∃ m, n = m + 1 := ⟨n - 1, by omega⟩
  have hcontent : MemberContent.read (Declaration.read bound) n (ls ++ (more ++ rest)) behind =
      .ok ((.nested d, none), more ++ rest) := by
    rw [MemberContent.read, if_pos hnext, hread]
    rfl
  obtain ⟨l, text, hhead, hl, htext⟩ := Declaration.exists_head_of_isNext hnext
  rw [List.append_assoc, Member.readAll_succ htake hhead hl htext hcontent
    (hmore hend n (by omega)), hleading, hspaced]

/-- A declaration at the top is read in front of others if it and they are. -/
theorem isRead_moreDeclarations {d : Declaration} {ds : List Declaration} {ls more : List Lexeme}
    (hdeclared : IsRead (bound + 1) ls more (.declaration comments annots spaced d))
    (hmore : IsRead bound more [] (.declarations ds)) :
    IsRead (bound + 1) (ls ++ more) []
      (.declarations ({ d with comments, annotations := annots } :: ds)) := by
  intro _
  obtain ⟨behind, htake, hnext, hread, rfl, -⟩ := hdeclared
  exact Declaration.readAll_succ htake hnext hread (hmore rfl)

/-- What spells a phrase is read as that phrase. -/
theorem isRead_of_spells {phrase : Phrase} {vs : List View} (h : phrase.Spells vs)
    (bound : Nat) {ls : List Lexeme} (rest : List Lexeme) (hls : ls.map Lexeme.view = vs)
    (hbound : ls.length ≤ bound) : phrase.IsRead bound ls rest := by
  -- over the spelling: the lexemes are split where the views of the parts are
  induction h generalizing bound ls rest with
  | declaration annotated headed line inner closed ih =>
    obtain ⟨above, behind, rfl, rfl, hbehind⟩ := List.map_eq_append_iff.1 hls
    obtain ⟨header, behind, rfl, rfl, hinner⟩ := List.map_eq_append_iff.1 hbehind
    obtain ⟨body, last, rfl, rfl, hlast⟩ := List.map_eq_append_iff.1 hinner
    obtain ⟨l, rfl, rfl⟩ := List.map_eq_singleton_iff.1 hlast
    rw [← List.map_append] at line
    rw [Lexeme.map_kind_map_view] at annotated headed
    have hpos := headed.length_pos
    rw [List.length_map] at hpos
    simp only [List.length_append, List.length_cons, List.length_nil] at hbound
    obtain ⟨bound, rfl⟩ : ∃ n, bound = n + 1 := ⟨bound - 1, by omega⟩
    exact isRead_declaration annotated headed line inner closed (by omega) (by omega)
      (ih bound (l :: rest) rfl (by omega))
  | noMember first =>
    rintro ⟨l, more, rfl, hl⟩ n hn
    rw [List.map_eq_nil_iff.1 hls] at hn ⊢
    obtain ⟨n, rfl⟩ : ∃ m, n = m + 1 := ⟨n - 1, by simp at hn; omega⟩
    cases l
    cases hl
    rfl
  | lineMember annotated spelled line others ih =>
    obtain ⟨above, behind, rfl, rfl, hbehind⟩ := List.map_eq_append_iff.1 hls
    obtain ⟨code, more, rfl, rfl, rfl⟩ := List.map_eq_append_iff.1 hbehind
    rw [← List.map_append] at line
    rw [Lexeme.map_kind_map_view] at annotated
    rw [Lexeme.map_toPiece_map_view] at spelled
    simp only [List.length_append] at hbound
    exact isRead_lineMember annotated spelled line others (ih bound rest rfl (by omega))
  | nestedMember declared others ihd ih =>
    obtain ⟨pre, more, rfl, rfl, rfl⟩ := List.map_eq_append_iff.1 hls
    have hlength := declared.length_lt
    rw [List.length_map] at hlength
    rw [List.length_append] at hbound
    exact isRead_nestedMember (by omega) (ihd bound (more ++ rest) rfl (by omega))
      (ih bound rest rfl (by omega))
  | noDeclaration =>
    rintro rfl
    rw [List.map_eq_nil_iff.1 hls]
    cases bound <;> rfl
  | moreDeclarations declared others ihd ih =>
    rintro rfl
    obtain ⟨pre, more, rfl, rfl, rfl⟩ := List.map_eq_append_iff.1 hls
    have hlength := declared.length_lt
    rw [List.length_map] at hlength
    rw [List.length_append] at hbound
    obtain ⟨bound, rfl⟩ : ∃ m, bound = m + 1 := ⟨bound - 1, by omega⟩
    exact isRead_moreDeclarations (ihd (bound + 1) more rfl (by omega))
      (ih bound [] rfl (by omega)) rfl

end Phrase

/-- A document is read as a signature exactly when it spells the signature. -/
theorem Signature.ofDocument_eq_ok_iff {document : Document} {s : Signature} :
    Signature.ofDocument document = .ok s ↔
      Phrase.Spells (.declarations s.declarations) (document.lexemes.map Lexeme.view) ∧
        s.trailingComments = document.closing.map (·.text) := by
  rw [Signature.ofDocument]
  constructor
  · intro h
    split at h
    next ds hds =>
      cases h
      exact ⟨Declaration.readAll_reads (Nat.le_refl _) hds, rfl⟩
    · cases h
  · rintro ⟨hspells, hcomments⟩
    have hread := Phrase.isRead_of_spells hspells document.lexemes.length [] rfl (Nat.le_refl _) rfl
    rw [hread]
    dsimp only
    rw [← hcomments]

end ModelSignatures
