import ModelSignatures.Proofs.Signature.RoundTrip
import ModelSignatures.Proofs.TypeExpr.Erasure

/-!
# What formatting keeps

Formatting keeps every token of a text in its order, but for parentheses and `?` of types that need
none, and it keeps every comment in its place: behind the same token, and at the end of that token's
line or on a line of its own as before (`outline_format`). A code line erases to the code that is
written for it, and the comments around the line are those around the entry.
-/

namespace ModelSignatures

open Layout (tokens symbol word methodName lineComment OpensLine)

/-! ### Code -/

section Erasure

variable {ks : List TokenKind}

/-- What is repeated loses what each of its items loses. -/
theorem Repeated.erasesTo {α : Type} {separator : Symbol} {P : α → List TokenKind → Prop}
    {f : α → List TokenKind}
    (hitem : ∀ {x ks}, P x ks → ErasesTo TokenKind.IsErasable ks (f x)) {xs : List α}
    (h : Repeated separator P xs ks) :
    ErasesTo TokenKind.IsErasable ks (xs.flatMap fun x ↦ .symbol separator :: f x) := by
  induction h with
  | nil => exact .nil
  | cons head _ ih => exact ((hitem head).append ih).keep _

/-- A class with arguments loses nothing but what may be missing. -/
theorem ClassType.Spells.erasesTo {c : ClassType} (h : c.Spells ks) :
    ErasesTo TokenKind.IsErasable ks (tokens c.layout) := by
  obtain ⟨-, spelled⟩ := h
  exact spelled.erasesFrom _

/-- A parameter loses nothing but what may be missing from its type. -/
theorem Param.Spells.erasesTo {p : Param} (h : p.Spells ks) :
    ErasesTo TokenKind.IsErasable ks (tokens p.layout) := by
  obtain @⟨kind, type, name, ks, spelled⟩ := h
  have hall := ErasesTo.append_left kind.kinds
    (ErasesTo.append_right spelled.erasesFrom (name.map .word).toList)
  rw [Param.layout, Layout.tokens_append, Layout.tokens_append, ParamKind.tokens_layout,
    List.append_assoc]
  cases name <;> exact hall

/-- Parameters between commas lose what each of them does. -/
theorem Overload.erasesTo_of_listed {ps : List Param} (h : Listed .comma Param.Spells ps ks) :
    ErasesTo TokenKind.IsErasable ks
      (tokens (Layout.commaSeparated (ps.map Param.layout))) := by
  cases h with
  | nil => exact .nil
  | cons head tail =>
    rw [List.map_cons, Layout.commaSeparated, Layout.intercalate_cons, Layout.tokens_append,
      Layout.tokens_flatMap, List.flatMap_map]
    exact head.erasesTo.append (tail.erasesTo fun hp ↦ hp.erasesTo)

/-- An overload loses what its parameters and its result do. -/
theorem Overload.Spells.erasesTo {o : Overload} (h : o.Spells ks) :
    ErasesTo TokenKind.IsErasable ks (tokens o.layout) := by
  obtain @⟨params, result, ks, more, listed, spelled⟩ := h
  have hresult : ErasesTo TokenKind.IsErasable more (tokens (result.layout 1)) :=
    spelled.erasesFrom 1
  have hall := ((erasesTo_of_listed listed).append
    ((hresult.keep (.symbol .arrow)).keep (.symbol .rightParen))).keep (.symbol .leftParen)
  simpa [Overload.layout, symbol] using hall

end Erasure

/-- A method is written with the name that it was spelled with. -/
theorem Method.NameSpells.map_kind {name : String} {ps : List Piece} (h : NameSpells name ps)
    (hps : ∀ p ∈ ps, p.kind.Legible) : ps.map Piece.kind = tokens (methodName name) := by
  cases h with
  | plain text glued =>
    rw [Layout.methodName_of_isWord (hps _ List.mem_cons_self)]
    rfl
  | suffixed stem glued suffix =>
    rw [Layout.methodName_push suffix]
    rfl

/-- A method loses what its overloads do, at whatever indent it is written. -/
theorem Method.Spells.erasesTo {m : Method} {ps : List Piece} (h : m.Spells ps)
    (hps : ∀ p ∈ ps, p.kind.Legible) (indent : Nat) :
    ErasesTo TokenKind.IsErasable (.word "def" :: ps.map Piece.kind) (tokens (m.code indent)) := by
  obtain @⟨name, singleton, first, others, self, stem, signature, ks, more, marked, named, spelled,
    repeated, typed⟩ := h
  rw [List.forall_mem_append, List.forall_mem_append] at hps
  have hcode : tokens (Method.code ⟨name, singleton, first :: others⟩ indent) =
      .word "def" :: (singletonKinds singleton ++ (tokens (methodName name) ++
        .symbol .colon :: (tokens first.layout ++
          others.flatMap fun o ↦ .symbol .pipe :: tokens o.layout))) := by
    cases singleton <;>
      simp [Method.code, header, word, symbol, singletonKinds, Layout.tokens_flatMap]
  rw [List.map_append, List.map_append, marked, typed, named.map_kind hps.2.1, hcode]
  exact .keep _ (.append_left _ (.append_left _ (.keep _
    (spelled.erasesTo.append (repeated.erasesTo fun ho ↦ ho.erasesTo)))))

/-- A member of one line loses nothing but what may be missing. -/
theorem MemberContent.Spells.erasesTo {content : MemberContent} {ps : List Piece}
    (h : content.Spells ps) (hps : ∀ p ∈ ps, p.kind.Legible) (indent : Nat) :
    ErasesTo TokenKind.IsErasable (ps.map Piece.kind) (tokens (content.code indent)) := by
  cases h with
  | including head spelled | extending head spelled =>
    rw [List.map_cons, head]
    exact spelled.erasesTo.keep _
  | @attr kind name type keyword stem signature ks head named spelled typed =>
    rw [List.forall_mem_cons, List.forall_mem_append] at hps
    rw [List.map_cons, List.map_append, head, typed, named.map_kind hps.2.1]
    have hcode : tokens ((MemberContent.attr kind name type).code indent) = .word kind.keyword ::
        (tokens (methodName name) ++ .symbol .colon :: tokens (type.layout 0)) := by
      simp [code, word, symbol]
    rw [hcode]
    exact .keep _ (.append_left _ (.keep _ spelled.erasesFrom))
  | method head spelled =>
    rw [List.forall_mem_cons] at hps
    rw [List.map_cons, head]
    exact spelled.erasesTo hps.2 indent
  | aliasing head new old =>
    rw [List.forall_mem_cons, List.forall_mem_append] at hps
    rw [List.map_cons, List.map_append, head, new.map_kind hps.2.1, old.map_kind hps.2.2]
    simpa [code, word] using ErasesTo.refl _

/-- A header loses nothing but what may be missing from its superclass. -/
theorem DeclarationKind.Spells.erasesTo {kind : DeclarationKind} {name : TypeName}
    {ks : List TokenKind} (h : Spells kind name ks) :
    ErasesTo TokenKind.IsErasable ks (tokens (kind.header name)) := by
  cases h with
  | plainClass | ofModule =>
    rw [← name.tokens_layout]
    exact .refl _
  | subclass _ spelled =>
    have hall := ((spelled.erasesTo.keep (.symbol .less)).append_left name.kinds).keep
      (.word "class")
    simpa [header, word, symbol, TypeName.tokens_layout] using hall

/-! ### Lines -/

/-- A line of code and the comments around it erase to the entry that is written for them. -/
theorem View.IsLine.erasesTo {above code : List View} {comments annots : List String}
    {spaced : Bool} {lineComment : Option String}
    (h : View.IsLine (above ++ code) comments spaced lineComment)
    (annotated : above.map (·.kind) = annots.map .annot) {layout : Layout}
    (hcode : Layout.IsCode layout) (hne : tokens layout ≠ [])
    (hkinds : ErasesTo TokenKind.IsErasable (code.map (·.kind)) (tokens layout))
    (outer indent : Nat) :
    ErasesTo (fun m : Mark ↦ m.kind.IsErasable) ((above ++ code).flatMap View.marks)
      (Layout.marks false (Layout.entry outer indent comments annots layout lineComment)) := by
  have hmarks : ((above ++ code).map fun v ↦ Mark.code v.kind) =
      (annots.map TokenKind.annot ++ code.map (·.kind)).map Mark.code := by
    rw [← annotated, ← List.map_append, List.map_map]
    rfl
  have hcodeMarks : ErasesTo (fun m : Mark ↦ m.kind.IsErasable)
      ((annots.map TokenKind.annot ++ code.map (·.kind)).map Mark.code)
      ((annots.map TokenKind.annot ++ tokens layout).map Mark.code) :=
    (hkinds.append_left _).map fun _ hkind ↦ hkind
  rw [h.marks_eq, hmarks, Layout.marks_entry _ _ _ _ hcode hne, List.append_assoc]
  exact .append_left _ (hcodeMarks.append_right _)

/-- Whether the views erase to what is written for the phrase. -/
def Phrase.ErasesFrom (vs : List View) : Phrase → Prop
  | declaration comments annots _ d => ∀ depth,
    ErasesTo (fun m : Mark ↦ m.kind.IsErasable) (vs.flatMap View.marks)
      (Layout.marks false (d.layout depth comments annots))
  | members first ms => ∀ depth,
    ErasesTo (fun m : Mark ↦ m.kind.IsErasable) (vs.flatMap View.marks)
      (Layout.marks false (Member.layouts ms depth first))
  | declarations ds =>
    ErasesTo (fun m : Mark ↦ m.kind.IsErasable) (vs.flatMap View.marks)
      (Layout.marks false (Signature.declarationsLayout ds))

/-- The first member of a body is written above the marks of the others. -/
theorem Layout.marks_layouts {m : Member} {ms : List Member} (hm : m.WellFormed)
    (hms : ∀ m ∈ ms, m.WellFormed) (depth : Nat) (first : Bool) :
    Layout.marks false (Member.layouts (m :: ms) depth first) =
      Layout.marks false (m.layout depth) ++
        Layout.marks false (Member.layouts ms depth false) := by
  rw [Member.layouts, Layout.marks_append _
      (Member.opensLine_layouts (fun m hm ↦ (hms m hm).legible) depth false),
    Layout.marks_append _ (hm.legible.opensLine_layout depth)]
  split <;> rfl

/-- The first declaration of a text is written above the marks of the others. -/
theorem Layout.marks_declarationsLayout (d : Declaration) (ds : List Declaration) :
    Layout.marks false (Signature.declarationsLayout (d :: ds)) =
      Layout.marks false (d.layout 0 [] []) ++
        Layout.marks false (Signature.declarationsLayout ds) := by
  rw [Signature.declarationsLayout_cons,
    Layout.marks_append _ (Signature.opensLine_moreDeclarations ds)]
  cases ds with
  | nil => rfl
  | cons d ds => rw [Signature.declarationsLayout_cons]; rfl

/-- The marks of a declaration are those of its header, of its body and of its end. -/
theorem Layout.marks_declaration {d : Declaration} (hmembers : ∀ m ∈ d.members, m.Legible)
    (depth : Nat) (comments annots : List String) :
    Layout.marks false (d.layout depth comments annots) =
      Layout.marks false (Layout.entry (2 * depth) (2 * depth) (comments ++ d.comments)
          (annots ++ d.annotations) (d.kind.header d.name) d.headerComment) ++
        (Layout.marks false (Member.layouts d.members (depth + 1) true) ++
          Layout.marks false (Layout.entry (2 * depth + 2) (2 * depth) d.trailingComments []
            (word "end") d.endComment)) := by
  cases d
  rw [Declaration.layout_eq, Layout.marks_append _
    ((Member.opensLine_layouts hmembers _ _).append (Layout.opensLine_entry _ _ _ _ _ _)),
    Layout.marks_append _ (Layout.opensLine_entry _ _ _ _ _ _)]

/-- The word that closes a declaration is written with the comments around it. -/
theorem View.erasesTo_ending {ending : View} (closed : ending.kind = .word "end")
    (outer indent : Nat) :
    ErasesTo (fun m : Mark ↦ m.kind.IsErasable) ending.marks
      (Layout.marks false
        (Layout.entry outer indent ending.leading [] (word "end") ending.trailing)) := by
  have hline : View.IsLine ([] ++ [ending]) ending.leading ending.spaced ending.trailing :=
    View.IsLine.singleton
  have hunannotated : ([] : List View).map (·.kind) = ([] : List String).map .annot := rfl
  have hkinds : ErasesTo TokenKind.IsErasable ([ending].map (·.kind)) (tokens (word "end")) := by
    rw [List.map_singleton, closed]
    exact .refl _
  have hcode : Layout.IsCode (word "end") := ⟨rfl, trivial⟩
  have hmarks := hline.erasesTo hunannotated hcode (by simp [word]) hkinds outer indent
  rwa [List.nil_append, List.flatMap_singleton] at hmarks

/-- What spells a phrase erases to what is written for it. -/
theorem Phrase.Spells.erasesFrom {phrase : Phrase} {vs : List View} (h : phrase.Spells vs)
    (hvs : ∀ v ∈ vs, v.Legible) : phrase.ErasesFrom vs := by
  -- over the derivation: the marks of the parts are written in their order
  induction h with
  | @declaration kind name comments annots spaced headerComment members above header body ending
      annotated headed line inner closed ih =>
    intro depth
    rw [← List.append_assoc, List.forall_mem_append] at hvs
    obtain ⟨hline, hinner⟩ := hvs
    obtain ⟨hbody, hending⟩ := List.forall_mem_append.1 hinner
    have hheader : ∀ v ∈ header, v.Legible := fun v hv ↦ hline v (List.mem_append_right _ hv)
    obtain ⟨hkind, hname⟩ :=
      headed.wellFormed (List.forall_mem_map.2 fun v hv ↦ (hheader v hv).kind)
    obtain ⟨hmembers, -⟩ := inner.wellFormed hbody
    obtain ⟨text, more, hcode, -⟩ := hkind.spells hname
    have hlineMarks := line.erasesTo annotated
      (hkind.isCodeBefore hname Layout.endsWord_nil).isCode
      (by simp [hcode]) headed.erasesTo (2 * depth) (2 * depth)
    rw [Layout.marks_declaration fun m hm ↦ (hmembers m hm).legible, List.append_nil,
      List.append_nil, ← List.append_assoc above, List.flatMap_append,
      @List.flatMap_append _ _ body, List.flatMap_singleton]
    exact hlineMarks.append ((ih hbody (depth + 1)).append (View.erasesTo_ending closed _ _))
  | noMember => exact fun _ ↦ .nil
  | @lineMember first content comments annots spaced lineComment ms above code more annotated
      spelled line others ih =>
    intro depth
    have hspells : Phrase.Spells (.members first _) (above ++ (code ++ more)) :=
      .lineMember annotated spelled line others
    have hall := hspells.wellFormed hvs
    rw [← List.append_assoc, List.forall_mem_append] at hvs
    obtain ⟨hline, hmore⟩ := hvs
    obtain ⟨hmember, hms⟩ := List.forall_mem_cons.1 hall.1
    have hps : ∀ p ∈ code.map View.toPiece, p.kind.Legible :=
      List.forall_mem_map.2 fun v hv ↦ (hline v (List.mem_append_right _ hv)).kind
    obtain ⟨hcontent, hisLine⟩ := spelled.wellFormed hps
    obtain ⟨text, behind, hcode, -⟩ := hcontent.spells hisLine (2 * depth)
    have hkinds := spelled.erasesTo hps (2 * depth)
    rw [List.map_map] at hkinds
    rw [Layout.marks_layouts hmember hms, Member.layout_eq hcontent.legible hisLine,
      ← List.append_assoc, List.flatMap_append]
    exact (line.erasesTo annotated
      (hcontent.isCodeBefore (2 * depth) Layout.endsWord_nil).isCode
      (by simp [hcode]) hkinds (2 * depth) (2 * depth)).append (ih hmore depth)
  | @nestedMember first comments annots spaced d ms vs more declared others ihd ih =>
    intro depth
    have hspells : Phrase.Spells (.members first _) (vs ++ more) := .nestedMember declared others
    have hall := hspells.wellFormed hvs
    obtain ⟨hmember, hms⟩ := List.forall_mem_cons.1 hall.1
    rw [List.forall_mem_append] at hvs
    rw [Layout.marks_layouts hmember hms, Member.layout, List.flatMap_append]
    exact (ihd hvs.1 depth).append (ih hvs.2 depth)
  | noDeclaration => exact .nil
  | @moreDeclarations comments annots spaced d ds vs more declared others ihd ih =>
    rw [List.forall_mem_append] at hvs
    obtain ⟨-, hown, hownAnnots, -⟩ := declared.wellFormed hvs.1
    rw [ErasesFrom, Layout.marks_declarationsLayout, Declaration.layout_annotated hown hownAnnots,
      List.flatMap_append]
    exact (ihd hvs.1 0).append (ih hvs.2)

/-! ### Texts -/

namespace Signature

/-- The comments at the end of a text are alone on their lines. -/
theorem marks_layout {s : Signature} :
    Layout.marks false s.layout =
      Layout.marks false (declarationsLayout s.declarations) ++
        s.trailingComments.map (Mark.comment false) := by
  have hblank : OpensLine (if s.declarations.isEmpty || s.trailingComments.isEmpty then []
      else [.blank]) := by
    split <;> trivial
  have hcomments := Layout.opensLine_commentLines 0 s.trailingComments
  rw [Signature.layout, List.append_assoc, Layout.marks_append _ (hblank.append hcomments),
    Layout.marks_append _ hcomments, Layout.marks_commentLines]
  split <;> rfl

/-- The outline of the text of a well-formed signature is told by its layout. -/
theorem WellFormed.outline_text {s : Signature} (h : s.WellFormed) :
    ∃ tokens, Token.tokenize s.text = .ok tokens ∧
      Token.outline tokens = Layout.marks false s.layout :=
  Layout.outline_text s.layout_eq_nil_or h.toWellShaped.readable_views.1 h.annotsFit

/-- A source whose annotations are well formed is formatted as a text that has the same tokens in
the same order, but that parentheses and `?` may be missing. Each comment stands behind the same
token, at the end of its line or alone on a line of its own as it did in the source. -/
theorem outline_format {source : String} {s : Signature} (hparse : Signature.parse source = .ok s)
    {tokens : List Token} (htokens : Token.tokenize source = .ok tokens)
    (hannots : ∀ t ∈ tokens, ∀ text, t.kind = .annot text → IsAnnotText text) :
    ∃ t written, Signature.format source = .ok t ∧ Token.tokenize t = .ok written ∧
      ErasesTo (fun m ↦ m.kind.IsErasable) (Token.outline tokens) (Token.outline written) := by
  obtain ⟨found, hfound, hread⟩ := parse_eq_ok_iff.1 hparse
  obtain rfl : found = tokens := Except.ok.inj (hfound.symm.trans htokens)
  have hlexed := (Token.wellPlaced_of_tokenize htokens).1
  have hlegible : ∀ t ∈ found, t.kind.Legible := fun t ht ↦ (hlexed t ht).1.legible
  have hwell : s.WellFormed := by
    refine ⟨wellShaped_of_ofTokens hread hlegible, fun text htext ↦ ?_⟩
    rw [annotations_of_ofTokens hread, mem_annotTexts] at htext
    obtain ⟨t, ht, hkind⟩ := List.mem_map.1 htext
    exact hannots t ht text hkind
  obtain ⟨hspells, hclosing⟩ := ofDocument_eq_ok_iff.1 hread
  have hviews := (Lexeme.legible_of_gather none (List.forall_mem_nil _) hlegible).1
  have herases := hspells.erasesFrom (List.forall_mem_map.2 hviews)
  obtain ⟨written, hwritten, houtline⟩ := hwell.outline_text
  refine ⟨s.text, written, ?_, hwritten, ?_⟩
  · rw [Signature.format, hparse]
    rfl
  · rw [houtline, marks_layout, Token.outline_eq_marks_views htokens, hclosing]
    exact ErasesTo.append_right herases _

/-- Parentheses and a `?` that nothing needs are lost, one of them the token in front of a
comment. -/
theorem outline_format_sample :
    ∃ tokens written,
      Token.tokenize "%a<pure> class A # b\n# c\ndef m: ((((B)|C)?)? b) -> (D) # d\nend" =
        .ok tokens ∧
      Token.tokenize "%a\x7bpure\x7d\nclass A # b\n  # c\n  def m: ((B | C)? b) -> D # d\nend\n" =
        .ok written ∧
      ErasesTo (fun m ↦ m.kind.IsErasable) (Token.outline tokens) (Token.outline written) := by
  obtain ⟨s, hparse, -⟩ := Except.map_eq_ok_iff.1 (show (Signature.parse
    "%a<pure> class A # b\n# c\ndef m: ((((B)|C)?)? b) -> (D) # d\nend").map
      (·.declarations.length) = .ok 1 by decide +kernel)
  obtain ⟨tokens, htokens, hannots⟩ := Except.map_eq_ok_iff.1 (show (Token.tokenize
    "%a<pure> class A # b\n# c\ndef m: ((((B)|C)?)? b) -> (D) # d\nend").map (fun tokens ↦
      annotTexts (tokens.map (·.kind))) = .ok ["pure"] by decide +kernel)
  have hformat : Signature.format
      "%a<pure> class A # b\n# c\ndef m: ((((B)|C)?)? b) -> (D) # d\nend" =
        .ok "%a\x7bpure\x7d\nclass A # b\n  # c\n  def m: ((B | C)? b) -> D # d\nend\n" := by
    decide +kernel
  obtain ⟨t, written, ht, hwritten, herases⟩ :=
    outline_format hparse htokens fun t ht text hkind ↦ by
      have hmem : text ∈ annotTexts (tokens.map (·.kind)) :=
        mem_annotTexts.2 (List.mem_map.2 ⟨t, ht, hkind⟩)
      rw [← hannots, List.mem_singleton] at hmem
      subst hmem
      decide
  cases Except.ok.inj (hformat.symm.trans ht)
  exact ⟨tokens, written, htokens, hwritten, herases⟩

end Signature

end ModelSignatures
