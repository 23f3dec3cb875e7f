import ModelSignatures.Proofs.Generator.Draft
import ModelSignatures.Proofs.Generator.Header
import ModelSignatures.Proofs.Signature.RoundTrip

/-!
# Declarations put together from lines

The lines that open some declarations, each inside the one before, with a draft of members inside
the last and an `end` for each, are read as declarations exactly if no line has a stacked superclass
(`format_nested_iff`). Where none has, the layout of the lines shows the declarations, and they are
what is read (`parse_nested`); where one has, no signature is spelled by tokens with two `::` side
by side.
-/

namespace ModelSignatures

open ConstantPath (IsStacked)
open Layout (tokens word chars views entry EndsWord endsWord_nil EndsLine OpensLine Gap Shows
  shows_entry opensLine_entry opensLine_entry_append readable_entry readable_append)

/-! ### Scopes -/

theorem scopesNamed_annots (annots : List String) : ScopesNamed (annots.map .annot) := by
  induction annots with
  | nil => trivial
  | cons annot annots ih => exact ih

/-- In all that is read every `::` stands in front of a word. -/
theorem Phrase.Spells.scopesNamed {phrase : Phrase} {vs : List View} (h : phrase.Spells vs) :
    ScopesNamed (vs.map (·.kind)) := by
  induction h with
  | declaration annotated headed _ _ closed ih =>
    rw [List.map_append, List.map_append, List.map_append, List.map_singleton, annotated, closed]
    exact scopesNamed_append (scopesNamed_annots _) (scopesNamed_append
      (codeClosed_scopesNamed.header headed) (scopesNamed_append ih trivial))
  | noMember | noDeclaration => trivial
  | @lineMember _ _ _ _ _ _ _ _ code _ annotated spelled _ _ ih =>
    have hcode := codeClosed_scopesNamed.member spelled
    rw [List.map_map] at hcode
    rw [List.map_append, List.map_append, annotated]
    exact scopesNamed_append (scopesNamed_annots _) (scopesNamed_append hcode ih)
  | nestedMember _ _ ihd ih | moreDeclarations _ _ ihd ih =>
    rw [List.map_append]
    exact scopesNamed_append ihd ih

/-! ### Nested declarations -/

/-- The line that ends a declaration. -/
def endLine : Layout :=
  entry 0 0 [] [] (word "end") none

/-- The lines of declarations each inside the one before, around a body. -/
def nested : List Opening → (body : Layout) → Layout
  | [], body => body
  | o :: inner, body => entry 0 0 [] [] o.layout none ++ (nested inner body ++ endLine)

theorem chars_nested (openings : List Opening) (body : Layout) :
    chars (nested openings body) =
      openings.flatMap (fun o ↦ '\n' :: chars o.layout) ++ chars body ++
        (List.replicate openings.length "\nend".toList).flatten := by
  induction openings with
  | nil => simp [nested]
  | cons o inner ih =>
    have hend : chars endLine = "\nend".toList := by decide
    have hopening : chars (entry 0 0 [] [] o.layout none) = '\n' :: chars o.layout := by
      simp [entry, Layout.lineComment, Layout.Item.chars]
    rw [nested, Layout.chars_append, Layout.chars_append, ih, hend, hopening, List.length_cons,
      List.replicate_succ', List.flatten_append]
    simp

theorem opensLine_nested (openings : List Opening) {body : Layout} (hbody : OpensLine body) :
    OpensLine (nested openings body) := by
  cases openings with
  | nil => exact hbody
  | cons o inner => exact opensLine_entry_append _ _ _ _ _ _ _

section Nested

variable (openings : List Opening) {body : Layout}

theorem annotsFit_nested (hfit : body.AnnotsFit) : (nested openings body).AnnotsFit := by
  induction openings with
  | nil => exact hfit
  | cons o inner ih =>
    intro text hmem
    simp only [nested, Layout.tokens_append, List.mem_append] at hmem
    rcases hmem with hmem | hmem | hmem
    · have hnone := mem_annotTexts.2 hmem
      simp [entry, Layout.lineComment, o.annots] at hnone
    · exact ih text hmem
    · have hnone := mem_annotTexts.2 hmem
      cases hnone

variable {openings} in
/-- A stacked superclass puts two `::` side by side. -/
theorem infix_nested (h : ∃ o ∈ openings, IsStacked o.superclass) (body : Layout) :
    [.symbol .colonColon, .symbol .colonColon] <:+: tokens (nested openings body) := by
  induction openings with
  | nil =>
    obtain ⟨_, hmem, -⟩ := h
    cases hmem
  | cons o inner ih =>
    obtain ⟨stacked, hmem, hstacked⟩ := h
    rw [nested, Layout.tokens_append, Layout.tokens_append]
    rcases List.mem_cons.1 hmem with rfl | hmem
    · refine (stacked.stacked hstacked).trans (List.IsInfix.trans ?_ (List.infix_append' [] _ _))
      simp [entry, Layout.lineComment]
    · exact (ih ⟨stacked, hmem, hstacked⟩).trans (List.infix_append' _ _ _)

theorem readable_nested (hbody : OpensLine body) {after : List Char} (hafter : EndsLine after)
    (hreadable : ∀ after, EndsLine after → body.Readable after) :
    (nested openings body).Readable after := by
  induction openings generalizing after with
  | nil => exact hreadable after hafter
  | cons o inner ih =>
    have hend : EndsLine (chars endLine ++ after) := (opensLine_entry _ _ _ _ _ _).endsLine hafter
    rw [nested, readable_append, readable_append]
    refine ⟨readable_entry (by simp) (fun after hword ↦ o.code hword) (by simp) _ _ _ ?_,
      ih hend, ?_⟩
    · rw [Layout.chars_append, List.append_assoc]
      exact (opensLine_nested inner hbody).endsLine hend
    · exact readable_entry (by simp)
        (fun after hword ↦ Layout.isCodeBefore_word (by decide) hword) (by simp) _ _ _ hafter

end Nested

/-- The line of a declaration and what is inside it show the declaration. -/
theorem shows_opening {o : Opening} (hnot : ¬IsStacked o.superclass) {inner : Layout}
    (hopens : OpensLine inner) {ms : List Member}
    (hinner : ∀ {g : Gap}, g.comments = [] → ∃ vs g', Shows g inner vs g' ∧ g'.comments = [] ∧
      Phrase.Spells (.members true ms) vs) {g : Gap} (hg : g.comments = []) :
    ∃ vs g' spaced, Shows g (entry 0 0 [] [] o.layout none ++ (inner ++ endLine)) vs g' ∧
      g'.comments = [] ∧ Phrase.Spells (.declaration [] [] spaced (o.declaration ms)) vs := by
  obtain ⟨vs, g', _, rfl, hshows, hend, hspells⟩ := Layout.shows_declaration hg 0 0 [] []
    (o.code endsWord_nil).isCode o.head (o.spelled hnot) none hopens (P := (· = ms))
    (fun hend ↦ (hinner hend.comments).imp fun _ ⟨g', h⟩ ↦ ⟨g', ms, rfl, h⟩) [] none
  exact ⟨vs, g', _, hshows, hend.comments, hspells⟩

section Shown

variable {openings : List Opening} {items : List (Option DraftMember)}
  (hitems : ∀ m, some m ∈ items → m.Fits) {ms : List Member}
  (hmembers : ∀ spaced, draftMembers true spaced items = ms)

include hitems hmembers in
/-- Declarations inside each other show a single member, or what the draft shows. -/
theorem shows_nested (hunstacked : ∀ o ∈ openings, ¬IsStacked o.superclass) {g : Gap}
    (hg : g.comments = []) :
    ∃ vs g', Shows g (nested openings (draftLayout items)) vs g' ∧ g'.comments = [] ∧
      Phrase.Spells (.members true (Opening.body openings ms)) vs := by
  induction openings generalizing g with
  | nil =>
    obtain ⟨vs, g', hshows, hcomments, hspells⟩ := shows_draft hitems true hg (by simp)
    rw [hmembers] at hspells
    exact ⟨vs, g', hshows, hcomments, hspells⟩
  | cons o inner ih =>
    rw [List.forall_mem_cons] at hunstacked
    obtain ⟨vs, g', spaced, hshows, hcomments, hspells⟩ :=
      shows_opening hunstacked.1 (opensLine_nested inner (opensLine_draftLayout items))
        (ih hunstacked.2) hg
    refine ⟨vs, g', hshows, hcomments, ?_⟩
    rw [← List.append_nil vs]
    exact .nestedMember hspells (.noMember false)

end Shown

section Document

variable (o : Opening) (inner : List Opening) {items : List (Option DraftMember)}
  (hitems : ∀ m, some m ∈ items → m.Fits)
include hitems

/-- Lines that open declarations and members inside them are tokens, and the document is the one
that the lines show. -/
theorem exists_document_nested :
    ∃ found, Token.tokenize (Layout.text (nested (o :: inner) (draftLayout items))) = .ok found ∧
      ((Document.ofTokens found).lexemes.map Lexeme.view,
        (Document.ofTokens found).closing.map (·.text)) =
          views .start (nested (o :: inner) (draftLayout items)) := by
  have hreadable : (nested (o :: inner) (draftLayout items)).Readable ['\n'] :=
    readable_nested _ (opensLine_draftLayout items) rfl fun after hafter ↦
      readable_draftLayout hitems hafter
  exact Layout.document_text (Or.inr ⟨_, _, rfl⟩) hreadable
    (annotsFit_nested (o :: inner) (annotsFit_draftLayout hitems))

/-- Without stacked superclasses the declarations are read, each inside the one before. -/
theorem parse_nested (hunstacked : ∀ opening ∈ o :: inner, ¬IsStacked opening.superclass)
    {ms : List Member} (hmembers : ∀ spaced, draftMembers true spaced items = ms) :
    Signature.parse (Layout.text (nested (o :: inner) (draftLayout items))) =
      .ok ⟨[o.declaration (Opening.body inner ms)], []⟩ := by
  obtain ⟨found, hfound, hdocument⟩ := exists_document_nested o inner hitems
  rw [List.forall_mem_cons] at hunstacked
  obtain ⟨vs, g', spaced, hshows, hcomments, hspells⟩ :=
    shows_opening hunstacked.1 (opensLine_nested inner (opensLine_draftLayout items))
      (shows_nested hitems hmembers hunstacked.2) (g := .start) rfl
  have hviews := hshows [] rfl
  rw [List.append_nil, views, hcomments, List.append_nil] at hviews
  have hdeclarations := Phrase.Spells.moreDeclarations hspells .noDeclaration
  rw [List.append_nil] at hdeclarations
  rw [nested, hviews, Prod.mk.injEq] at hdocument
  refine Signature.parse_eq_ok_iff.2 ⟨found, hfound, Signature.ofDocument_eq_ok_iff.2 ⟨?_, ?_⟩⟩
  · rw [hdocument.1]
    exact hdeclarations
  · exact hdocument.2.symm

/-- What is read is spelled by what the lines show. -/
theorem spells_of_parse_nested {s : Signature}
    (h : Signature.parse (Layout.text (nested (o :: inner) (draftLayout items))) = .ok s) :
    Phrase.Spells (.declarations s.declarations)
      (views .start (nested (o :: inner) (draftLayout items))).1 := by
  obtain ⟨found, hfound, hdocument⟩ := exists_document_nested o inner hitems
  obtain ⟨found', hfound', hread⟩ := Signature.parse_eq_ok_iff.1 h
  cases Except.ok.inj (hfound.symm.trans hfound')
  rw [← hdocument]
  exact (Signature.ofDocument_eq_ok_iff.1 hread).1

/-- What is read is well formed, annotations included. -/
theorem wellFormed_of_parse_nested {s : Signature}
    (h : Signature.parse (Layout.text (nested (o :: inner) (draftLayout items))) = .ok s) :
    s.WellFormed := by
  refine ⟨Signature.wellShaped_of_parse h, fun text hmem ↦ ?_⟩
  have hannots := (spells_of_parse_nested o inner hitems h).annotations_eq
  rw [Layout.map_kind_views, annotTexts_filter] at hannots
  refine annotsFit_nested (o :: inner) (annotsFit_draftLayout hitems) text (mem_annotTexts.1 ?_)
  rw [← hannots]
  exact hmem

/-- Lines that open declarations and members inside them are a signature exactly if no superclass is
stacked. -/
theorem format_nested_iff :
    (∃ t, Signature.format (Layout.text (nested (o :: inner) (draftLayout items))) = .ok t) ↔
      ∀ opening ∈ o :: inner, ¬IsStacked opening.superclass := by
  constructor
  · rintro ⟨t, ht⟩ opening hmem hstacked
    rw [Signature.format, Except.bind_eq_ok_iff] at ht
    obtain ⟨s, hparse, -⟩ := ht
    have hscopes := (spells_of_parse_nested o inner hitems hparse).scopesNamed
    have hstack := infix_nested ⟨opening, hmem, hstacked⟩ (draftLayout items)
    have hcode := hstack.filter fun kind ↦ !kind.isComment
    rw [Layout.map_kind_views] at hscopes
    exact hscopes.not_infix hcode
  · intro hunstacked
    have hparse := parse_nested o inner hitems hunstacked fun spaced ↦
      draftMembers_first spaced items
    exact ⟨_, Except.bind_eq_ok_iff.2 ⟨_, hparse, rfl⟩⟩

end Document

end ModelSignatures
