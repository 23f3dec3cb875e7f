import ModelSignatures.Proofs.Signature.Annotations
import ModelSignatures.Proofs.Signature.Lines

/-!
# Writing and reading back

The text of a well-formed signature is read as that signature, all comments and empty lines
included (`parse_text`). The views of the text are computed from its layout, and they spell the
declarations, so no token of the text is looked at by its place.
-/

namespace ModelSignatures

open Layout (tokens views Gap Shows shows_nil AnnotsFit OpensLine commentLine)

/-! ### Declarations of a text -/

namespace Declaration

/-- A declaration without the comments and the annotations in front of it. -/
def bare (d : Declaration) : Declaration :=
  { d with comments := [], annotations := [] }

theorem WellFormed.bare {d : Declaration} (h : d.WellFormed) :
    d.bare.WellFormed ∧ AreCommentTexts d.comments := by
  obtain ⟨kind, name, comments, annots, headerComment, members, trailingComments, endComment⟩ := d
  rw [Declaration.WellFormed] at h
  rw [Declaration.bare, Declaration.WellFormed]
  exact ⟨⟨h.1, h.2.1, by simp [AreCommentTexts], h.2.2.2⟩, h.2.2.1⟩

/-- A declaration of a text can be put in front of others. -/
theorem WellFormed.shows_own {d : Declaration} (h : d.WellFormed) {g : Gap}
    (hg : g.comments = []) :
    ∃ vs g', Shows g (d.layout 0 [] []) vs g' ∧ g'.AtLineEnd ∧
      ∀ ds more, Phrase.Spells (.declarations ds) more →
        Phrase.Spells (.declarations (d :: ds)) (vs ++ more) := by
  obtain ⟨vs, g', hshows, hend, hspells⟩ :=
    d.bare.isShown h.bare.1 rfl rfl 0 d.comments d.annotations g hg
  refine ⟨vs, g', ?_, hend, fun ds more hmore ↦ ?_⟩
  · rw [d.layout_own]
    exact hshows
  · cases d
    exact .moreDeclarations hspells hmore

end Declaration

namespace Signature

theorem shows_moreDeclarations {ds : List Declaration} (h : ∀ d ∈ ds, d.WellFormed) {g : Gap}
    (hg : g.AtLineEnd) :
    ∃ vs g', Shows g (ds.flatMap fun d ↦ .blank :: d.layout 0 [] []) vs g' ∧ g'.AtLineEnd ∧
      Phrase.Spells (.declarations ds) vs := by
  induction ds generalizing g with
  | nil => exact ⟨[], g, shows_nil g, hg, .noDeclaration⟩
  | cons d ds ih =>
    obtain ⟨vs, behind, hshows, hbehind, hspells⟩ :=
      (h d List.mem_cons_self).shows_own (g := g.line) hg.comments
    obtain ⟨more, g', hmore, hend, hspelled⟩ :=
      ih (fun d hd ↦ h d (List.mem_cons_of_mem _ hd)) hbehind
    refine ⟨vs ++ more, g', ?_, hend, hspells ds more hspelled⟩
    exact Shows.append (fun rest hrest ↦ hshows rest hrest) hmore fun rest hrest ↦
      (opensLine_moreDeclarations ds).trailing_append hrest

/-! ### Texts -/

/-- The comments at the end of a text, behind an empty line or not. -/
theorem views_closing {g : Gap} (hg : g.comments = []) {blank : Layout}
    (hblank : blank = [] ∨ blank = [.blank]) (texts : List String) :
    views g (blank ++ texts.flatMap (commentLine 0)) = ([], texts) := by
  have hlines : ∀ {g : Gap}, g.comments = [] →
      views g (texts.flatMap (commentLine 0)) = ([], texts) := by
    intro g hg
    obtain ⟨g', hviews, -, hcomments, -⟩ := Layout.shows_commentLines 0 texts g
    have hnil := hviews []
    rw [List.append_nil] at hnil
    rw [hnil, views, hcomments, hg, List.nil_append]
  rcases hblank with rfl | rfl
  · exact hlines hg
  · exact hlines (g := g.line) hg

/-- The text of a well-formed signature can be read back, and its views spell the signature. -/
theorem WellShaped.readable_views {s : Signature} (h : s.WellShaped) :
    s.layout.Readable ['\n'] ∧ ∃ vs, views .start s.layout = (vs, s.trailingComments) ∧
      Phrase.Spells (.declarations s.declarations) vs := by
  refine ⟨h.legible.readable, ?_⟩
  obtain ⟨blank, hblank, hclosing⟩ : ∃ blank : Layout, (blank = [] ∨ blank = [.blank]) ∧
      s.closingLayout = blank ++ s.trailingComments.flatMap (commentLine 0) := by
    refine ⟨_, ?_, rfl⟩
    split
    · exact Or.inl rfl
    · exact Or.inr rfl
  rw [layout_eq, hclosing]
  have hdeclarations := h.declarations
  rcases hds : s.declarations with - | ⟨d, ds⟩
  · exact ⟨[], views_closing rfl hblank s.trailingComments, .noDeclaration⟩
  · rw [hds, List.forall_mem_cons] at hdeclarations
    obtain ⟨vs, behind, hshows, hbehind, hspells⟩ := hdeclarations.1.shows_own (g := .start) rfl
    obtain ⟨more, g', hmore, hend, hspelled⟩ := shows_moreDeclarations hdeclarations.2 hbehind
    refine ⟨vs ++ more, ?_, hspells ds more hspelled⟩
    have hall := hshows.append hmore fun rest hrest ↦
      (opensLine_moreDeclarations ds).trailing_append hrest
    have hrest :=
      s.opensLine_closingLayout.trailing_append (show Layout.trailing [] = none from rfl)
    rw [List.append_nil, hclosing] at hrest
    rw [declarationsLayout_cons, hall _ hrest, views_closing hend.comments hblank, List.append_nil]

theorem WellShaped.annotTexts_layout {s : Signature} (h : s.WellShaped) :
    annotTexts (tokens s.layout) = s.annotations := by
  obtain ⟨-, vs, hviews, hspells⟩ := h.readable_views
  rw [← annotTexts_filter, ← Layout.map_kind_views Gap.start, hviews]
  exact hspells.annotations_eq.symm

theorem WellFormed.annotsFit {s : Signature} (h : s.WellFormed) : s.layout.AnnotsFit := by
  intro text hmem
  refine h.annotations text ?_
  rw [← h.toWellShaped.annotTexts_layout]
  exact mem_annotTexts.2 hmem

/-- The tokens of the text of a well-formed signature spell the signature. -/
theorem WellFormed.ofTokens_text {s : Signature} (h : s.WellFormed) :
    ∃ tokens, Token.tokenize s.text = .ok tokens ∧ Signature.ofTokens tokens = .ok s := by
  obtain ⟨hreadable, vs, hviews, hspells⟩ := h.toWellShaped.readable_views
  obtain ⟨tokens, htokens, hdocument⟩ :=
    Layout.document_text s.layout_eq_nil_or hreadable h.annotsFit
  rw [hviews, Prod.mk.injEq] at hdocument
  refine ⟨tokens, htokens, Signature.ofDocument_eq_ok_iff.2 ⟨?_, hdocument.2.symm⟩⟩
  rw [hdocument.1]
  exact hspells

theorem parse_eq_ok_iff {source : String} {s : Signature} :
    Signature.parse source = .ok s ↔
      ∃ tokens, Token.tokenize source = .ok tokens ∧ Signature.ofTokens tokens = .ok s :=
  Except.bind_eq_ok_iff

/-- Writing a well-formed signature and reading the text gives the signature back, with all its
comments, annotations and empty lines. -/
theorem parse_text {s : Signature} (h : s.WellFormed) : Signature.parse s.text = .ok s :=
  parse_eq_ok_iff.2 h.ofTokens_text

/-- A signature with comments in all places, an empty line, an annotation that braces would clash
with, a declaration inside another, a suffix and all that types have parentheses for. -/
def sample : Signature where
  declarations :=
    [{ kind := .ofClass (some ⟨⟨true, ["Base"]⟩, [.optional (.classRef ⟨false, ["A"]⟩ [])]⟩)
       name := ⟨false, ["Outer", "Inner"]⟩
       comments := [" above"]
       annotations := ["a\x7d"]
       headerComment := some " header"
       members :=
         [⟨.method ⟨"name=", true,
            [⟨[⟨.optionalKeyword "k", .union [.base .nil, .aliasRef ⟨true, ["A", "b"]⟩], some "v"⟩],
              .union [.base .bool, .base .void]⟩, ⟨[], .base .untyped⟩]⟩,
            [], [], some " line", false⟩,
          ⟨.nested
            { kind := .ofModule, name := ⟨true, ["M"]⟩, comments := [], annotations := []
              headerComment := none, members := [], trailingComments := [" inside"]
              endComment := some "" },
            ["", " twice"], ["pure"], none, true⟩]
       trailingComments := [" last"]
       endComment := none }]
  trailingComments := [" closing"]

theorem sample_wellFormed : sample.WellFormed := by
  have hclass : TypeExpr.WellFormed (.classRef ⟨false, ["A"]⟩ []) :=
    .classRef (by decide +kernel) (by decide +kernel) (by decide +kernel) (by simp)
  have halias : TypeExpr.WellFormed (.aliasRef ⟨true, ["A", "b"]⟩) :=
    .aliasRef (by decide +kernel) (by decide +kernel) (by decide +kernel)
  have hsuper : ClassType.WellFormed
      ⟨⟨true, ["Base"]⟩, [.optional (.classRef ⟨false, ["A"]⟩ [])]⟩ :=
    ⟨by decide +kernel, by simp [TypeExpr.WellFormed.optional hclass]⟩
  have hparam : Param.WellFormed
      ⟨.optionalKeyword "k", .union [.base .nil, .aliasRef ⟨true, ["A", "b"]⟩], some "v"⟩ :=
    ⟨show IsWord "k" by decide +kernel,
      .union (by simp) (by simp [halias, TypeExpr.WellFormed.base]), by decide +kernel⟩
  have hname : IsMethodName "name=" :=
    Or.inr ⟨"name", '=', by decide +kernel, by decide, by decide +kernel⟩
  refine ⟨⟨?_, by decide +kernel⟩, by decide +kernel⟩
  simp only [sample, List.forall_mem_singleton, Declaration.WellFormed, Member.AllWellFormed,
    Member.WellFormed, MemberContent.WellFormed]
  refine ⟨?_, by decide +kernel, by decide +kernel, by decide +kernel, ⟨⟨⟨hname, by simp, ?_⟩,
    by decide +kernel, by decide +kernel, by simp [MemberContent.isDeclaration]⟩, ?_, trivial⟩,
    by simp, by decide +kernel, by simp⟩
  · rintro c ⟨⟩
    exact hsuper
  · refine List.forall_mem_cons.2 ⟨⟨by simpa using hparam, .union (by simp) ?_⟩, ?_⟩
    · simp [TypeExpr.WellFormed.base]
    · simpa using Overload.WellFormed.mk (by simp) (.base .untyped)
  · exact ⟨⟨trivial, trivial, trivial, by decide +kernel, by decide +kernel, by simp, trivial,
      by simp, by decide +kernel, by decide +kernel⟩, by decide +kernel, by simp, fun _ ↦ trivial⟩

theorem parse_text_sample : sample.WellFormed ∧ Signature.parse sample.text = .ok sample :=
  ⟨sample_wellFormed, parse_text sample_wellFormed⟩

end Signature

end ModelSignatures
