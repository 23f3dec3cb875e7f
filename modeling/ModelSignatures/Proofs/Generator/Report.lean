import Mathlib.Data.List.Forall2
import ModelSignatures.CommandLine.Response
import ModelSignatures.Proofs.ConstantPath.Underscored
import ModelSignatures.Proofs.Generator.Document
import ModelSignatures.Proofs.Signature.Idempotence

/-!
# Reports as signatures

The text that is written for many classes is a signature text again: each class's declaration below
a comment with its file (`Report.parse_text_ofDescriptors`). What joins the signatures of the
classes is what the canonical layout puts between the declarations of one text, so nothing in it has
to be formatted anew.
-/

namespace ModelSignatures

open Layout (chars)

/-! ### The text of one class -/

namespace ClassDescriptor

variable {d : ClassDescriptor}

/-- A class with a signature has a name whose segments are names of constants. -/
theorem isConstantName_of_generate {rbs : String} (h : d.generate = .ok (some rbs)) :
    d.segments.all ConstantPath.isConstantName = true := by
  obtain ⟨_, header, -, -, hheader, -⟩ := generate_eq_ok_some_iff.1 h
  rw [ClassDescriptor.header] at hheader
  split at hheader
  next hall => exact hall
  · cases hheader

/-- A generated signature is the canonical text of the declaration of the class, which has no
comments of its own. -/
theorem exists_text_of_generate {rbs : String} (h : d.generate = .ok (some rbs)) :
    ∃ declaration : Declaration, d.declaration = some declaration ∧ declaration.comments = [] ∧
      Signature.WellFormed ⟨[declaration], []⟩ ∧ rbs = Signature.text ⟨[declaration], []⟩ := by
  obtain ⟨accessors, header, haccessors, -, hheader, hformat⟩ := generate_eq_ok_some_iff.1 h
  obtain ⟨o, inner, items, -, hdeclaration, hitems, hmembers, htext⟩ :=
    exists_layout_of_assembled hheader haccessors
  rw [htext] at hformat
  -- What is put together is read as one declaration, and formatting writes that down.
  have hunstacked := (format_nested_iff o inner hitems).1 ⟨_, hformat⟩
  have hparse := parse_nested o inner hitems hunstacked hmembers
  refine ⟨_, hdeclaration, rfl, wellFormed_of_parse_nested o inner hitems hparse, ?_⟩
  rw [Signature.format, hparse, Except.ok_bind] at hformat
  exact (Except.ok.inj hformat).symm

end ClassDescriptor

/-! ### Declarations below a comment -/

/-- A declaration with the comment of its file above it. -/
def Declaration.belowFile (d : Declaration) (path : String) : Declaration :=
  { d with comments := [" " ++ path] }

namespace Declaration

theorem chars_layout_belowFile {d : Declaration} (h : d.comments = []) (path : String) :
    chars ((d.belowFile path).layout 0 [] []) =
      '\n' :: ("# " ++ path).toList ++ chars (d.layout 0 [] []) := by
  obtain ⟨kind, name, comments, annots, headerComment, members, trailingComments, endComment⟩ := d
  obtain rfl : comments = [] := h
  rw [belowFile, layout_eq, layout_eq, Layout.chars_append, Layout.chars_append]
  simp [Layout.entry, Layout.commentLine, Layout.Item.chars, TokenKind.spelling,
    Layout.chars_append]

end Declaration

namespace Signature

/-- A text with declarations, behind a line feed, is what their layout writes. -/
theorem newline_toList_text (d : Declaration) (ds : List Declaration) :
    '\n' :: (Signature.text ⟨d :: ds, []⟩).toList =
      chars (declarationsLayout (d :: ds)) ++ ['\n'] := by
  have hlayout : Signature.layout ⟨d :: ds, []⟩ = declarationsLayout (d :: ds) := by
    simp [Signature.layout]
  rw [← hlayout]
  rcases layout_eq_nil_or ⟨d :: ds, []⟩ with hnil | ⟨indent, layout, hline⟩
  · obtain ⟨kind, name, comments, annots, headerComment, members, trailingComments, endComment⟩ := d
    rw [hlayout, declarationsLayout_cons, Declaration.layout_eq] at hnil
    simp [Layout.entry] at hnil
  · rw [Signature.text, hline, Layout.toList_text]
    simp [Layout.Item.chars]

end Signature

/-! ### The text of a report -/

namespace Report

/-- What is known of a generated signature and the declaration that it is the text of. -/
structure Generated.Shows (g : Generated) (d : Declaration) : Prop where
  comments : d.comments = []
  wellFormed : Signature.WellFormed ⟨[d], []⟩
  text_eq : g.text = Signature.text ⟨[d], []⟩
  isCommentText : IsCommentText (" " ++ g.path)

theorem Generated.Shows.parse_generated {g : Generated} {d : Declaration} (h : g.Shows d) :
    Signature.parse g.text = .ok ⟨[d], []⟩ := by
  rw [h.text_eq]
  exact Signature.parse_eq_ok_iff.2 h.wellFormed.ofTokens_text

/-- The lines of a generated signature in the text of a report. -/
def Generated.lines (g : Generated) : String :=
  "# " ++ g.path ++ "\n" ++ g.text

theorem Generated.Shows.newline_toList_lines {g : Generated} {d : Declaration} (h : g.Shows d) :
    '\n' :: g.lines.toList = chars ((d.belowFile g.path).layout 0 [] []) ++ ['\n'] := by
  have htext := Signature.newline_toList_text d []
  rw [← h.text_eq, Signature.declarationsLayout_cons, List.flatMap_nil, List.append_nil] at htext
  rw [Declaration.chars_layout_belowFile h.comments, List.append_assoc, ← htext]
  simp [lines]

/-- The lines of some signatures, with empty lines between them, are those of one text. -/
theorem newline_toList_intercalate {g : Generated} {gs : List Generated} {d : Declaration}
    {ds : List Declaration} (h : g.Shows d) (hs : List.Forall₂ Generated.Shows gs ds) :
    '\n' :: ("\n".intercalate ((g :: gs).map Generated.lines)).toList =
      chars (Signature.declarationsLayout
        (List.zipWith (fun g d ↦ d.belowFile g.path) (g :: gs) (d :: ds))) ++ ['\n'] := by
  -- A signature ends with a line feed and a layout begins with one, so the line feed between two
  -- signatures makes the empty line between their declarations.
  induction hs generalizing g d with
  | nil =>
    rw [List.map_singleton, String.intercalate_singleton, h.newline_toList_lines]
    simp [Signature.declarationsLayout_cons]
  | @cons next other gs ds hnext hs ih =>
    have hlayout : ∀ d other ds, Signature.declarationsLayout (d :: other :: ds) =
        d.layout 0 [] [] ++ .blank :: Signature.declarationsLayout (other :: ds) := by
      intro d other ds
      rw [Signature.declarationsLayout_cons, Signature.declarationsLayout_cons, List.flatMap_cons,
        List.cons_append]
    calc '\n' :: ("\n".intercalate ((g :: next :: gs).map Generated.lines)).toList
        = '\n' :: g.lines.toList ++
            '\n' :: ("\n".intercalate ((next :: gs).map Generated.lines)).toList := by
          simp [String.intercalate_cons_cons]
      _ = _ := by
          rw [h.newline_toList_lines, ih hnext, List.zipWith_cons_cons, List.zipWith_cons_cons,
            List.zipWith_cons_cons, hlayout]
          simp [Layout.chars_append, Layout.Item.chars]

/-- The lines of the signatures, with empty lines between them, are the canonical text of their
declarations. -/
theorem intercalate_lines {gs : List Generated} {ds : List Declaration}
    (h : List.Forall₂ Generated.Shows gs ds) :
    "\n".intercalate (gs.map Generated.lines) =
      Signature.text ⟨List.zipWith (fun g d ↦ d.belowFile g.path) gs ds, []⟩ := by
  cases h with
  | nil => rfl
  | cons hfirst hothers =>
    have hlines := newline_toList_intercalate hfirst hothers
    rw [List.zipWith_cons_cons, ← Signature.newline_toList_text] at hlines
    exact String.toList_inj.1 (List.cons_inj_right '\n' |>.1 hlines)

/-- A declaration is still well formed below the comment with its file. -/
theorem Generated.Shows.belowFile {g : Generated} {d : Declaration} (h : g.Shows d) :
    Signature.WellFormed ⟨[d.belowFile g.path], []⟩ := by
  have hd := h.wellFormed.declarations d List.mem_cons_self
  have hannots := h.wellFormed.annotations
  have hcomment := h.isCommentText
  obtain ⟨kind, name, comments, annots, headerComment, members, trailingComments, endComment⟩ := d
  rw [Declaration.WellFormed] at hd
  refine ⟨⟨?_, by simp [AreCommentTexts]⟩, ?_⟩
  · rw [List.forall_mem_singleton, Declaration.belowFile, Declaration.WellFormed]
    exact ⟨hd.1, hd.2.1, by simpa [AreCommentTexts] using hcomment, hd.2.2.2⟩
  · simpa [Signature.annotations, Declaration.belowFile, Declaration.allAnnotations] using hannots

theorem wellFormed_zipWith {gs : List Generated} {ds : List Declaration}
    (h : List.Forall₂ Generated.Shows gs ds) :
    Signature.WellFormed ⟨List.zipWith (fun g d ↦ d.belowFile g.path) gs ds, []⟩ := by
  induction h with
  | nil => exact ⟨⟨by simp, by simp [AreCommentTexts]⟩, by simp [Signature.annotations]⟩
  | cons hfirst _ ih =>
    have hd := hfirst.belowFile
    refine ⟨⟨?_, ih.trailingComments⟩, ?_⟩
    · exact List.forall_mem_cons.2 ⟨hd.declarations _ List.mem_cons_self, ih.declarations⟩
    · intro text htext
      rw [Signature.annotations, List.zipWith_cons_cons, List.flatMap_cons,
        List.mem_append] at htext
      exact htext.elim (fun h ↦ hd.annotations text (by simpa [Signature.annotations] using h))
        (ih.annotations text)

/-- Lists can be matched if each item of the first has something that it goes with. -/
theorem exists_forall₂ {α β : Type} {R : α → β → Prop} {xs : List α} (h : ∀ x ∈ xs, ∃ y, R x y) :
    ∃ ys, List.Forall₂ R xs ys := by
  induction xs with
  | nil => exact ⟨[], .nil⟩
  | cons x xs ih =>
    obtain ⟨⟨y, hy⟩, hxs⟩ := List.forall_mem_cons.1 h
    obtain ⟨ys, hys⟩ := ih hxs
    exact ⟨y :: ys, .cons hy hys⟩

/-! ### Reports on classes -/

/-- The signatures of a report are those generated of its classes, in the order of the classes. -/
theorem generated_ofDescriptors (ds : List ClassDescriptor) :
    (ofDescriptors ds).generated = ds.filterMap fun d ↦
      match d.generate with
      | .ok (some text) =>
        some ⟨d.qualifiedName, ConstantPath.signaturePath d.qualifiedName, text⟩
      | _ => none := by
  rw [generated, ofDescriptors, List.filterMap_map]
  refine List.filterMap_congr fun d _ ↦ ?_
  rw [Function.comp_apply, ClassDescriptor.outcome]
  rcases d.generate with e | _ | text <;> rfl

theorem exists_shows_of_mem {ds : List ClassDescriptor} {g : Generated}
    (h : g ∈ (ofDescriptors ds).generated) : ∃ declaration, g.Shows declaration := by
  rw [generated_ofDescriptors] at h
  obtain ⟨d, -, hd⟩ := List.mem_filterMap.1 h
  split at hd
  next text hgenerate =>
    obtain ⟨declaration, -, hcomments, hwell, htext⟩ := d.exists_text_of_generate hgenerate
    have hpath : IsCommentText (" " ++ ConstantPath.signaturePath d.qualifiedName) :=
      ConstantPath.isCommentText_signaturePath (d.isConstantName_of_generate hgenerate)
    obtain ⟨rfl⟩ := hd
    refine ⟨declaration, hcomments, hwell, htext, ?_⟩
    dsimp only
    exact hpath
  · cases hd

theorem exists_forall₂_shows (ds : List ClassDescriptor) :
    ∃ declarations, List.Forall₂ Generated.Shows (ofDescriptors ds).generated declarations :=
  exists_forall₂ fun _ ↦ exists_shows_of_mem

/-- What is printed for some classes is the signatures generated of them, each below a line with its
file and with empty lines between them. It is canonical, and it is read as the declarations of these
signatures in their order, each with nothing but the comment of its file above it. -/
theorem parse_text_ofDescriptors (ds : List ClassDescriptor) :
    let r := ofDescriptors ds
    let printed := (r.respond false).standardOutput
    (r.generated = ds.filterMap fun d ↦
      match d.generate with
      | .ok (some text) =>
        some ⟨d.qualifiedName, ConstantPath.signaturePath d.qualifiedName, text⟩
      | _ => none) ∧
      printed = "\n".intercalate (r.generated.map fun g ↦ "# " ++ g.path ++ "\n" ++ g.text) ∧
      Signature.format printed = .ok printed ∧
      ∃ declarations,
        List.Forall₂ (fun g d ↦ Signature.parse g.text = .ok ⟨[d], []⟩ ∧ d.comments = [])
          r.generated declarations ∧
        Signature.parse printed =
          .ok ⟨List.zipWith (fun g d ↦ d.belowFile g.path) r.generated declarations, []⟩ := by
  intro r printed
  have hprinted : printed = "\n".intercalate (r.generated.map Generated.lines) := by
    show (r.respond false).standardOutput = _
    rw [respond]
    split <;> rfl
  obtain ⟨declarations, hshows⟩ := exists_forall₂_shows ds
  have hwell := wellFormed_zipWith hshows
  have htext := intercalate_lines hshows
  refine ⟨generated_ofDescriptors ds, hprinted, ?_, declarations,
    hshows.imp fun g d h ↦ ⟨h.parse_generated, h.comments⟩, ?_⟩
  · rw [hprinted, htext]
    exact Signature.format_eq_self_iff.2 ⟨_, hwell, rfl⟩
  · rw [hprinted, htext]
    exact Signature.parse_eq_ok_iff.2 hwell.ofTokens_text

end Report

end ModelSignatures
