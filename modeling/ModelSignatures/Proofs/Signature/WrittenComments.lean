import ModelSignatures.Proofs.Signature.Annotations
import ModelSignatures.Proofs.Signature.Legible

/-!
# The comments that are written

The comments of a signature are listed with their places (`Signature.comments`). The comments of its
text are those of all places but one: what a member that is a declaration has for the comment of its
line is not written (`commentTexts_of_tokenize_text`). Nothing is asked of the signature but that
its tokens can be told apart.
-/

namespace ModelSignatures

open Layout (tokens word entry)

/-! ### Comments of trees -/

/-- Where a tree keeps a comment. -/
inductive CommentPlace
  /-- On a line above a declaration or a member. -/
  | above
  /-- At the end of the header of a declaration. -/
  | header
  /-- At the end of the last line of a member that is no declaration. -/
  | line
  /-- The same place of a member that is a declaration. -/
  | declarationLine
  /-- On a line above an `end`. -/
  | beforeEnd
  /-- On the line of an `end`. -/
  | ending
  /-- Below the last declaration of a text. -/
  | closing
deriving DecidableEq, Repr

/-- Some comments of one place. -/
def CommentPlace.keeping (place : CommentPlace) (texts : List String) :
    List (CommentPlace × String) :=
  texts.map fun text ↦ (place, text)

mutual

/-- The comments of a member, those of a declaration that it is included. -/
def Member.allComments : Member → List (CommentPlace × String)
  | ⟨.nested d, comments, _, lineComment, _⟩ =>
    CommentPlace.above.keeping comments ++ d.allComments ++
      CommentPlace.declarationLine.keeping lineComment.toList
  | ⟨_, comments, _, lineComment, _⟩ =>
    CommentPlace.above.keeping comments ++ CommentPlace.line.keeping lineComment.toList

/-- The comments of a declaration and of all in its body. -/
def Declaration.allComments : Declaration → List (CommentPlace × String)
  | ⟨_, _, comments, _, headerComment, members, trailingComments, endComment⟩ =>
    CommentPlace.above.keeping comments ++ CommentPlace.header.keeping headerComment.toList ++
      Member.listComments members ++ CommentPlace.beforeEnd.keeping trailingComments ++
      CommentPlace.ending.keeping endComment.toList

/-- The comments of some members. -/
def Member.listComments : List Member → List (CommentPlace × String)
  | [] => []
  | m :: ms => m.allComments ++ Member.listComments ms

end

/-- All comments of a signature with their places. -/
def Signature.comments (s : Signature) : List (CommentPlace × String) :=
  s.declarations.flatMap (·.allComments) ++ CommentPlace.closing.keeping s.trailingComments

/-- The comments that are written: those that are kept in another place than at the end of a member
that is a declaration. -/
def writtenComments (comments : List (CommentPlace × String)) : List String :=
  (comments.filter fun c ↦ c.1 ≠ .declarationLine).map (·.2)

/-- The comments that are written are those of the first part and those of the second. -/
theorem writtenComments_append (comments more : List (CommentPlace × String)) :
    writtenComments (comments ++ more) = writtenComments comments ++ writtenComments more := by
  rw [writtenComments, List.filter_append, List.map_append]
  rfl

/-- All comments of any other place are written. -/
theorem writtenComments_keeping {place : CommentPlace} (h : place ≠ .declarationLine)
    (texts : List String) : writtenComments (place.keeping texts) = texts := by
  rw [writtenComments, CommentPlace.keeping, List.filter_eq_self.2, List.map_map]
  · exact List.map_id texts
  · intro c hc
    obtain ⟨text, -, rfl⟩ := List.mem_map.1 hc
    exact decide_eq_true h

/-- The comments at the end of a nested declaration are not written. -/
theorem writtenComments_keeping_declarationLine (texts : List String) :
    writtenComments (CommentPlace.declarationLine.keeping texts) = [] := by
  rw [writtenComments, CommentPlace.keeping, List.filter_eq_nil_iff.2]
  · rfl
  · intro c hc
    obtain ⟨text, -, rfl⟩ := List.mem_map.1 hc
    simp

/-- The comments that are written are all comments, in some order, just if none is kept where it is
not written. -/
theorem perm_writtenComments_iff {comments : List (CommentPlace × String)} :
    (writtenComments comments).Perm (comments.map (·.2)) ↔
      ∀ c ∈ comments, c.1 ≠ .declarationLine := by
  constructor
  · intro h
    have hlength := h.length_eq
    rw [writtenComments, List.length_map, List.length_map, List.length_filter_eq_length_iff]
      at hlength
    exact fun c hc ↦ of_decide_eq_true (hlength c hc)
  · intro h
    rw [writtenComments, List.filter_eq_self.2 fun c hc ↦ decide_eq_true (h c hc)]

/-! ### Comments of tokens -/

/-- The texts of the comments among some tokens. -/
def commentTexts (ks : List TokenKind) : List String :=
  ks.filterMap fun kind ↦
    match kind with
    | .comment text => some text
    | _ => none

/-- The comments among tokens are those of the first part and those of the second. -/
@[simp] theorem commentTexts_append (ks more : List TokenKind) :
    commentTexts (ks ++ more) = commentTexts ks ++ commentTexts more :=
  List.filterMap_append

@[simp] theorem commentTexts_map_comment (texts : List String) :
    commentTexts (texts.map .comment) = texts := by
  induction texts with
  | nil => rfl
  | cons text texts ih => exact congrArg (text :: ·) ih

@[simp] theorem commentTexts_map_annot (texts : List String) :
    commentTexts (texts.map .annot) = [] := by
  induction texts with
  | nil => rfl
  | cons text texts ih => exact ih

@[simp] theorem annotTexts_map_comment (texts : List String) :
    annotTexts (texts.map .comment) = [] := by
  induction texts with
  | nil => rfl
  | cons text texts ih => exact ih

/-- There are neither annotations nor comments in code. -/
theorem texts_of_inCode {ks : List TokenKind} (h : ∀ kind ∈ ks, kind.InCode) :
    annotTexts ks = [] ∧ commentTexts ks = [] := by
  induction ks with
  | nil => exact ⟨rfl, rfl⟩
  | cons kind ks ih =>
    rw [List.forall_mem_cons] at h
    cases kind with
    | word text | symbol s => exact ih h.2
    | annot text | comment text => exact h.1.elim

/-- Whether the annotations and the comments of a layout are the given ones. -/
structure Layout.Remarks (layout : Layout) (annots comments : List String) : Prop where
  annots : annotTexts (tokens layout) = annots
  comments : commentTexts (tokens layout) = comments

namespace Layout

theorem remarks_nil : Remarks [] [] [] := ⟨rfl, rfl⟩

theorem remarks_blank : Remarks [.blank] [] [] := ⟨rfl, rfl⟩

/-- Layouts one behind the other have the annotations and the comments of both. -/
theorem Remarks.append {first second : Layout} {annots more comments others : List String}
    (hfirst : Remarks first annots comments) (hsecond : Remarks second more others) :
    Remarks (first ++ second) (annots ++ more) (comments ++ others) where
  annots := by rw [tokens_append, annotTexts_append, hfirst.annots, hsecond.annots]
  comments := by rw [tokens_append, commentTexts_append, hfirst.comments, hsecond.comments]

/-- The lines of comments have these comments and no annotations. -/
theorem remarks_commentLines (indent : Nat) (texts : List String) :
    Remarks (texts.flatMap (commentLine indent)) [] texts := by
  have htokens : tokens (texts.flatMap (commentLine indent)) = texts.map .comment := by
    rw [tokens_flatMap, ← List.flatMap_pure_eq_map]
    rfl
  exact ⟨by rw [htokens, annotTexts_map_comment], by rw [htokens, commentTexts_map_comment]⟩

/-- The lines of annotations have these annotations and no comments. -/
theorem remarks_annotLines (indent : Nat) (texts : List String) :
    Remarks (texts.flatMap (annotLine indent)) texts [] := by
  have htokens : tokens (texts.flatMap (annotLine indent)) = texts.map .annot := by
    rw [tokens_flatMap, ← List.flatMap_pure_eq_map]
    rfl
  exact ⟨by rw [htokens, annotTexts_map_annot], by rw [htokens, commentTexts_map_annot]⟩

/-- A line of code has neither annotations nor comments. -/
theorem remarks_code {code : Layout} (h : ∀ kind ∈ tokens code, kind.InCode)
    (indent : Nat) : Remarks (.line indent :: code) [] [] :=
  ⟨(texts_of_inCode h).1, (texts_of_inCode h).2⟩

theorem remarks_lineComment (comment : Option String) :
    Remarks (lineComment comment) [] comment.toList := by
  cases comment <;> exact ⟨rfl, rfl⟩

/-- The lines of a member have its annotations, its comments above and the one at its end. -/
theorem remarks_entry (outer indent : Nat) (comments annots : List String) {code : Layout}
    (h : ∀ kind ∈ tokens code, kind.InCode) (comment : Option String) :
    Remarks (entry outer indent comments annots code comment) annots
      (comments ++ comment.toList) := by
  have hall := (remarks_commentLines outer comments).append
    ((remarks_annotLines indent annots).append
      ((remarks_code h indent).append (remarks_lineComment comment)))
  rw [entry]
  simpa using hall

end Layout

open Layout (Remarks remarks_nil remarks_blank remarks_entry)

/-! ### Comments of layouts -/

section Members

variable {members : List Member} (hmembers : ∀ m ∈ members, m.Legible)
  (hnested : ∀ m ∈ members, ∀ e, m.content = .nested e → e.Legible →
    ∀ (depth : Nat) (comments annots : List String), Remarks (e.layout depth comments annots)
      (annots ++ e.allAnnotations) (comments ++ writtenComments e.allComments))
include hmembers hnested

/-- The members of a body have the annotations and the written comments of the body. -/
theorem Member.remarks_layouts (depth : Nat) (first : Bool) :
    Remarks (Member.layouts members depth first) (Member.listAnnotations members)
      (writtenComments (Member.listComments members)) := by
  induction members generalizing first with
  | nil =>
    rw [Member.layouts, Member.listAnnotations, Member.listComments]
    exact remarks_nil
  | cons m ms ih =>
    have hblank : Remarks (if m.blankBefore && !first then [.blank] else []) [] [] := by
      split
      · exact remarks_blank
      · exact remarks_nil
    have hmember : Remarks (m.layout depth) m.allAnnotations (writtenComments m.allComments) := by
      have hm := hmembers m List.mem_cons_self
      replace hnested := hnested m List.mem_cons_self
      obtain ⟨content, comments, annots, comment, blankBefore⟩ := m
      rw [Member.Legible] at hm
      cases hdeclaration : content.isDeclaration with
      | false =>
        have hcomments : Member.allComments ⟨content, comments, annots, comment, blankBefore⟩ =
            CommentPlace.above.keeping comments ++ CommentPlace.line.keeping comment.toList := by
          cases content with
          | nested d => cases hdeclaration
          | _ => rw [Member.allComments]; simp
        rw [Member.layout_eq hm.1 hdeclaration, Member.allAnnotations_of_line hdeclaration,
          hcomments, writtenComments_append, writtenComments_keeping (by decide),
          writtenComments_keeping (by decide)]
        exact remarks_entry _ _ comments annots (hm.1.inCode _) comment
      | true =>
        cases content with
        | nested d =>
          -- what the member has for its line is dropped here, and only here
          rw [MemberContent.Legible] at hm
          rw [Member.layout, Member.allAnnotations, Member.allComments, writtenComments_append,
            writtenComments_append, writtenComments_keeping (by decide),
            writtenComments_keeping_declarationLine, List.append_nil]
          exact hnested d rfl hm.1 depth comments annots
        | _ => cases hdeclaration
    have hrest := ih (fun m hm ↦ hmembers m (List.mem_cons_of_mem _ hm))
      (fun m hm ↦ hnested m (List.mem_cons_of_mem _ hm)) false
    rw [Member.layouts, Member.listAnnotations, Member.listComments, writtenComments_append]
    exact (hblank.append hmember).append hrest

end Members

/-- A declaration is written with the annotations and the comments of its place, its own annotations
and those of its comments that are written. -/
theorem Declaration.Legible.remarks {d : Declaration} :
    d.Legible → ∀ (depth : Nat) (comments annots : List String),
      Remarks (d.layout depth comments annots) (annots ++ d.allAnnotations)
        (comments ++ writtenComments d.allComments) := by
  induction d using Declaration.induction with
  | step d ih =>
    intro h depth comments annots
    obtain ⟨kind, name, own, ownAnnots, headerComment, members, trailingComments, endComment⟩ := d
    rw [Declaration.Legible, Member.allLegible_iff] at h
    obtain ⟨hkind, hname, -, -, hmembers, -, -⟩ := h
    have hend : ∀ k ∈ tokens (word "end"), k.InCode :=
      (Layout.inline_word (by decide +kernel)).tokens
    have hall := (remarks_entry (2 * depth) (2 * depth) (comments ++ own) (annots ++ ownAnnots)
      (hkind.inline hname).tokens headerComment).append
      ((Member.remarks_layouts hmembers ih (depth + 1) true).append
        (remarks_entry (2 * depth + 2) (2 * depth) trailingComments [] hend endComment))
    rw [Declaration.layout_eq, Declaration.allAnnotations, Declaration.allComments]
    simpa [writtenComments_append, writtenComments_keeping] using hall

/-! ### Comments of texts -/

namespace Signature

/-- The text of a tree has the annotations and the written comments of the tree. -/
theorem Legible.remarks {s : Signature} (h : s.Legible) :
    Remarks s.layout s.annotations (writtenComments s.comments) := by
  have hmore : ∀ {ds : List Declaration}, (∀ d ∈ ds, d.Legible) →
      Remarks (ds.flatMap fun d ↦ .blank :: d.layout 0 [] []) (ds.flatMap (·.allAnnotations))
        (writtenComments (ds.flatMap (·.allComments))) := by
    intro ds hds
    induction ds with
    | nil => exact remarks_nil
    | cons d ds ih =>
      rw [List.forall_mem_cons] at hds
      have hd := remarks_blank.append (hds.1.remarks 0 [] [])
      simpa [writtenComments_append] using hd.append (ih hds.2)
  have hdeclarations : Remarks (declarationsLayout s.declarations) s.annotations
      (writtenComments (s.declarations.flatMap (·.allComments))) := by
    have hall := h.declarations
    rw [annotations]
    rcases hds : s.declarations with - | ⟨d, ds⟩
    · exact remarks_nil
    · rw [hds, List.forall_mem_cons] at hall
      rw [declarationsLayout_cons]
      simpa [writtenComments_append] using (hall.1.remarks 0 [] []).append (hmore hall.2)
  have hclosing : Remarks s.closingLayout [] s.trailingComments := by
    have hblank : Remarks (if s.declarations.isEmpty || s.trailingComments.isEmpty then []
        else [.blank]) [] [] := by
      split
      · exact remarks_nil
      · exact remarks_blank
    exact hblank.append (Layout.remarks_commentLines 0 s.trailingComments)
  have hall := hdeclarations.append hclosing
  rw [layout_eq, comments, writtenComments_append, writtenComments_keeping (by decide)]
  rwa [List.append_nil] at hall

/-- The text of a legible signature is split into tokens, and its comments are those of the
signature that are written, in their order. They are all its comments just if no member that is a
declaration has a comment of its line. -/
theorem commentTexts_of_tokenize_text {s : Signature} (h : s.Legible)
    (hannots : ∀ text ∈ s.annotations, IsAnnotText text) :
    ∃ ts, Token.tokenize s.text = .ok ts ∧
      commentTexts (ts.map (·.kind)) = writtenComments s.comments ∧
      ((commentTexts (ts.map (·.kind))).Perm (s.comments.map (·.2)) ↔
        ∀ c ∈ s.comments, c.1 ≠ .declarationLine) := by
  obtain ⟨ts, htokens, hkinds⟩ : ∃ ts, Token.tokenize s.text = .ok ts ∧
      ts.map (·.kind) = tokens s.layout := by
    have hreadable := h.readable
    have hfit : s.layout.AnnotsFit := by
      intro text htext
      rw [← mem_annotTexts, h.remarks.annots] at htext
      exact hannots text htext
    rw [text]
    rcases s.layout_eq_nil_or with heq | ⟨indent, layout, heq⟩
    · rw [heq]
      exact ⟨[], Layout.tokenize_text_nil, rfl⟩
    · rw [heq] at hreadable hfit ⊢
      rw [Layout.readable_line] at hreadable
      exact ⟨_, Layout.tokenize_text indent hreadable hfit.of_cons,
        Layout.map_kind_tokensAt _ layout⟩
  have hcomments : commentTexts (ts.map (·.kind)) = writtenComments s.comments := by
    rw [hkinds, h.remarks.comments]
  exact ⟨ts, htokens, hcomments, hcomments ▸ perm_writtenComments_iff⟩

/-- A signature with comments in all places, which reading would not answer with. -/
def remarked : Signature where
  declarations :=
    [{ kind := .ofModule, name := ⟨true, []⟩, comments := [" above"], annotations := ["pure"]
       headerComment := some " header"
       members :=
         [⟨.attr .reader "a?" (.union [.optional (.optional (.base .nil))]), [" attr"], ["x|"],
            some " line", true⟩,
          ⟨.nested
            { kind := .ofClass none, name := ⟨false, ["A"]⟩, comments := [" own"], annotations := []
              headerComment := none, members := [], trailingComments := [], endComment := none },
            [" nested"], [], some " lost", false⟩]
       trailingComments := [" before"]
       endComment := some " end" }]
  trailingComments := [" closing"]

/-- A tree with a comment in each place is legible. -/
theorem remarked_legible : remarked.Legible := by
  have hname : IsMethodName "a?" :=
    Or.inr ⟨"a", '?', by decide +kernel, by decide, by decide +kernel⟩
  have htype : TypeExpr.Legible (.union [.optional (.optional (.base .nil))]) :=
    .union (List.forall_mem_singleton.2 (.optional (.optional (.base .nil))))
  refine ⟨?_, by decide +kernel⟩
  simp only [remarked, List.forall_mem_singleton, Declaration.Legible, Member.AllLegible,
    Member.Legible, MemberContent.Legible]
  exact ⟨trivial, List.forall_mem_nil _, by decide +kernel, by decide +kernel,
    ⟨⟨⟨hname, htype⟩, by decide +kernel, by decide +kernel⟩,
      ⟨⟨by simp [DeclarationKind.Legible], by simp [TypeName.Legible]; decide +kernel,
        by decide +kernel, by simp, trivial, by decide +kernel, by simp⟩, by decide +kernel,
        by decide +kernel⟩, trivial⟩, by decide +kernel, by decide +kernel⟩

theorem commentTexts_of_tokenize_text_remarked :
    remarked.Legible ∧ (∀ text ∈ remarked.annotations, IsAnnotText text) ∧
      ∃ ts, Token.tokenize remarked.text = .ok ts ∧
        commentTexts (ts.map (·.kind)) = [" above", " header", " attr", " line", " nested", " own",
          " before", " end", " closing"] ∧
        ¬(commentTexts (ts.map (·.kind))).Perm (remarked.comments.map (·.2)) := by
  have hannots : ∀ text ∈ remarked.annotations, IsAnnotText text := by decide +kernel
  obtain ⟨ts, htokens, htexts, hperm⟩ := commentTexts_of_tokenize_text remarked_legible hannots
  refine ⟨remarked_legible, hannots, ts, htokens, htexts, fun h ↦ ?_⟩
  exact hperm.1 h (.declarationLine, " lost") (by decide +kernel) rfl

/-- The comment at the end of a member that is a declaration is lost. -/
theorem exists_comment_not_written :
    ∃ s : Signature, s.Legible ∧ s.annotations = [] ∧ s.comments.map (·.2) = [" lost"] ∧
      s.text = "class A\n  class B\n  end\nend\n" ∧
      ∃ ts, Token.tokenize s.text = .ok ts ∧ commentTexts (ts.map (·.kind)) = [] := by
  have hclass : ∀ text, IsWord text → TypeName.Legible ⟨false, [text]⟩ :=
    fun text htext ↦ List.forall_mem_singleton.2 htext
  let nested : Declaration := ⟨.ofClass none, ⟨false, ["B"]⟩, [], [], none, [], [], none⟩
  let s : Signature :=
    ⟨[⟨.ofClass none, ⟨false, ["A"]⟩, [], [], none, [⟨.nested nested, [], [], some " lost", false⟩],
      [], none⟩], []⟩
  have hlegible : s.Legible := by
    refine ⟨?_, List.forall_mem_nil _⟩
    simp only [s, nested, List.forall_mem_singleton, Declaration.Legible, Member.AllLegible,
      Member.Legible, MemberContent.Legible, DeclarationKind.Legible]
    have hA := hclass "A" (by decide +kernel)
    have hB := hclass "B" (by decide +kernel)
    have hlost : ∀ text ∈ some " lost", IsCommentText text := by decide +kernel
    simp [hA, hB, hlost, AreCommentTexts]
  have htokens : ((Token.tokenize s.text).toOption.any fun ts ↦
      commentTexts (ts.map (·.kind)) = []) = true := by
    decide +kernel
  refine ⟨s, hlegible, by decide +kernel, by decide +kernel, by decide +kernel, ?_⟩
  cases h : Token.tokenize s.text with
  | error e =>
    rw [h] at htokens
    cases htokens
  | ok ts =>
    rw [h] at htokens
    exact ⟨ts, rfl, of_decide_eq_true htokens⟩

end Signature

end ModelSignatures
