import ModelSignatures.TypeExpr.Layout
import ModelSignatures.Proofs.Layout.Views

/-!
# Layouts of code

Code is read back where its tokens are kept apart from what follows it. What is put together from
code is code again, and so is a list of layouts with a separator between each two of them.
-/

namespace ModelSignatures

namespace Layout

/-- Whether no word goes on with the given characters. -/
def EndsWord (after : List Char) : Prop :=
  ∀ c ∈ after.head?, isWordChar c = false

theorem endsWord_nil : EndsWord [] := by
  simp [EndsWord]

/-- No word goes on with a character that is no word character. -/
theorem endsWord_cons {c : Char} (h : isWordChar c = false) (cs : List Char) :
    EndsWord (c :: cs) := by
  rintro _ ⟨⟩
  exact h

/-- Whether a layout is code that can be read back in front of the given characters. -/
structure IsCodeBefore (layout : Layout) (after : List Char) : Prop where
  isCode : IsCode layout
  readable : layout.Readable after

/-- Code is readable in front of code that is. -/
theorem IsCodeBefore.append {first second : Layout} {after : List Char}
    (hfirst : IsCodeBefore first (chars second ++ after)) (hsecond : IsCodeBefore second after) :
    IsCodeBefore (first ++ second) after :=
  ⟨hfirst.isCode.append hsecond.isCode,
    (readable_append first second after).2 ⟨hfirst.readable, hsecond.readable⟩⟩

theorem isCodeBefore_nil (after : List Char) : IsCodeBefore [] after :=
  ⟨trivial, trivial⟩

theorem isCodeBefore_space (after : List Char) : IsCodeBefore [.space] after :=
  ⟨trivial, trivial⟩

/-- A word is code in front of all that ends it. -/
theorem isCodeBefore_word {text : String} (h : IsWord text) {after : List Char}
    (hafter : EndsWord after) : IsCodeBefore (word text) after :=
  ⟨⟨rfl, trivial⟩, ⟨h, hafter, trivial⟩⟩

/-- Only a colon and a star could be taken into a longer symbol. -/
theorem isCodeBefore_symbol {s : Symbol} (hs : s ∉ [.colon, .star]) (after : List Char) :
    IsCodeBefore (symbol s) after := by
  refine ⟨⟨rfl, trivial⟩, ⟨trivial, ?_, trivial⟩⟩
  cases s with
  | colon | star => simp at hs
  | _ => trivial

/-- A colon is code unless it makes a `::` with what follows. -/
theorem isCodeBefore_colon {after : List Char} (hafter : after.head? ≠ some ':') :
    IsCodeBefore (symbol .colon) after :=
  ⟨⟨rfl, trivial⟩, ⟨trivial, hafter, trivial⟩⟩

/-- A star is code unless it makes a `**` with what follows. -/
theorem isCodeBefore_star {after : List Char} (hafter : after.head? ≠ some '*') :
    IsCodeBefore (symbol .star) after :=
  ⟨⟨rfl, trivial⟩, ⟨trivial, hafter, trivial⟩⟩

/-! ### Entries -/

/-- The end of a line ends a word. -/
theorem EndsLine.endsWord {after : List Char} (h : EndsLine after) : EndsWord after := by
  intro c hc
  rw [EndsLine] at h
  rw [Option.mem_def, h] at hc
  cases hc
  decide

/-- The comment at the end of a line, or the end itself, ends a word. -/
theorem EndsLine.endsWord_lineComment {after : List Char} (h : EndsLine after)
    (c : Option String) : EndsWord (chars (lineComment c) ++ after) := by
  cases c with
  | none => exact h.endsWord
  | some text => exact endsWord_cons (by decide) _

/-- The comment at the end of a line is readable. -/
theorem readable_lineComment {c : Option String} (hc : ∀ text ∈ c, IsCommentText text)
    {after : List Char} (hafter : EndsLine after) : Readable (lineComment c) after := by
  cases c with
  | none => trivial
  | some text =>
    refine ⟨hc text rfl, fun d hd ↦ ?_, trivial⟩
    exact (Option.some.inj (hafter.symm.trans hd)).symm

/-- The lines of comments are readable in front of another line. -/
theorem readable_commentLines {texts : List String} (htexts : ∀ text ∈ texts, IsCommentText text)
    (indent : Nat) {after : List Char} (hafter : EndsLine after) :
    Readable (texts.flatMap (commentLine indent)) after := by
  induction texts with
  | nil => trivial
  | cons text texts ih =>
    have hends := (opensLine_commentLines indent texts).endsLine hafter
    refine ⟨htexts text List.mem_cons_self, fun d hd ↦ ?_,
      ih fun text' htext' ↦ htexts text' (List.mem_cons_of_mem _ htext')⟩
    exact (Option.some.inj (hends.symm.trans hd)).symm

/-- The lines of annotations are readable in front of anything. -/
theorem readable_annotLines (indent : Nat) (texts : List String) (after : List Char) :
    Readable (texts.flatMap (annotLine indent)) after := by
  induction texts with
  | nil => trivial
  | cons text texts ih => exact ⟨trivial, trivial, ih⟩

/-- An entry can be read back at the end of a line, if its code can. -/
theorem readable_entry {comments : List String} (hcomments : ∀ text ∈ comments, IsCommentText text)
    {code : Layout} (hcode : ∀ after, EndsWord after → IsCodeBefore code after)
    {c : Option String} (hc : ∀ text ∈ c, IsCommentText text) (outer indent : Nat)
    (annots : List String) {after : List Char} (hafter : EndsLine after) :
    Readable (entry outer indent comments annots code c) after := by
  have hlines : OpensLine (annots.flatMap (annotLine indent) ++
      .line indent :: (code ++ lineComment c)) := by
    cases annots <;> trivial
  rw [entry, readable_append, readable_append]
  refine ⟨readable_commentLines hcomments outer (hlines.endsLine hafter),
    readable_annotLines indent annots _, ?_⟩
  rw [readable_line, readable_append]
  exact ⟨(hcode _ (hafter.endsWord_lineComment c)).readable, readable_lineComment hc hafter⟩

/-! ### Lists -/

/-- What is joined is the first of the lists and the others, each behind the separator. -/
theorem intercalate_cons {α : Type} (separator first : List α) (others : List (List α)) :
    separator.intercalate (first :: others) = first ++ others.flatMap (separator ++ ·) := by
  induction others generalizing first with
  | nil => simp
  | cons second others ih =>
    rw [List.intercalate_cons_cons, ih, List.flatMap_cons, List.append_assoc, List.append_assoc]

/-- The tokens of what is written for some things are those of each of them. -/
theorem tokens_flatMap {α : Type} (f : α → Layout) (xs : List α) :
    tokens (xs.flatMap f) = xs.flatMap fun x ↦ tokens (f x) := by
  induction xs with
  | nil => rfl
  | cons x xs ih => rw [List.flatMap_cons, tokens_append, ih, List.flatMap_cons]

section Intercalate

variable {Q : List Char → Prop} {items : List Layout}
  (hitems : ∀ item ∈ items, ∀ after, Q after → IsCodeBefore item after)
include hitems

/-- A list of code is code where `Q` holds of what follows, if its separator can stand in front of
anything and `Q` holds where the separator follows. -/
theorem isCodeBefore_intercalate {separator : Layout}
    (hseparator : ∀ after, IsCodeBefore separator after)
    (hends : ∀ after, Q (chars separator ++ after)) {after : List Char} (hafter : Q after) :
    IsCodeBefore (separator.intercalate items) after := by
  cases items with
  | nil => exact isCodeBefore_nil after
  | cons first others =>
    rw [intercalate_cons]
    have hothers : IsCodeBefore (others.flatMap (separator ++ ·)) after ∧
        Q (chars (others.flatMap (separator ++ ·)) ++ after) := by
      induction others with
      | nil => exact ⟨isCodeBefore_nil after, hafter⟩
      | cons second others ih =>
        obtain ⟨hcode, hrest⟩ := ih fun item hitem ↦ hitems item
          (by rcases List.mem_cons.1 hitem with rfl | h <;> simp [*])
        rw [List.flatMap_cons]
        refine ⟨((hseparator _).append (hitems second (by simp) _ hrest)).append hcode, ?_⟩
        rw [chars_append, chars_append, List.append_assoc, List.append_assoc]
        exact hends _
    exact (hitems first List.mem_cons_self _ hothers.2).append hothers.1

/-- Items between commas are code if each of them is, in front of a comma and of what follows. -/
theorem isCodeBefore_commaSeparated (hends : ∀ cs, Q (',' :: cs)) {after : List Char}
    (hafter : Q after) : IsCodeBefore (commaSeparated items) after := by
  refine isCodeBefore_intercalate hitems (fun after ↦ ?_) (fun after ↦ ?_) hafter
  · exact ⟨⟨rfl, trivial⟩, ⟨trivial, trivial, trivial⟩⟩
  · exact hends _

end Intercalate

end Layout

end ModelSignatures
