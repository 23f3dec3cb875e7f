import ModelSignatures.Proofs.Signature.Prediction

/-!
# The readers of bodies and declarations predict the grammar

Annotations are taken before it is known what they stand above. What follows them is therefore said
to complete any pieces with their texts (`Nonterminal.BehindAnnotations`), and the readers of
members and declarations are cut behind them.
-/

namespace ModelSignatures

open Nonterminal (production derives_cons derives_terminal fills_production)
open Rule (Derives derives_choice_iff derives_append_assoc)
open Reader (Predicts predicts_pure predicts_unexpected predicts_of_head predicts_takeAnnotations
  predicts_of_step predicts_of_bound eq_cons_of_head)
open Reading (taken taken_append takeAnnotations leadingComments endOfLine unexpected
  exists_takeAnnotations)

/-- What is read knows what was taken. -/
theorem Reader.Reads.bind_taken {α β : Type} {r : Reader α} {P : α → List Lexeme → Prop}
    (h : r.Reads P) (f : α → List Lexeme → List Lexeme → Except Failure β) (ls : List Lexeme) :
    (r ls >>= fun p ↦ f p.1 ls p.2) = r ls >>= fun p ↦ f p.1 (taken ls p.2 ++ p.2) p.2 := by
  cases hread : r ls with
  | error failure => rfl
  | ok p =>
    obtain ⟨x, rest⟩ := p
    obtain ⟨pre, rfl, -⟩ := h hread
    simp only [Except.ok_bind, taken_append]

namespace Nonterminal

/-- What a declaration is derived from, behind what stands above its header. -/
def declared : Rule Piece Nonterminal :=
  header ++ (.many (.ref member) ++ keyword "end")

/-- What a member is derived from, behind its annotations. -/
def content : Rule Piece Nonterminal := line ||| declared

theorem ne_nil_of_derives_header {ps : List Piece} (h : Derives production header ps) : ps ≠ [] :=
  h.ne_nil fills_production rfl

theorem ne_nil_of_derives_content {ps : List Piece} (h : Derives production content ps) : ps ≠ [] :=
  h.ne_nil fills_production rfl

/-- A declaration may have any annotations in front of it. -/
theorem derives_declaration {above ps : List Piece}
    (habove : Derives production (.many annotation) above) (h : Derives production declared ps) :
    Derives production (.ref declaration) (above ++ ps) := by
  have hall := Derives.sequence habove h
  exact .ref (derives_append_assoc.2 (derives_append_assoc.2 hall))

/-- A member may have any annotations in front of it. -/
theorem derives_member {above ps : List Piece}
    (habove : Derives production (.many annotation) above)
    (h : Derives production content ps) : Derives production (.ref member) (above ++ ps) := by
  rcases derives_choice_iff.1 h with hline | hdeclared
  · exact .ref (.left (.sequence habove hline))
  · exact .ref (.right (derives_declaration habove hdeclared))

/-- Something can be completed to a member wherever one may begin. -/
theorem viable_content : Viable (content.Language : Member → List Piece → Prop) [] := by
  refine (MemberContent.readLine_predicts 0 0).viable.mono fun content more hmore ↦ ?_
  exact ⟨⟨content, [], [], none, false⟩, .left hmore⟩

/-! ### Behind annotations -/

/-- Whether pieces complete some annotations to what is derived from the rule. -/
def BehindAnnotations (rule : Rule Piece Nonterminal) (annots : List String) (ps : List Piece) :
    Prop :=
  ∀ above : List Piece, above.map Piece.kind = annots.map .annot →
    Derives production rule (above ++ ps)

variable {item front : Rule Piece Nonterminal}

/-- Where nothing stands there are no items, and no annotations either. -/
theorem behindAnnotations_nil : BehindAnnotations (.many item) [] [] := by
  intro above habove
  rw [List.append_nil, List.map_eq_nil_iff.1 habove]
  exact .done

variable (hitem : ∀ {above ps}, Derives production (.many annotation) above →
  Derives production front ps → Derives production item (above ++ ps))
include hitem

/-- Behind its annotations an item is followed by all others. -/
theorem behindAnnotations_append {annots : List String} {ps more : List Piece}
    (hps : Derives production front ps) (hmore : Derives production (.many item) more) :
    BehindAnnotations (.many item) annots (ps ++ more) := by
  intro above habove
  rw [← List.append_assoc]
  exact .more (hitem (derives_annotations habove) hps) hmore

/-- Behind annotations there must be an item, and one can always be completed. -/
theorem viable_behindAnnotations {α : Type}
    (hfront : Viable (front.Language : α → List Piece → Prop) [])
    (annots : List String) :
    Viable (fun (_ : List α) ↦ BehindAnnotations (.many item) annots) [] := by
  refine hfront.mono fun _ more hmore ↦ ⟨[], ?_⟩
  rw [← List.append_nil ([] ++ more)]
  exact behindAnnotations_append hitem hmore .done

end Nonterminal

open Nonterminal (BehindAnnotations)

/-- A reader goes on behind the annotations that it takes. -/
theorem Reader.Predicts.afterAnnotations {α : Type} {size size' : ℕ} {rule : Rule Piece Nonterminal}
    {r r' : List String → List Lexeme → Reader α}
    (h : ∀ annots (above : List Lexeme),
      (above.map Lexeme.piece).map Piece.kind = annots.map .annot →
      Predicts size size' (r annots above) (r' annots above) fun _ ↦ BehindAnnotations rule annots)
    (hviable : ∀ annots, Viable (fun _ : α ↦ BehindAnnotations rule annots) []) :
    Predicts size size'
      (fun ls ↦ .ok (takeAnnotations ls) >>= fun p ↦ r p.1 (taken ls p.2) p.2)
      (fun ls ↦ .ok (takeAnnotations ls) >>= fun p ↦ r' p.1 (taken ls p.2) p.2) rule.Language := by
  refine predicts_takeAnnotations.bind_taken h (fun annots _ _ ↦ hviable annots)
    (fun _ _ _ ↦ ⟨Nat.le_add_left _ _, Nat.le_add_left _ _⟩) ?_
  exact fun _ _ ps _ habove hmore ↦ hmore ps habove

/-- The comments above some lexemes and the empty line there are told by the first of them. -/
theorem Reading.leadingComments_append (above ls : List Lexeme) :
    leadingComments (above ++ ls) = leadingComments (above ++ ls.head?.toList) ∧
      (above ++ ls).head?.any (·.spaced) = (above ++ ls.head?.toList).head?.any (·.spaced) := by
  cases above with
  | nil => cases ls <;> exact ⟨rfl, rfl⟩
  | cons l above => exact ⟨rfl, rfl⟩

/-- Whether a declaration comes next is told by the piece of the next lexeme. -/
theorem Declaration.isNext_congr {ls ls' : List Lexeme}
    (h : ls.head?.map Lexeme.piece = ls'.head?.map Lexeme.piece) :
    Declaration.isNext ls = Declaration.isNext ls' := by
  have hnext : ∀ ls, Declaration.isNext ls = (ls.head?.map Lexeme.piece).any fun p ↦
      p.kind = .word "class" ∨ p.kind = .word "module" := by
    rintro (- | ⟨⟨kind, _, _, _, _, _⟩, ls⟩)
    · rfl
    · cases kind <;> simp [isNext, Lexeme.piece, Lexeme.view, beq_eq_decide]
  rw [hnext, hnext, h]

section Body

variable {m m' size size' bound bound' : ℕ}
  {declaration declaration' : List Lexeme → Reader Declaration}

/-- Reads a member behind its annotations. -/
def Member.read (declaration : List Lexeme → Reader Declaration) (bound : ℕ) (first : Bool)
    (annots : List String) (above : List Lexeme) : Reader Member := fun ls ↦
  MemberContent.read declaration bound (above ++ ls) ls >>= fun p ↦
    .ok (⟨p.1.1, leadingComments (above ++ ls), annots, p.1.2,
      !first && (above ++ ls).head?.any (·.spaced)⟩, p.2)

/-- Reads the members of a body behind the annotations of the first. -/
def Member.readBehind (declaration : List Lexeme → Reader Declaration) (bound : ℕ) (first : Bool)
    (annots : List String) (above : List Lexeme) : Reader (List Member) := fun ls ↦
  match ls with
  | [] => unexpected .endKeyword ls
  | { kind := .word "end", .. } :: _ =>
    if annots.isEmpty then .ok ([], ls) else unexpected .memberAfterAnnotations ls
  | _ => Member.read declaration bound first annots above ls >>= fun p ↦
    Member.readAll declaration bound false p.2 >>= fun q ↦ .ok (p.1 :: q.1, q.2)

/-- A body reads the annotations first and then decides on what is behind them. -/
theorem Member.readAll_eq (declaration : List Lexeme → Reader Declaration) (bound : ℕ)
    (first : Bool) (ls : List Lexeme) :
    Member.readAll declaration (bound + 1) first ls =
      (.ok (takeAnnotations ls) >>= fun p ↦
        Member.readBehind declaration bound first p.1 (taken ls p.2) p.2) := by
  obtain ⟨annots, above, behind, rfl, htake, habove⟩ := exists_takeAnnotations ls
  rw [Member.readAll, htake, Except.ok_bind, taken_append]
  dsimp only
  split
  · rfl
  · cases annots with
    | nil =>
      rw [List.map_eq_nil_iff.1 habove]
      rfl
    | cons annot annots => rfl
  next hnil hend =>
    rw [Member.readBehind, Member.read, bind_assoc]
    · rfl
    · exact hnil
    · exact hend

variable (hdeclaration : ∀ above, Predicts m m' (fun ls ↦ declaration (above ++ ls) ls)
    (fun ls ↦ declaration' (above ++ ls) ls) Nonterminal.declared.Language)
include hdeclaration

/-- A member that is a declaration is predicted like any declaration, and all others by the keyword
of their line. -/
theorem MemberContent.read_predicts (hm : size ≤ m) (hm' : size' ≤ m') (hbound : size ≤ bound + 1)
    (hbound' : size' ≤ bound' + 1) (above : List Lexeme) :
    Predicts size size' (fun ls ↦ MemberContent.read declaration bound (above ++ ls) ls)
      (fun ls ↦ MemberContent.read declaration' bound' (above ++ ls) ls)
      Nonterminal.content.Language := by
  have hnested := ((hdeclaration above).mono hm hm' fun _ _ h ↦ h).answer
    fun d ↦ (nested d, (none : Option String))
  have hline := (readLine_predicts bound bound').mono hbound hbound' fun _ _ h ↦ h
  have hbehind : ∀ content (pre : List Lexeme), Predicts size size'
      (fun ls ↦ endOfLine (above ++ pre ++ ls) ls >>= fun comment ↦ .ok ((content, comment), ls))
      (fun ls ↦ endOfLine (above ++ pre ++ ls) ls >>= fun comment ↦ .ok ((content, comment), ls))
      fun (_ : MemberContent × Option String) ps ↦ ps = [] := by
    intro content pre
    refine Predicts.behindLine (fun comment ↦ ?_) (above ++ pre)
    exact predicts_pure rfl
  have hended := hline.bind_taken (L := Nonterminal.line.Language)
    (fun content pre _ ↦ hbehind content pre)
    (fun content ps _ ↦ viable_of_mem (x := (content, none)) rfl)
    (fun _ _ _ ↦ ⟨Nat.le_add_left _ _, Nat.le_add_left _ _⟩)
    (by rintro _ _ ps _ hps rfl; rwa [List.append_nil])
  refine predicts_of_head (hended.viable.mono fun x more hmore ↦ ⟨x, .left hmore⟩) fun first ↦ ?_
  by_cases hfirst : ∃ ls, ls.head?.map Lexeme.piece = first ∧ Declaration.isNext ls = true
  · refine ⟨_, _, _, hnested, fun ls hls ↦ ?_, fun _ ps _ hps ↦ .right hps⟩
    have hnext : Declaration.isNext ls = true := by
      obtain ⟨ls', hls', hnext⟩ := hfirst
      rwa [Declaration.isNext_congr (hls.trans hls'.symm)]
    rw [MemberContent.read, MemberContent.read, if_pos hnext, if_pos hnext]
    exact ⟨rfl, rfl⟩
  · refine ⟨_, _, _, hended, fun ls hls ↦ ?_, fun _ ps _ hps ↦ .left hps⟩
    have hnext : ¬Declaration.isNext ls = true := fun hnext ↦ hfirst ⟨ls, hls, hnext⟩
    have hread : ∀ bound declaration, MemberContent.read declaration bound (above ++ ls) ls =
        readLine bound ls >>= fun p ↦ endOfLine (above ++ taken ls p.2 ++ p.2) p.2 >>= fun comment ↦
          .ok ((p.1, comment), p.2) := by
      intro bound declaration
      rw [MemberContent.read, if_neg hnext]
      refine ((readLine_reads bound).bind_taken (fun content ls' after ↦
        endOfLine (above ++ ls') after >>= fun comment ↦
          .ok ((content, comment), after)) ls).trans ?_
      simp only [List.append_assoc]
    exact ⟨hread bound declaration, hread bound' declaration'⟩

/-- A member behind its annotations is predicted by its content alone. -/
theorem Member.read_predicts (hm : size ≤ m) (hm' : size' ≤ m') (hbound : size ≤ bound + 1)
    (hbound' : size' ≤ bound' + 1) (first : Bool) (annots : List String) (above : List Lexeme) :
    Predicts size size' (Member.read declaration bound first annots above)
      (Member.read declaration' bound' first annots above) Nonterminal.content.Language := by
  have hcontent := MemberContent.read_predicts hdeclaration hm hm' hbound hbound' above
  have hall := hcontent.map_head (L := Nonterminal.content.Language) (fun p head ↦
    (⟨p.1, leadingComments (above ++ head.toList), annots, p.2,
      !first && (above ++ head.toList).head?.any (·.spaced)⟩ : Member))
    (fun _ h ↦ Nonterminal.ne_nil_of_derives_content h rfl) fun _ _ _ h ↦ h
  refine hall.congr (fun ls _ ↦ ?_) fun ls _ ↦ ?_
  · rw [Member.read, (Reading.leadingComments_append above ls).1,
      (Reading.leadingComments_append above ls).2]
  · rw [Member.read, (Reading.leadingComments_append above ls).1,
      (Reading.leadingComments_append above ls).2]

/-- Behind the annotations of a member it is predicted how its body goes on, if it is how the body
goes on behind that member. -/
theorem Member.readBehind_predicts (first : Bool)
    (hmore : Predicts (min m bound) (min m' bound') (Member.readAll declaration bound false)
      (Member.readAll declaration' bound' false) (Rule.many (.ref .member)).Language)
    {annots : List String} {above : List Lexeme}
    (habove : (above.map Lexeme.piece).map Piece.kind = annots.map .annot) :
    Predicts (min m (bound + 1)) (min m' (bound' + 1))
      (Member.readBehind declaration bound first annots above)
      (Member.readBehind declaration' bound' first annots above)
      fun _ ↦ BehindAnnotations (.many (.ref .member)) annots := by
  have hread := Member.read_predicts hdeclaration (Nat.min_le_left m (bound + 1))
    (Nat.min_le_left m' (bound' + 1)) (Nat.min_le_right _ _) (Nat.min_le_right _ _) first annots
    above
  have hall := hread.bind (fun member ↦ hmore.answer (member :: ·))
    (L := fun _ ↦ BehindAnnotations (.many (.ref .member)) annots)
    (fun _ ps hps ↦ by
      have hpos := List.length_pos_iff.2 (Nonterminal.ne_nil_of_derives_content hps)
      omega)
    (fun _ _ _ _ hps hmembers ↦
      Nonterminal.behindAnnotations_append Nonterminal.derives_member hps hmembers)
  -- the next lexeme decides: there is none, it is an `end`, or a member begins with it
  refine predicts_of_head hall.viable fun first' ↦ ?_
  rcases first' with - | ⟨kind, glued⟩
  · refine ⟨_, _, _, predicts_unexpected .endKeyword hall.viable, fun ls hls ↦ ?_,
      fun _ _ _ hps ↦ hps⟩
    obtain rfl : ls = [] := by simpa using hls
    exact ⟨rfl, rfl⟩
  · by_cases hend : kind = .word "end"
    · subst hend
      cases annots with
      | nil =>
        refine ⟨_, _, _, predicts_pure (x := []) (L := fun _ ps ↦ ps = []) rfl, fun ls hls ↦ ?_, ?_⟩
        · obtain ⟨⟨_, _, _, _, _, _⟩, behind, rfl, hl⟩ := eq_cons_of_head hls
          cases hl
          exact ⟨rfl, rfl⟩
        · rintro _ ps _ rfl
          exact Nonterminal.behindAnnotations_nil
      | cons annot annots =>
        refine ⟨_, _, _, predicts_unexpected .memberAfterAnnotations hall.viable,
          fun ls hls ↦ ?_, fun _ _ _ hps ↦ hps⟩
        obtain ⟨⟨_, _, _, _, _, _⟩, behind, rfl, hl⟩ := eq_cons_of_head hls
        cases hl
        exact ⟨rfl, rfl⟩
    · refine ⟨_, _, _, hall, fun ls hls ↦ ?_, fun _ _ _ hps ↦ hps⟩
      obtain ⟨l, behind, rfl, hl⟩ := eq_cons_of_head hls
      have hnot : ∀ position leading trailing glued spaced tail, l :: behind =
          ⟨.word "end", position, leading, trailing, glued, spaced⟩ :: tail → False := by
        rintro _ _ _ _ _ _ heq
        cases heq
        cases hl
        exact hend rfl
      rw [readBehind, readBehind]
      · exact ⟨rfl, rfl⟩
      · exact List.cons_ne_nil _ _
      · exact hnot
      · exact List.cons_ne_nil _ _
      · exact hnot

/-- The bound decides how far a body is followed: within the smaller one, two readers agree on it.
-/
theorem Member.readAll_predicts (bound bound' : ℕ) (first : Bool) :
    Predicts (min m bound) (min m' bound') (Member.readAll declaration bound first)
      (Member.readAll declaration' bound' first) (Rule.many (.ref .member)).Language := by
  refine predicts_of_step (fun first bound ↦ Member.readAll declaration bound first)
    (fun first bound ↦ Member.readAll declaration' bound first) (min m) (min m') (Nat.min_zero m)
    (Nat.min_zero m') .endKeyword (viable_of_mem (x := []) .done)
    (fun _ bound ↦ by cases bound <;> rfl) (fun _ bound ↦ by cases bound <;> rfl)
    (fun bound bound' ih first ↦ ?_) bound bound' first
  have hall := Predicts.afterAnnotations
    (fun _ _ ↦ Member.readBehind_predicts hdeclaration first (ih false))
    (Nonterminal.viable_behindAnnotations Nonterminal.derives_member Nonterminal.viable_content)
  exact hall.congr (fun ls _ ↦ Member.readAll_eq _ _ _ ls) fun ls _ ↦ Member.readAll_eq _ _ _ ls

end Body

/-! ### Declarations -/

namespace Declaration

/-- Anything but the word that closes a declaration is reported. -/
theorem readEnd_of_ne {l : Lexeme} (h : l.kind ≠ .word "end") (ls : List Lexeme) :
    readEnd (l :: ls) = .error (.unexpected .endKeyword (some l)) := by
  unfold readEnd
  split
  next heq =>
    cases heq
    exact absurd rfl h
  · rfl

/-- The word that closes a declaration is all that is wanted where it is read. -/
theorem readEnd_predicts (size size' : ℕ) :
    Predicts size size' readEnd readEnd (Nonterminal.keyword "end").Language where
  viable := ⟨([], none), [.word "end"], by decide, derives_terminal rfl⟩
  success := by
    intro ls x rest _ hread
    obtain ⟨l, rfl, hl, hleading, htrailing⟩ := eq_cons_of_readEnd hread
    refine ⟨[l], rfl, derives_terminal hl, fun rest' _ _ ↦ ?_⟩
    cases l
    cases hl
    exact congrArg Except.ok (Prod.ext (Prod.ext hleading htrailing) rfl)
  failure := by
    intro ls wanted l _ hread
    rcases ls with - | ⟨first, ls⟩
    · cases hread
    · by_cases hend : first.kind = .word "end"
      · cases first
        cases hend
        cases hread
      · rw [readEnd_of_ne hend] at hread
        cases hread
        refine ⟨[], ls, rfl, ⟨([], none), [.word "end"], by decide, derives_terminal rfl⟩, ?_⟩
        exact fun l' rest' hl' _ ↦ readEnd_of_ne ((congrArg Piece.kind hl').trans_ne hend) rest'

/-- Reads a declaration behind its header. -/
def readBody (bound : ℕ) (kind : DeclarationKind) (name : TypeName)
    (headerComment : Option String) : Reader Declaration := fun ls ↦
  Member.readAll (read bound) bound true ls >>= fun p ↦ readEnd p.2 >>= fun q ↦
    .ok ({ kind, name, comments := [], annotations := [], headerComment, members := p.1,
           trailingComments := q.1.1, endComment := q.1.2 }, q.2)

/-- A declaration is read in three steps, of which the last is its body with the word that closes
it. -/
theorem read_eq (bound : ℕ) (above ls : List Lexeme) :
    read (bound + 1) (above ++ ls) ls = DeclarationKind.read bound ls >>= fun p ↦
      endOfLine (above ++ taken ls p.2 ++ p.2) p.2 >>= fun headerComment ↦
        readBody bound p.1.1 p.1.2 headerComment p.2 := by
  rw [read]
  refine ((DeclarationKind.read_reads bound).bind_taken (fun p ls' body ↦
    endOfLine (above ++ ls') body >>= fun headerComment ↦
      readBody bound p.1 p.2 headerComment body) ls).trans ?_
  simp only [List.append_assoc]

/-- A declaration can be completed wherever one may begin. -/
theorem viable_declared :
    Viable (Nonterminal.declared.Language : Declaration → List Piece → Prop) [] := by
  obtain ⟨⟨kind, name⟩, more, hmore, hheader⟩ := (DeclarationKind.read_predicts 0 0).viable
  have hend : Derives production (.many (.ref .member) ++ Nonterminal.keyword "end")
      ([] ++ [⟨.word "end", false⟩]) := .sequence .done (derives_terminal rfl)
  refine ⟨⟨kind, name, [], [], none, [], [], none⟩, more ++ [.word "end"],
    List.forall_mem_append.2 ⟨hmore, by decide⟩, ?_⟩
  rw [List.map_append, ← List.append_assoc]
  exact .sequence hheader hend

/-- A declaration is predicted by induction on the bound, since its body has declarations in it. -/
theorem read_predicts (bound bound' : ℕ) (above : List Lexeme) :
    Predicts bound bound' (fun ls ↦ read bound (above ++ ls) ls)
      (fun ls ↦ read bound' (above ++ ls) ls) Nonterminal.declared.Language := by
  refine predicts_of_step (fun above bound ls ↦ read bound (above ++ ls) ls)
    (fun above bound ls ↦ read bound (above ++ ls) ls) (fun bound ↦ bound) (fun bound ↦ bound) rfl
    rfl .classOrModule viable_declared (fun _ bound ↦ by cases bound <;> rfl)
    (fun _ bound ↦ by cases bound <;> rfl) (fun bound bound' ih above ↦ ?_) bound bound' above
  have hmembers := Member.readAll_predicts ih bound bound' true
  rw [Nat.min_self, Nat.min_self] at hmembers
  have hbody : ∀ kind name headerComment, Predicts bound bound'
      (readBody bound kind name headerComment) (readBody bound' kind name headerComment)
      (.many (.ref .member) ++ Nonterminal.keyword "end").Language := by
    intro kind name headerComment
    exact hmembers.sequence fun members ↦ (readEnd_predicts bound bound').answer fun q ↦
      ({ kind, name, comments := [], annotations := [], headerComment, members,
         trailingComments := q.1, endComment := q.2 } : Declaration)
  refine ((DeclarationKind.read_predicts bound bound').bind_taken (m := bound)
    (fun p pre _ ↦ Predicts.behindLine (hbody p.1 p.2) (above ++ pre))
    (fun p _ _ ↦ (hbody p.1 p.2 none).viable) (fun p ps hps ↦ ?_) ?_).congr
    (fun ls _ ↦ read_eq bound above ls) fun ls _ ↦ read_eq bound' above ls
  · have hpos := List.length_pos_iff.2 (Nonterminal.ne_nil_of_derives_header hps)
    omega
  · exact fun _ _ _ _ hheader hbody ↦ .sequence hheader hbody

/-- Reads a declaration behind its annotations. -/
def readAnnotated (bound : ℕ) (annots : List String) (above : List Lexeme) : Reader Declaration :=
  fun ls ↦ read bound (above ++ ls) ls >>= fun p ↦
    .ok ({ p.1 with comments := leadingComments (above ++ ls), annotations := annots }, p.2)

/-- A declaration behind its annotations is predicted like one without any. -/
theorem readAnnotated_predicts (bound bound' : ℕ) (annots : List String) (above : List Lexeme) :
    Predicts bound bound' (readAnnotated bound annots above) (readAnnotated bound' annots above)
      Nonterminal.declared.Language := by
  have hall := (read_predicts bound bound' above).map_head (L := Nonterminal.declared.Language)
    (fun d head ↦ { d with
      comments := leadingComments (above ++ head.toList), annotations := annots })
    (fun _ h ↦ Nonterminal.ne_nil_of_derives_content (.right h) rfl) fun _ _ _ h ↦ h
  refine hall.congr (fun ls _ ↦ ?_) fun ls _ ↦ ?_
  · rw [readAnnotated, (Reading.leadingComments_append above ls).1]
  · rw [readAnnotated, (Reading.leadingComments_append above ls).1]

/-- Reads the declarations of a text to its end. -/
def readRest (bound : ℕ) : Reader (List Declaration) := fun ls ↦
  readAll bound ls >>= fun ds ↦ .ok (ds, [])

/-- Reads the declarations of a text behind the annotations of the first. -/
def readBehind (bound : ℕ) (annots : List String) (above : List Lexeme) :
    Reader (List Declaration) := fun ls ↦
  if ls.isEmpty then
    if annots.isEmpty then .ok ([], ls) else unexpected .declarationAfterAnnotations ls
  else
    readAnnotated (bound + 1) annots above ls >>= fun p ↦
      readRest bound p.2 >>= fun q ↦ .ok (p.1 :: q.1, q.2)

/-- A text reads the annotations first and then decides on what is behind them. -/
theorem readRest_eq (bound : ℕ) (ls : List Lexeme) :
    readRest (bound + 1) ls =
      (.ok (takeAnnotations ls) >>= fun p ↦ readBehind bound p.1 (taken ls p.2) p.2) := by
  obtain ⟨annots, above, behind, rfl, htake, habove⟩ := exists_takeAnnotations ls
  rw [readRest, readAll, htake, Except.ok_bind, taken_append, readBehind]
  dsimp only
  split
  next hempty =>
    rw [List.isEmpty_iff.1 hempty]
    split
    · rfl
    · rfl
  · rw [readAnnotated, bind_assoc, bind_assoc]
    refine congrArg _ (funext fun p ↦ ?_)
    rw [Except.ok_bind, readRest, bind_assoc, bind_assoc]
    rfl

/-- Behind annotations a declaration must follow, and behind none the text may end. -/
theorem readBehind_predicts {bound bound' : ℕ}
    (hmore : Predicts bound bound' (readRest bound) (readRest bound')
      (Rule.many (.ref .declaration)).Language)
    {annots : List String} {above : List Lexeme}
    (habove : (above.map Lexeme.piece).map Piece.kind = annots.map .annot) :
    Predicts (bound + 1) (bound' + 1) (readBehind bound annots above)
      (readBehind bound' annots above)
      fun _ ↦ BehindAnnotations (.many (.ref .declaration)) annots := by
  have hread := readAnnotated_predicts (bound + 1) (bound' + 1) annots above
  have hall := hread.bind (fun d ↦ hmore.answer (d :: ·))
    (L := fun _ ↦ BehindAnnotations (.many (.ref .declaration)) annots)
    (fun _ ps hps ↦ by
      have hpos := List.length_pos_iff.2 (Nonterminal.ne_nil_of_derives_content (.right hps))
      omega)
    (fun _ _ _ _ hps hothers ↦
      Nonterminal.behindAnnotations_append Nonterminal.derives_declaration hps hothers)
  refine predicts_of_head hall.viable fun first ↦ ?_
  rcases first with - | p
  · have hnil : ∀ ls : List Lexeme, ls.head?.map Lexeme.piece = none → ls = [] :=
      fun ls hls ↦ by simpa using hls
    cases annots with
    | nil =>
      refine ⟨_, _, _, predicts_pure (x := []) (L := fun _ ps ↦ ps = []) rfl, fun ls hls ↦ ?_, ?_⟩
      · rw [hnil ls hls]
        exact ⟨rfl, rfl⟩
      · rintro _ ps _ rfl
        exact Nonterminal.behindAnnotations_nil
    | cons annot annots =>
      refine ⟨_, _, _, predicts_unexpected .declarationAfterAnnotations hall.viable,
        fun ls hls ↦ ?_, fun _ _ _ hps ↦ hps⟩
      rw [hnil ls hls]
      exact ⟨rfl, rfl⟩
  · refine ⟨_, _, _, hall, fun ls hls ↦ ?_, fun _ _ _ hps ↦ hps⟩
    obtain ⟨l, behind, rfl, -⟩ := eq_cons_of_head hls
    exact ⟨rfl, rfl⟩

/-- The declarations of a text are predicted to the end of the text. -/
theorem readRest_predicts (bound bound' : ℕ) :
    Predicts bound bound' (readRest bound) (readRest bound')
      (Rule.many (.ref .declaration)).Language := by
  refine predicts_of_bound (fun _ : Unit ↦ readRest) (fun _ ↦ readRest) (fun bound ↦ bound)
    (fun bound ↦ bound) rfl rfl (fun _ ↦ ?_) (fun _ bound ↦ by cases bound <;> rfl)
    (fun _ bound ↦ by cases bound <;> rfl) (fun bound bound' ih _ ↦ ?_) bound bound' ()
  · refine (predicts_pure (x := []) .done).congr (fun ls hls ↦ ?_) fun ls hls ↦ ?_
    · rw [List.length_eq_zero_iff.1 (Nat.le_zero.1 hls)]
      rfl
    · rw [List.length_eq_zero_iff.1 (Nat.le_zero.1 hls)]
      rfl
  · have hall := Predicts.afterAnnotations (fun _ _ ↦ readBehind_predicts (ih ()))
      (Nonterminal.viable_behindAnnotations Nonterminal.derives_declaration viable_declared)
    exact hall.congr (fun ls _ ↦ readRest_eq _ ls) fun ls _ ↦ readRest_eq _ ls

end Declaration

end ModelSignatures
