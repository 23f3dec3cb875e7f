import ModelSignatures.Signature.Basic
import ModelSignatures.Proofs.TypeExpr.WellFormed
import ModelSignatures.Proofs.Signature.Grammar

/-!
# Well-formed signatures

The trees that reading can answer with: their names are words, their comments fit on a line, and
nothing is kept in a place where reading does not keep it. The texts of annotations are a question
of their own, since the lexer reads some that cannot be written again; a well-formed signature has
none of these.
-/

namespace ModelSignatures

/-! ### Methods -/

/-- A name of a method: a word with at most one suffix. -/
def IsMethodName (name : String) : Prop :=
  IsWord name ∨ ∃ stem c, IsWord stem ∧ c ∈ ['?', '!', '='] ∧ name = stem.push c

/-- Whether the key of a keyword parameter is a word. -/
def ParamKind.WellFormed : ParamKind → Prop
  | requiredKeyword key | optionalKeyword key => IsWord key
  | required | optional | rest | keywordRest => True

/-- A parameter with words for names. -/
structure Param.WellFormed (p : Param) : Prop where
  kind : p.kind.WellFormed
  type : p.type.WellFormed
  name : ∀ text ∈ p.name, IsWord text

/-- A way to call a method, of well-formed parts. -/
structure Overload.WellFormed (o : Overload) : Prop where
  params : ∀ p ∈ o.params, p.WellFormed
  result : o.result.WellFormed

/-- A method that can be called in some way. -/
structure Method.WellFormed (m : Method) : Prop where
  name : IsMethodName m.name
  callable : m.overloads ≠ []
  overloads : ∀ o ∈ m.overloads, o.WellFormed

/-! ### Declarations and members -/

/-- Whether the superclass, if there is one, is well formed. -/
def DeclarationKind.WellFormed : DeclarationKind → Prop
  | ofClass superclass => ∀ c ∈ superclass, c.WellFormed
  | ofModule => True

/-- Whether some comments, each with a line of its own, can be written. -/
def AreCommentTexts (comments : List String) : Prop :=
  ∀ text ∈ comments, IsCommentText text

instance (comments : List String) : Decidable (AreCommentTexts comments) :=
  inferInstanceAs (Decidable (∀ text ∈ comments, IsCommentText text))

/-- Whether a member is a declaration. -/
def MemberContent.isDeclaration : MemberContent → Bool
  | nested _ => true
  | _ => false

mutual

/-- A member's content that is read as itself. The comments and annotations of a declaration are
kept with the member that it is. -/
def MemberContent.WellFormed : MemberContent → Prop
  | .including mixin | .extending mixin => mixin.WellFormed
  | .attr _ name type => IsMethodName name ∧ type.WellFormed
  | .method m => m.WellFormed
  | .aliasing newName oldName => IsMethodName newName ∧ IsMethodName oldName
  | .nested d => d.comments = [] ∧ d.annotations = [] ∧ d.WellFormed

/-- A member that is read as itself. A declaration has comments at the ends of lines of its own. -/
def Member.WellFormed : Member → Prop
  | ⟨content, comments, _, lineComment, _⟩ =>
    content.WellFormed ∧ AreCommentTexts comments ∧ (∀ text ∈ lineComment, IsCommentText text) ∧
      (content.isDeclaration = true → lineComment = none)

/-- A declaration that is read as itself. No empty line is kept before its first member. -/
def Declaration.WellFormed : Declaration → Prop
  | ⟨kind, name, comments, _, headerComment, members, trailingComments, endComment⟩ =>
    kind.WellFormed ∧ name.WellFormed ∧ AreCommentTexts comments ∧
      (∀ text ∈ headerComment, IsCommentText text) ∧ Member.AllWellFormed members ∧
      (∀ m ∈ members.head?, m.blankBefore = false) ∧ AreCommentTexts trailingComments ∧
      ∀ text ∈ endComment, IsCommentText text

/-- Some members that are read as themselves. -/
def Member.AllWellFormed : List Member → Prop
  | [] => True
  | m :: ms => m.WellFormed ∧ Member.AllWellFormed ms

end

theorem Member.allWellFormed_iff {ms : List Member} :
    Member.AllWellFormed ms ↔ ∀ m ∈ ms, m.WellFormed := by
  induction ms with
  | nil => simp [Member.AllWellFormed]
  | cons m ms ih => rw [Member.AllWellFormed, ih, List.forall_mem_cons]

/-- What holds of a declaration if it holds of the declarations in its body holds of all. -/
@[elab_as_elim] theorem Declaration.induction {P : Declaration → Prop}
    (step : ∀ d : Declaration, (∀ m ∈ d.members, ∀ e, m.content = .nested e → P e) → P d)
    (d : Declaration) : P d :=
  Declaration.rec (motive_1 := fun content ↦ ∀ e, content = .nested e → P e)
    (motive_2 := fun m ↦ ∀ e, m.content = .nested e → P e) (motive_3 := P)
    (motive_4 := fun ms ↦ ∀ m ∈ ms, ∀ e, m.content = .nested e → P e)
    (fun _ _ h ↦ nomatch h) (fun _ _ h ↦ nomatch h) (fun _ _ _ _ h ↦ nomatch h)
    (fun _ _ h ↦ nomatch h) (fun _ _ _ h ↦ nomatch h) (fun _ hd _ h ↦ by cases h; exact hd)
    (fun _ _ _ _ _ h ↦ h) (fun _ _ _ _ _ _ _ _ hmembers ↦ step _ hmembers)
    (by simp) (fun _ _ hm hms ↦ List.forall_mem_cons.2 ⟨hm, hms⟩) d

mutual

/-- The texts of a member's annotations and of all those inside it, in their order. -/
def Member.allAnnotations : Member → List String
  | ⟨.nested d, _, annotations, _, _⟩ => annotations ++ d.allAnnotations
  | ⟨_, _, annotations, _, _⟩ => annotations

/-- The texts of a declaration's annotations and of all those inside it, in their order. -/
def Declaration.allAnnotations : Declaration → List String
  | ⟨_, _, _, annotations, _, members, _, _⟩ => annotations ++ Member.listAnnotations members

/-- The texts of all annotations of some members, in their order. -/
def Member.listAnnotations : List Member → List String
  | [] => []
  | m :: ms => m.allAnnotations ++ Member.listAnnotations ms

end

namespace Signature

/-- The texts of all annotations, in their order. -/
def annotations (s : Signature) : List String :=
  s.declarations.flatMap (·.allAnnotations)

/-- Whether the signature is well formed but for the texts of its annotations. -/
structure WellShaped (s : Signature) : Prop where
  declarations : ∀ d ∈ s.declarations, d.WellFormed
  trailingComments : AreCommentTexts s.trailingComments

/-- A signature that is read as itself where it is written. -/
structure WellFormed (s : Signature) : Prop extends s.WellShaped where
  annotations : ∀ text ∈ s.annotations, IsAnnotText text

end Signature

end ModelSignatures
