import ModelSignatures.Proofs.Signature.CodeTokens
import ModelSignatures.Proofs.Signature.Parsed

/-!
# The annotations of a text

No annotation stands inside a line of code, so the grammar keeps every annotation, and in the order
of the text (`annotations_of_ofTokens`).
-/

namespace ModelSignatures

/-- The texts of the annotations among some tokens. -/
def annotTexts (ks : List TokenKind) : List String :=
  ks.filterMap fun kind ↦
    match kind with
    | .annot text => some text
    | _ => none

@[simp] theorem annotTexts_append (ks more : List TokenKind) :
    annotTexts (ks ++ more) = annotTexts ks ++ annotTexts more :=
  List.filterMap_append

@[simp] theorem annotTexts_map_annot (texts : List String) :
    annotTexts (texts.map .annot) = texts := by
  induction texts with
  | nil => rfl
  | cons text texts ih => exact congrArg (text :: ·) ih

/-- There are no annotations in code. -/
theorem codeClosed_annotTexts : CodeClosed fun ks ↦ annotTexts ks = [] where
  nil := rfl
  append := by
    intro ks more hks hmore
    rw [annotTexts_append, hks, hmore]
    rfl
  word _ := rfl
  symbol _ _ := rfl
  qualified _ := rfl

/-- Comments are no annotations. -/
theorem annotTexts_filter (ks : List TokenKind) :
    annotTexts (ks.filter fun kind ↦ !kind.isComment) = annotTexts ks := by
  induction ks with
  | nil => rfl
  | cons kind ks ih =>
    cases kind with
    | annot text => exact congrArg (text :: ·) ih
    | _ => exact ih

theorem mem_annotTexts {text : String} {ks : List TokenKind} :
    text ∈ annotTexts ks ↔ .annot text ∈ ks := by
  rw [annotTexts, List.mem_filterMap]
  constructor
  · rintro ⟨kind, hkind, h⟩
    split at h
    · cases h
      exact hkind
    · cases h
  · exact fun h ↦ ⟨_, h, rfl⟩

/-! ### Phrases -/

/-- The texts of the annotations of a phrase, in their order. -/
def Phrase.annotations : Phrase → List String
  | declaration _ annots _ d => annots ++ d.allAnnotations
  | members _ ms => Member.listAnnotations ms
  | declarations ds => ds.flatMap (·.allAnnotations)

theorem Member.allAnnotations_of_line {content : MemberContent}
    (h : content.isDeclaration = false) (comments annots : List String)
    (comment : Option String) (blankBefore : Bool) :
    Member.allAnnotations ⟨content, comments, annots, comment, blankBefore⟩ = annots := by
  cases content with
  | nested d => cases h
  | _ => rw [Member.allAnnotations]; simp

/-- What is spelled as a member of one line is no declaration. -/
theorem MemberContent.Spells.isDeclaration {content : MemberContent} {ps : List Piece}
    (h : content.Spells ps) : content.isDeclaration = false := by
  cases h <;> rfl

/-- The annotations of a phrase are those of its tokens. -/
theorem Phrase.Spells.annotations_eq {phrase : Phrase} {vs : List View} (h : phrase.Spells vs) :
    phrase.annotations = annotTexts (vs.map (·.kind)) := by
  induction h with
  | declaration annotated headed _ _ closed ih =>
    rw [List.map_append, List.map_append, List.map_append, List.map_singleton, annotated, closed,
      annotTexts_append, annotTexts_append, annotTexts_append, annotTexts_map_annot,
      codeClosed_annotTexts.header headed, ← ih, annotations, Declaration.allAnnotations]
    simp [annotations, annotTexts]
  | noMember | noDeclaration => rfl
  | @lineMember _ _ _ _ _ _ _ _ code _ annotated spelled _ _ ih =>
    have hcode : annotTexts (code.map (·.kind)) = [] := by
      have h := codeClosed_annotTexts.member spelled
      rwa [List.map_map] at h
    rw [List.map_append, List.map_append, annotated, annotTexts_append, annotTexts_append,
      annotTexts_map_annot, hcode, ← ih, annotations, Member.listAnnotations,
      Member.allAnnotations_of_line spelled.isDeclaration]
    rfl
  | nestedMember _ _ ihd ih =>
    rw [List.map_append, annotTexts_append, ← ihd, ← ih]
    simp only [annotations, Member.listAnnotations, Member.allAnnotations]
  | @moreDeclarations _ _ _ d _ _ _ declared _ ihd ih =>
    rw [List.map_append, annotTexts_append, ← ihd, ← ih]
    cases declared
    simp only [annotations, List.flatMap_cons, Declaration.allAnnotations, List.nil_append]

/-! ### Texts -/

/-- The lexemes have the kinds of the tokens that are no comments. -/
theorem Lexeme.map_kind_gather (before : Option Token) (pending : List Comment)
    (tokens : List Token) :
    (gather before pending tokens).1.map Lexeme.kind =
      (tokens.map (·.kind)).filter fun kind ↦ !kind.isComment := by
  induction tokens generalizing before pending with
  | nil => rfl
  | cons t tokens ih =>
    cases hcomment : t.kind.isComment with
    | false =>
      rw [gather_cons hcomment, List.map_cons, List.map_cons,
        List.filter_cons_of_pos (by simp [hcomment]), ih]
    | true =>
      obtain ⟨text, hkind⟩ := TokenKind.exists_eq_comment hcomment
      rw [gather_comment hkind, List.map_cons, List.filter_cons_of_neg (by simp [hcomment])]
      exact ih _ _

/-- Reading keeps the annotations. -/
theorem Signature.annotations_of_ofTokens {tokens : List Token} {s : Signature}
    (h : Signature.ofTokens tokens = .ok s) :
    s.annotations = annotTexts (tokens.map (·.kind)) := by
  have hspells := (Signature.ofDocument_eq_ok_iff.1 h).1.annotations_eq
  rw [Lexeme.map_kind_map_view] at hspells
  rw [← annotTexts_filter, ← Lexeme.map_kind_gather none []]
  exact hspells

end ModelSignatures
