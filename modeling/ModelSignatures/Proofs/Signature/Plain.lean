import ModelSignatures.Proofs.Signature.Acceptance

/-!
# What is read without the comments

A signature is made plain by dropping its comments and its empty lines. Its pieces alone tell what
is left (`Signature.plain_eq_of_pieces`), since plain phrases are spelled by plain views, and those
are told by their pieces.
-/

namespace ModelSignatures

/-! ### Plain trees -/

mutual

/-- The content of a member without comments and empty lines. -/
def MemberContent.plain : MemberContent → MemberContent
  | .nested d => .nested d.plain
  | content => content

/-- A member without comments and empty lines. -/
def Member.plain : Member → Member
  | ⟨content, _, annotations, _, _⟩ => ⟨content.plain, [], annotations, none, false⟩

/-- A declaration without comments and empty lines. -/
def Declaration.plain : Declaration → Declaration
  | ⟨kind, name, _, annotations, _, members, _, _⟩ =>
    ⟨kind, name, [], annotations, none, Member.plainAll members, [], none⟩

/-- Some members without comments and empty lines. -/
def Member.plainAll : List Member → List Member
  | [] => []
  | m :: ms => m.plain :: Member.plainAll ms

end

/-- A signature without comments and empty lines. -/
def Signature.plain (s : Signature) : Signature where
  declarations := s.declarations.map Declaration.plain
  trailingComments := []

/-- A member of one line is plain. -/
theorem MemberContent.Spells.plain_eq {content : MemberContent} {ps : List Piece}
    (h : content.Spells ps) : content.plain = content := by
  cases h with
  | _ => rw [MemberContent.plain]; simp

theorem Declaration.plain_with (d : Declaration) (comments annots : List String) :
    { d with comments, annotations := annots }.plain =
      { d.plain with comments := [], annotations := annots } := by
  obtain ⟨kind, name, own, ownAnnots, headerComment, members, trailingComments, endComment⟩ := d
  rw [Declaration.plain, Declaration.plain]

/-! ### Plain views -/

/-- The view of the token where nothing is around it. -/
def View.plain (v : View) : View where
  toPiece := v.toPiece
  leading := []
  trailing := none
  spaced := false

@[simp] theorem View.map_kind_map_plain (vs : List View) :
    (vs.map View.plain).map (·.kind) = vs.map (·.kind) := by
  rw [List.map_map]
  rfl

@[simp] theorem View.map_toPiece_map_plain (vs : List View) :
    (vs.map View.plain).map View.toPiece = vs.map View.toPiece := by
  rw [List.map_map]
  rfl

/-- Views with the same pieces are plain alike. -/
theorem View.map_plain_eq_of_pieces {vs ws : List View}
    (h : vs.map View.toPiece = ws.map View.toPiece) : vs.map View.plain = ws.map View.plain := by
  have hplain : ∀ vs : List View,
      vs.map View.plain = (vs.map View.toPiece).map fun p ↦ ⟨p, [], none, false⟩ := by
    intro vs
    rw [List.map_map]
    rfl
  rw [hplain, hplain, h]

/-- The line of a member is plain with its views. -/
theorem View.IsLine.plain {vs : List View} {comments : List String} {spaced : Bool}
    {lineComment : Option String} (h : View.IsLine vs comments spaced lineComment) :
    View.IsLine (vs.map View.plain) [] false none := by
  obtain ⟨-, ⟨v, hv, -⟩, ⟨w, hw, -⟩⟩ := h
  refine ⟨?_, ⟨v.plain, ?_, rfl, rfl⟩, ⟨w.plain, ?_, rfl⟩⟩
  · exact (List.isChain_map _).2 (List.Pairwise.isChain
      (List.pairwise_of_forall_mem_list fun _ _ _ _ ↦ ⟨rfl, rfl⟩))
  · rw [List.head?_map]
    exact Option.mem_map_of_mem _ hv
  · rw [List.getLast?_map]
    exact Option.mem_map_of_mem _ hw

/-! ### Plain phrases -/

/-- A phrase without comments and empty lines. -/
def Phrase.plain : Phrase → Phrase
  | declaration _ annots _ d => declaration [] annots false d.plain
  | members first ms => members first (Member.plainAll ms)
  | declarations ds => declarations (ds.map Declaration.plain)

/-- What spells a phrase spells the plain phrase where nothing is around the tokens. -/
theorem Phrase.Spells.plain {phrase : Phrase} {vs : List View} (h : phrase.Spells vs) :
    phrase.plain.Spells (vs.map View.plain) := by
  induction h with
  | @declaration kind name comments annots spaced headerComment members above header body ending
      annotated headed line inner closed ih =>
    have hline := line.plain
    rw [List.map_append] at hline
    rw [Phrase.plain, Declaration.plain, List.map_append, List.map_append, List.map_append]
    have hclosed : ending.plain.kind = .word "end" := closed
    exact .declaration (by rwa [View.map_kind_map_plain]) (by rwa [View.map_kind_map_plain]) hline
      ih hclosed
  | noMember first => exact .noMember first
  | @lineMember first content comments annots spaced lineComment ms above code more annotated
      spelled line others ih =>
    have hline := line.plain
    rw [List.map_append] at hline
    rw [Phrase.plain, Member.plainAll, Member.plain, spelled.plain_eq, List.map_append,
      List.map_append, ← Bool.and_false (!first)]
    exact .lineMember (by rwa [View.map_kind_map_plain]) (by rwa [View.map_toPiece_map_plain]) hline
      ih
  | @nestedMember first comments annots spaced d ms vs more declared others ihd ih =>
    rw [Phrase.plain, Member.plainAll, Member.plain, MemberContent.plain, List.map_append,
      ← Bool.and_false (!first)]
    exact .nestedMember ihd ih
  | noDeclaration => exact .noDeclaration
  | moreDeclarations declared others ihd ih =>
    rw [Phrase.plain, List.map_cons, Declaration.plain_with, List.map_append]
    exact .moreDeclarations ihd ih

/-- A lexeme that is seen as the view. -/
def Lexeme.ofView (v : View) : Lexeme where
  kind := v.kind
  position := ⟨1, 1⟩
  leading := v.leading.map (⟨·, ⟨1, 1⟩⟩)
  trailing := v.trailing.map (⟨·, ⟨1, 1⟩⟩)
  glued := v.glued
  spaced := v.spaced

theorem Lexeme.view_ofView (v : View) : (ofView v).view = v := by
  obtain ⟨piece, leading, trailing, spaced⟩ := v
  simp [ofView, view, Function.comp_def]

/-- The same views spell no other declarations. -/
theorem Phrase.Spells.declarations_unique {ds es : List Declaration} {vs : List View}
    (hds : Spells (.declarations ds) vs) (hes : Spells (.declarations es) vs) : ds = es := by
  have hvs : (vs.map Lexeme.ofView).map Lexeme.view = vs := by
    rw [List.map_map]
    exact List.map_id'' Lexeme.view_ofView vs
  have hreads := Phrase.isRead_of_spells hds _ [] hvs (Nat.le_refl _) rfl
  rw [Phrase.isRead_of_spells hes _ [] hvs (Nat.le_refl _) rfl] at hreads
  exact (Except.ok.inj hreads).symm

/-- Without comments and empty lines the signatures of documents with the same pieces are the
same. -/
theorem Signature.plain_eq_of_pieces {document document' : Document} {s s' : Signature}
    (h : ofDocument document = .ok s) (h' : ofDocument document' = .ok s')
    (hpieces : document.lexemes.map Lexeme.piece = document'.lexemes.map Lexeme.piece) :
    s.plain = s'.plain := by
  have hplain := (ofDocument_eq_ok_iff.1 h).1.plain
  have hplain' := (ofDocument_eq_ok_iff.1 h').1.plain
  rw [← Lexeme.map_toPiece_map_view, ← Lexeme.map_toPiece_map_view] at hpieces
  rw [View.map_plain_eq_of_pieces hpieces] at hplain
  exact congrArg (Signature.mk · []) (hplain.declarations_unique hplain')

end ModelSignatures
