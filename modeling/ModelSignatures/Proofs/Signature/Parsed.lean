import ModelSignatures.Proofs.Signature.WellFormed

/-!
# What is read is well formed

Reading answers with a well-formed tree whenever the tokens that it takes are legible, which those
of a text always are (`wellShaped_of_parse`).
-/

namespace ModelSignatures

open Reading (leadingComments)

/-! ### Legible views -/

/-- Whether the token and the comments of a view can be read back, annotations aside. -/
structure View.Legible (v : View) : Prop where
  kind : v.kind.Legible
  leading : AreCommentTexts v.leading
  trailing : ∀ text ∈ v.trailing, IsCommentText text

/-- What the lexer returns is legible. -/
theorem TokenKind.Lexed.legible {kind : TokenKind} (h : kind.Lexed) : kind.Legible := by
  cases kind with
  | annot text => trivial
  | _ => exact h

/-- Lexemes that are gathered from legible tokens have legible views. -/
theorem Lexeme.legible_of_gather (before : Option Token) {pending : List Comment}
    (hpending : ∀ c ∈ pending, IsCommentText c.text) {tokens : List Token}
    (htokens : ∀ t ∈ tokens, t.kind.Legible) :
    (∀ l ∈ (gather before pending tokens).1, l.view.Legible) ∧
      ∀ c ∈ (gather before pending tokens).2, IsCommentText c.text := by
  induction tokens generalizing before pending with
  | nil => exact ⟨by simp [gather], hpending⟩
  | cons t tokens ih =>
    have hrest : ∀ t ∈ tokens, t.kind.Legible :=
      fun t ht ↦ htokens t (List.mem_cons_of_mem _ ht)
    have ht := htokens t List.mem_cons_self
    cases hcomment : t.kind.isComment with
    | false =>
      rw [gather_cons hcomment]
      obtain ⟨hviews, hclosing⟩ := ih (some t) (List.forall_mem_nil _) hrest
      refine ⟨List.forall_mem_cons.2 ⟨⟨ht, ?_, ?_⟩, hviews⟩, hclosing⟩
      · intro text htext
        obtain ⟨c, hc, rfl⟩ := List.mem_map.1 htext
        exact hpending c hc
      · intro text htext
        obtain ⟨c, hc, rfl⟩ := Option.map_eq_some_iff.1 htext
        obtain ⟨u, hu, hkind, -⟩ := trailingComment_eq_some hc
        have hlegible := hrest u hu
        rw [hkind] at hlegible
        exact hlegible
    | true =>
      obtain ⟨text, hkind⟩ := TokenKind.exists_eq_comment hcomment
      rw [gather_comment hkind]
      rw [hkind] at ht
      refine ih before ?_ hrest
      split
      · exact hpending
      · exact List.forall_mem_append.2 ⟨hpending, List.forall_mem_singleton.2 ht⟩

/-! ### Types -/

/-- A name with legible segments is well formed. -/
theorem TypeName.wellFormed_of_legible {name : TypeName} (hne : name.path ≠ [])
    (h : ∀ kind ∈ name.kinds, kind.Legible) : name.WellFormed := by
  obtain ⟨absolute, path⟩ := name
  refine ⟨hne, fun segment hsegment ↦ h (.word segment) ?_⟩
  rcases path with - | ⟨first, others⟩
  · cases hsegment
  · rw [kinds]
    refine List.mem_append_right _ ?_
    rcases List.mem_cons.1 hsegment with rfl | hsegment
    · exact List.mem_cons_self
    · exact List.mem_cons_of_mem _ (List.mem_flatMap.2 ⟨segment, hsegment, by simp⟩)

namespace TypeForm

/-- Whether the types of a form are well formed. -/
def WellFormed : TypeForm → Prop
  | primary t | optional t | union t => t.WellFormed
  | alternatives ts | args ts | moreArgs ts => ∀ t ∈ ts, t.WellFormed

/-- A type that legible tokens spell is well formed, by induction on how it is spelled. -/
theorem Spells.wellFormed {form : TypeForm} {ks : List TokenKind} (h : form.Spells ks)
    (hks : ∀ kind ∈ ks, kind.Legible) : form.WellFormed := by
  induction h with
  | base b => exact .base b
  | group _ ih => exact ih fun kind hkind ↦ hks kind (by simp [hkind])
  | aliasRef nonempty noKeyword isAlias =>
    exact .aliasRef (TypeName.wellFormed_of_legible nonempty hks) noKeyword isAlias
  | classRef nonempty noKeyword isClass _ ih =>
    rw [List.forall_mem_append] at hks
    exact .classRef (TypeName.wellFormed_of_legible nonempty hks.1) noKeyword isClass (ih hks.2)
  | plain _ ih => exact ih hks
  | @marked t _ _ ih =>
    rw [List.forall_mem_append] at hks
    have ht : t.WellFormed := ih hks.1
    cases t with
    | optional u => exact ht
    | _ => exact .optional ht (by simp)
  | @union t ts _ _ _ _ ihfirst ihothers =>
    rw [List.forall_mem_append] at hks
    have hfirst : t.WellFormed := ihfirst hks.1
    have hothers : ∀ t ∈ ts, t.WellFormed := ihothers hks.2
    cases ts with
    | nil => exact hfirst
    | cons u ts => exact .union (by simp) (List.forall_mem_cons.2 ⟨hfirst, hothers⟩)
  | noAlternative | noArgs | noMoreArgs => simp [WellFormed]
  | alternative _ _ ihfirst ihothers | moreArgs _ _ ihfirst ihothers =>
    rw [List.forall_mem_cons, List.forall_mem_append] at hks
    exact List.forall_mem_cons.2 ⟨ihfirst hks.2.1, ihothers hks.2.2⟩
  | args _ _ ihfirst ihothers =>
    rw [List.forall_mem_cons, List.forall_mem_append, List.forall_mem_append] at hks
    exact List.forall_mem_cons.2 ⟨ihfirst hks.2.1.1, ihothers hks.2.1.2⟩

end TypeForm

/-- A class with arguments that legible tokens spell is well formed. -/
theorem ClassType.Spells.wellFormed {c : ClassType} {ks : List TokenKind} (h : c.Spells ks)
    (hks : ∀ kind ∈ ks, kind.Legible) : c.WellFormed := by
  obtain ⟨nonempty, spelled⟩ := h
  rw [List.forall_mem_append] at hks
  exact ⟨TypeName.wellFormed_of_legible nonempty hks.1, spelled.wellFormed hks.2⟩

/-! ### Methods -/

/-- What legible pieces spell as the name of a method is one. -/
theorem Method.NameSpells.isMethodName {name : String} {ps : List Piece} (h : NameSpells name ps)
    (hps : ∀ p ∈ ps, p.kind.Legible) : IsMethodName name := by
  cases h with
  | plain text glued => exact Or.inl (hps _ List.mem_cons_self)
  | @suffixed stem glued s c suffix =>
    refine Or.inr ⟨stem, c, hps _ List.mem_cons_self, ?_, rfl⟩
    cases s <;> cases suffix <;> simp

/-- A parameter that legible tokens spell is well formed. -/
theorem Param.Spells.wellFormed {p : Param} {ks : List TokenKind} (h : p.Spells ks)
    (hks : ∀ kind ∈ ks, kind.Legible) : p.WellFormed := by
  obtain @⟨kind, type, name, ks, spelled⟩ := h
  rw [List.forall_mem_append, List.forall_mem_append] at hks
  obtain ⟨hkind, htype, hname⟩ := hks
  refine ⟨?_, spelled.wellFormed htype, fun text htext ↦ ?_⟩
  · cases kind with
    | requiredKeyword key => exact hkind (.word key) (by simp [ParamKind.kinds])
    | optionalKeyword key => exact hkind (.word key) (by simp [ParamKind.kinds])
    | _ => trivial
  · cases htext
    exact hname (.word text) (by simp)

/-- What holds of each item that legible tokens spell holds of all that are repeated. -/
theorem Repeated.forall_of_legible {α : Type} {separator : Symbol} {P : α → List TokenKind → Prop}
    {Q : α → Prop} (hitem : ∀ {x ks}, P x ks → (∀ kind ∈ ks, kind.Legible) → Q x) {xs : List α}
    {ks : List TokenKind} (h : Repeated separator P xs ks) (hks : ∀ kind ∈ ks, kind.Legible) :
    ∀ x ∈ xs, Q x := by
  induction h with
  | nil => simp
  | cons head _ ih =>
    rw [List.forall_mem_cons, List.forall_mem_append] at hks
    exact List.forall_mem_cons.2 ⟨hitem head hks.2.1, ih hks.2.2⟩

/-- An overload that legible tokens spell is well formed. -/
theorem Overload.Spells.wellFormed {o : Overload} {ks : List TokenKind} (h : o.Spells ks)
    (hks : ∀ kind ∈ ks, kind.Legible) : o.WellFormed := by
  obtain ⟨listed, spelled⟩ := h
  rw [List.forall_mem_cons, List.forall_mem_append, List.forall_mem_cons, List.forall_mem_cons]
    at hks
  obtain ⟨-, hparams, -, -, hresult⟩ := hks
  refine ⟨?_, spelled.wellFormed hresult⟩
  cases listed with
  | nil => simp
  | cons head tail =>
    rw [List.forall_mem_append] at hparams
    exact List.forall_mem_cons.2 ⟨head.wellFormed hparams.1,
      tail.forall_of_legible (Q := Param.WellFormed) (fun hp ↦ hp.wellFormed) hparams.2⟩

/-- A method that legible pieces spell is well formed. -/
theorem Method.Spells.wellFormed {m : Method} {ps : List Piece} (h : m.Spells ps)
    (hps : ∀ p ∈ ps, p.kind.Legible) : m.WellFormed := by
  obtain ⟨-, named, spelled, repeated, typed⟩ := h
  rw [List.forall_mem_append, List.forall_mem_append] at hps
  obtain ⟨-, hstem, hsignature⟩ := hps
  rw [← List.forall_mem_map (f := Piece.kind) (P := TokenKind.Legible), typed,
    List.forall_mem_cons, List.forall_mem_append] at hsignature
  exact ⟨named.isMethodName hstem, by simp, List.forall_mem_cons.2
    ⟨spelled.wellFormed hsignature.2.1,
      repeated.forall_of_legible (Q := Overload.WellFormed) (fun ho ↦ ho.wellFormed)
        hsignature.2.2⟩⟩

/-! ### Members and declarations -/

/-- A member of one line that legible pieces spell is well formed, and no declaration. -/
theorem MemberContent.Spells.wellFormed {content : MemberContent} {ps : List Piece}
    (h : content.Spells ps) (hps : ∀ p ∈ ps, p.kind.Legible) :
    content.WellFormed ∧ content.isDeclaration = false := by
  cases h with
  | including _ spelled | extending _ spelled =>
    rw [List.forall_mem_cons] at hps
    rw [MemberContent.WellFormed]
    exact ⟨spelled.wellFormed (List.forall_mem_map.2 hps.2), rfl⟩
  | attr _ named spelled typed =>
    rw [List.forall_mem_cons, List.forall_mem_append] at hps
    obtain ⟨-, hstem, hsignature⟩ := hps
    rw [← List.forall_mem_map (f := Piece.kind) (P := TokenKind.Legible), typed,
      List.forall_mem_cons] at hsignature
    rw [MemberContent.WellFormed]
    exact ⟨⟨named.isMethodName hstem, spelled.wellFormed hsignature.2⟩, rfl⟩
  | method _ spelled =>
    rw [List.forall_mem_cons] at hps
    rw [MemberContent.WellFormed]
    exact ⟨spelled.wellFormed hps.2, rfl⟩
  | aliasing _ new old =>
    rw [List.forall_mem_cons, List.forall_mem_append] at hps
    rw [MemberContent.WellFormed]
    exact ⟨⟨new.isMethodName hps.2.1, old.isMethodName hps.2.2⟩, rfl⟩

/-- A header that legible tokens spell is well formed, and so is the name in it. -/
theorem DeclarationKind.Spells.wellFormed {kind : DeclarationKind} {name : TypeName}
    {ks : List TokenKind} (h : Spells kind name ks) (hks : ∀ k ∈ ks, k.Legible) :
    kind.WellFormed ∧ name.WellFormed := by
  cases h with
  | plainClass nonempty =>
    rw [List.forall_mem_cons] at hks
    exact ⟨by simp [WellFormed], TypeName.wellFormed_of_legible nonempty hks.2⟩
  | subclass nonempty spelled =>
    rw [List.forall_mem_cons, List.forall_mem_append, List.forall_mem_cons] at hks
    refine ⟨?_, TypeName.wellFormed_of_legible nonempty hks.2.1⟩
    rintro c ⟨⟩
    exact spelled.wellFormed hks.2.2.2
  | ofModule nonempty =>
    rw [List.forall_mem_cons] at hks
    exact ⟨trivial, TypeName.wellFormed_of_legible nonempty hks.2⟩

/-- The comments of legible views can be comments. -/
theorem View.IsLine.legible {vs : List View} {comments : List String} {spaced : Bool}
    {lineComment : Option String} (h : IsLine vs comments spaced lineComment)
    (hvs : ∀ v ∈ vs, v.Legible) :
    AreCommentTexts comments ∧ ∀ text ∈ lineComment, IsCommentText text := by
  obtain ⟨v, hv, rfl, -⟩ := h.head
  obtain ⟨w, hw, rfl⟩ := h.last
  exact ⟨(hvs v (List.mem_of_mem_head? hv)).leading, (hvs w (List.mem_of_getLast? hw)).trailing⟩

/-- Whether the parts of a phrase are well formed, with the comments above a declaration. -/
def Phrase.WellFormed : Phrase → Prop
  | declaration comments _ _ d =>
    AreCommentTexts comments ∧ d.comments = [] ∧ d.annotations = [] ∧ d.WellFormed
  | members first ms =>
    (∀ m ∈ ms, m.WellFormed) ∧ (first = true → ∀ m ∈ ms.head?, m.blankBefore = false)
  | declarations ds => ∀ d ∈ ds, d.WellFormed

/-- What legible views spell is well formed, by induction on how it is spelled. -/
theorem Phrase.Spells.wellFormed {phrase : Phrase} {vs : List View} (h : phrase.Spells vs)
    (hvs : ∀ v ∈ vs, v.Legible) : phrase.WellFormed := by
  induction h with
  | @declaration kind name comments annots spaced headerComment members above header body ending
      _ headed line _ _ ih =>
    rw [← List.append_assoc, List.forall_mem_append] at hvs
    obtain ⟨hline, hinner⟩ := hvs
    rw [List.forall_mem_append] at hinner
    obtain ⟨hbody, hending⟩ := hinner
    obtain ⟨hcomments, hheaderComment⟩ := line.legible hline
    obtain ⟨hkind, hname⟩ := headed.wellFormed (List.forall_mem_map.2
      fun v hv ↦ (hline v (List.mem_append_right _ hv)).kind)
    obtain ⟨hmembers, hfirst⟩ := ih hbody
    have hend := hending ending List.mem_cons_self
    refine ⟨hcomments, rfl, rfl, ?_⟩
    rw [Declaration.WellFormed, Member.allWellFormed_iff]
    exact ⟨hkind, hname, by simp [AreCommentTexts], hheaderComment, hmembers, hfirst rfl,
      hend.leading, hend.trailing⟩
  | noMember => simp [WellFormed]
  | @lineMember first content comments annots spaced lineComment ms above code more _ spelled line
      _ ih =>
    rw [← List.append_assoc, List.forall_mem_append] at hvs
    obtain ⟨hline, hmore⟩ := hvs
    obtain ⟨hcomments, hcomment⟩ := line.legible hline
    obtain ⟨hcontent, hdeclaration⟩ := spelled.wellFormed (List.forall_mem_map.2
      fun v hv ↦ (hline v (List.mem_append_right _ hv)).kind)
    refine ⟨List.forall_mem_cons.2 ⟨?_, (ih hmore).1⟩, ?_⟩
    · rw [Member.WellFormed]
      exact ⟨hcontent, hcomments, hcomment, by simp [hdeclaration]⟩
    · rintro rfl m ⟨⟩
      rfl
  | nestedMember _ _ ihd ih =>
    rw [List.forall_mem_append] at hvs
    obtain ⟨hcomments, hown, hownAnnots, hd⟩ := ihd hvs.1
    refine ⟨List.forall_mem_cons.2 ⟨?_, (ih hvs.2).1⟩, ?_⟩
    · rw [Member.WellFormed, MemberContent.WellFormed]
      exact ⟨⟨hown, hownAnnots, hd⟩, hcomments, by simp, fun _ ↦ rfl⟩
    · rintro rfl m ⟨⟩
      rfl
  | noDeclaration => simp [WellFormed]
  | @moreDeclarations comments annots spaced d ds _ _ _ _ ihd ih =>
    rw [List.forall_mem_append] at hvs
    obtain ⟨hcomments, -, -, hd⟩ := ihd hvs.1
    refine List.forall_mem_cons.2 ⟨?_, ih hvs.2⟩
    obtain ⟨kind, name, own, ownAnnots, headerComment, members, trailingComments, endComment⟩ := d
    rw [Declaration.WellFormed] at hd ⊢
    exact ⟨hd.1, hd.2.1, hcomments, hd.2.2.2⟩

/-- What is read from legible tokens is well formed. -/
theorem Signature.wellShaped_of_ofTokens {tokens : List Token} {s : Signature}
    (h : Signature.ofTokens tokens = .ok s) (htokens : ∀ t ∈ tokens, t.kind.Legible) :
    s.WellShaped := by
  obtain ⟨hspells, hcomments⟩ := Signature.ofDocument_eq_ok_iff.1 h
  obtain ⟨hviews, hclosing⟩ := Lexeme.legible_of_gather none (List.forall_mem_nil _) htokens
  refine ⟨hspells.wellFormed (List.forall_mem_map.2 hviews), ?_⟩
  rw [hcomments]
  exact List.forall_mem_map.2 hclosing

/-- What is read from a text is well formed, but perhaps for the texts of annotations. -/
theorem Signature.wellShaped_of_parse {source : String} {s : Signature}
    (h : Signature.parse source = .ok s) : s.WellShaped := by
  rw [Signature.parse, Except.bind_eq_ok_iff] at h
  obtain ⟨tokens, htokens, h⟩ := h
  exact wellShaped_of_ofTokens h fun t ht ↦
    ((Token.wellPlaced_of_tokenize htokens).1 t ht).1.legible

end ModelSignatures
