import ModelSignatures.Proofs.Signature.BodyPrediction
import ModelSignatures.Proofs.Signature.ViablePrefix

/-!
# What a failure points at

A document is rejected at one of its lexemes, at a comment around one of them or at its end
(`Signature.eq_of_failure`). That a reader fails at a lexeme which is left to it is known of all
readers at once, since they predict the grammar. A comment is refused by the readers of whole
headers and members alone (`Spares`), and then it is one around the lexemes that are left
(`RefusesAmong`).
-/

namespace ModelSignatures

open Reading (symbol word separated unexpected taken innerComments endOfLine takeAnnotations
  exists_takeAnnotations)

/-! ### Readers that refuse no comment -/

/-- Whether a result is no refusal of a comment. -/
def Spares {α : Type} (result : Except Failure α) : Prop :=
  ∀ c, result ≠ .error (.misplaced c)

namespace Spares

variable {α β : Type}

/-- An answer is no refusal. -/
theorem ok (x : α) : Spares (.ok x) := fun _ ↦ by simp

/-- A token that does not fit is reported for itself and never as a misplaced comment. -/
theorem unexpected (wanted : Expectation) (ls : List Lexeme) :
    Spares (Reading.unexpected wanted ls : Except Failure α) := by
  rintro c ⟨⟩

/-- Two readers in a row refuse no comment if neither of them does. -/
theorem bind {x : Except Failure α} {f : α → Except Failure β} (hx : Spares x)
    (hf : ∀ a, Spares (f a)) : Spares (x >>= f) := by
  intro c h
  rcases Except.bind_eq_error_iff.1 h with h | ⟨a, -, h⟩
  · exact hx c h
  · exact hf a c h

theorem word (wanted : Expectation) (ls : List Lexeme) : Spares (Reading.word wanted ls) := by
  unfold Reading.word
  split
  · exact ok _
  · exact unexpected _ _

theorem symbol (s : Symbol) (wanted : Expectation) (ls : List Lexeme) :
    Spares (Reading.symbol s wanted ls) := by
  unfold Reading.symbol
  split
  · exact ok _
  · exact unexpected _ _

/-- A repetition refuses no comment if its items do not. -/
theorem separated (separator : Symbol) {item : Reader α} (hitem : ∀ ls, Spares (item ls))
    (bound : ℕ) (ls : List Lexeme) : Spares (Reading.separated separator item bound ls) := by
  induction bound generalizing ls with
  | zero => exact ok _
  | succ bound ih =>
    rw [Reading.separated]
    split
    · exact ok _
    · exact (hitem _).bind fun _ ↦ (ih _).bind fun _ ↦ ok _

end Spares

/-! ### Types and methods -/

/-- The readers of names and types look at tokens only, so no comment inside them is refused. -/
theorem TypeName.spares_read (bound : ℕ) (ls : List Lexeme) : Spares (TypeName.read bound ls) := by
  unfold TypeName.read
  split
  exact (Spares.word _ _).bind fun _ ↦
    (Spares.separated _ (Spares.word _) bound _).bind fun _ ↦ Spares.ok _

namespace TypeExpr

section Primary

variable {primary : Reader TypeExpr} (hprimary : ∀ ls, Spares (primary ls))
include hprimary

/-- A type with a question mark refuses no comment if what is in front of the mark does not. -/
theorem spares_readOptional (ls : List Lexeme) : Spares (readOptional primary ls) := by
  unfold readOptional
  refine (hprimary ls).bind fun p ↦ ?_
  dsimp only
  split <;> exact Spares.ok _

/-- Types between bars refuse no comment if none of them does. -/
theorem spares_readUnion (bound : ℕ) (ls : List Lexeme) :
    Spares (readUnion primary bound ls) :=
  (spares_readOptional hprimary ls).bind fun _ ↦
    (Spares.separated _ (spares_readOptional hprimary) bound _).bind fun _ ↦ Spares.ok _

/-- The arguments of a type refuse no comment if none of them does. -/
theorem spares_readArgs (bound : ℕ) (ls : List Lexeme) : Spares (readArgs primary bound ls) := by
  unfold readArgs
  split
  · exact Spares.ok _
  · exact (spares_readUnion hprimary bound _).bind fun _ ↦
      (Spares.separated _ (spares_readUnion hprimary bound) bound _).bind fun _ ↦
        (Spares.symbol _ _ _).bind fun _ ↦ Spares.ok _

/-- A name with its arguments refuses no comment if these do not. -/
theorem spares_readNamed (bound : ℕ) (ls : List Lexeme) : Spares (readNamed primary bound ls) := by
  unfold readNamed
  refine (TypeName.spares_read bound ls).bind fun p ↦ ?_
  dsimp only
  split
  · exact Spares.ok _
  · exact (spares_readArgs hprimary bound _).bind fun _ ↦ Spares.ok _

end Primary

/-- The readers of types call each other, and the bound carries the induction. -/
theorem spares_readPrimary (bound : ℕ) (ls : List Lexeme) : Spares (readPrimary bound ls) := by
  induction bound generalizing ls with
  | zero => exact Spares.unexpected _ _
  | succ bound ih =>
    rw [readPrimary.eq_def]
    dsimp only
    split
    · exact (spares_readUnion ih bound _).bind fun _ ↦ (Spares.symbol _ _ _).bind fun _ ↦
        Spares.ok _
    · split
      · exact Spares.ok _
      · exact spares_readNamed ih bound _
    · exact spares_readNamed ih bound _
    · exact Spares.unexpected _ _

theorem spares_read (bound : ℕ) (ls : List Lexeme) : Spares (read bound ls) :=
  spares_readUnion (spares_readPrimary bound) bound ls

end TypeExpr

/-- The reader of a class with arguments refuses no comment. -/
theorem ClassType.spares_read (bound : ℕ) (ls : List Lexeme) :
    Spares (ClassType.read bound ls) :=
  (TypeName.spares_read bound ls).bind fun _ ↦
    (TypeExpr.spares_readArgs (TypeExpr.spares_readPrimary bound) bound _).bind fun _ ↦ Spares.ok _

/-- The reader of a method's name refuses no comment. -/
theorem Method.spares_readName (ls : List Lexeme) : Spares (Method.readName ls) := by
  unfold Method.readName
  refine (Spares.word _ ls).bind fun p ↦ ?_
  dsimp only
  split <;> exact Spares.ok _

/-- A parameter is read without a look at the comments around its tokens. -/
theorem Param.spares_read (bound : ℕ) (ls : List Lexeme) : Spares (Param.read bound ls) :=
  (TypeExpr.spares_read bound _).bind fun _ ↦ Spares.ok _

theorem Overload.spares_readParams (bound : ℕ) (ls : List Lexeme) :
    Spares (Overload.readParams bound ls) := by
  unfold Overload.readParams
  split
  · exact Spares.ok _
  · exact (Param.spares_read bound _).bind fun _ ↦
      (Spares.separated _ (Param.spares_read bound) bound _).bind fun _ ↦ Spares.ok _

/-- An overload is read without a look at the comments around its tokens. -/
theorem Overload.spares_read (bound : ℕ) (ls : List Lexeme) : Spares (Overload.read bound ls) :=
  (Spares.symbol _ _ ls).bind fun _ ↦ (spares_readParams bound _).bind fun _ ↦
    (Spares.symbol _ _ _).bind fun _ ↦ (Spares.symbol _ _ _).bind fun _ ↦
      (TypeExpr.spares_readOptional (TypeExpr.spares_readPrimary bound) _).bind fun _ ↦ Spares.ok _

/-- Comments between overloads are as well left to whoever reads the line. -/
theorem Method.spares_read (bound : ℕ) (ls : List Lexeme) : Spares (Method.read bound ls) :=
  (spares_readName _).bind fun _ ↦ (Spares.symbol _ _ _).bind fun _ ↦
    (Overload.spares_read bound _).bind fun _ ↦
      (Spares.separated _ (Overload.spares_read bound) bound _).bind fun _ ↦ Spares.ok _

/-! ### Members and headers -/

/-- The reader of an attribute refuses no comment. -/
theorem MemberContent.spares_readAttr (kind : AttributeKind) (bound : ℕ) (ls : List Lexeme) :
    Spares (MemberContent.readAttr kind bound ls) :=
  (Method.spares_readName ls).bind fun _ ↦ (Spares.symbol _ _ _).bind fun _ ↦
    (TypeExpr.spares_read bound _).bind fun _ ↦ Spares.ok _

/-- The code of a line is read first, and only then its comments are looked at. -/
theorem MemberContent.spares_readLine (bound : ℕ) (ls : List Lexeme) :
    Spares (MemberContent.readLine bound ls) := by
  unfold MemberContent.readLine
  split
  · exact (ClassType.spares_read bound _).bind fun _ ↦ Spares.ok _
  · exact (ClassType.spares_read bound _).bind fun _ ↦ Spares.ok _
  · exact spares_readAttr _ bound _
  · exact spares_readAttr _ bound _
  · exact spares_readAttr _ bound _
  · exact (Method.spares_read bound _).bind fun _ ↦ Spares.ok _
  · exact (Method.spares_readName _).bind fun _ ↦ (Method.spares_readName _).bind fun _ ↦
      Spares.ok _
  · exact Spares.unexpected _ _

/-- The reader of a superclass refuses no comment. -/
theorem ClassType.spares_readSuperclass (bound : ℕ) (ls : List Lexeme) :
    Spares (ClassType.readSuperclass bound ls) := by
  unfold ClassType.readSuperclass
  split
  · exact Spares.ok _
  · exact (ClassType.spares_read bound _).bind fun _ ↦ Spares.ok _

/-- The code of a header is read first, and only then its comments are looked at. -/
theorem DeclarationKind.spares_read (bound : ℕ) (ls : List Lexeme) :
    Spares (DeclarationKind.read bound ls) := by
  unfold DeclarationKind.read
  split
  · exact (TypeName.spares_read bound _).bind fun _ ↦
      (ClassType.spares_readSuperclass bound _).bind fun _ ↦ Spares.ok _
  · exact (TypeName.spares_read bound _).bind fun _ ↦ Spares.ok _
  · exact Spares.unexpected _ _

/-- The end of a declaration is read whatever comments are around it. -/
theorem Declaration.spares_readEnd (ls : List Lexeme) : Spares (Declaration.readEnd ls) := by
  unfold Declaration.readEnd
  split
  · exact Spares.ok _
  · exact Spares.unexpected _ _

/-! ### Refused comments -/

/-- The comments around a lexeme. -/
def Lexeme.comments (l : Lexeme) : List Comment :=
  l.leading ++ l.trailing.toList

/-- Whether a comment that the result refuses is one around the lexemes. -/
def RefusesAmong {α : Type} (ls : List Lexeme) (result : Except Failure α) : Prop :=
  ∀ c, result = .error (.misplaced c) → c ∈ ls.flatMap Lexeme.comments

/-- A reader that refuses no comment refuses none but those of any lexemes. -/
theorem Spares.refusesAmong {α : Type} {result : Except Failure α} (h : Spares result)
    (ls : List Lexeme) : RefusesAmong ls result :=
  fun c hc ↦ absurd hc (h c)

namespace RefusesAmong

variable {α β : Type} {ls : List Lexeme}

/-- A comment that is refused by the second of two readers is one of those that the first may refuse
too. -/
theorem bind {x : Except Failure α} {f : α → Except Failure β} (hx : RefusesAmong ls x)
    (hf : ∀ a, x = .ok a → RefusesAmong ls (f a)) : RefusesAmong ls (x >>= f) := by
  intro c h
  rcases Except.bind_eq_error_iff.1 h with h | ⟨a, ha, h⟩
  · exact hx c h
  · exact hf a ha c h

/-- Lexemes in front add comments and take none away. -/
theorem append_left {x : Except Failure α} (h : RefusesAmong ls x) (pre : List Lexeme) :
    RefusesAmong (pre ++ ls) x := by
  intro c hc
  rw [List.flatMap_append]
  exact List.mem_append_right _ (h c hc)

end RefusesAmong

/-- The comments inside a line are comments of its lexemes. -/
theorem Reading.innerComments_subset (ls : List Lexeme) :
    innerComments ls ⊆ ls.flatMap Lexeme.comments := by
  induction ls with
  | nil => exact List.nil_subset _
  | cons l ls ih =>
    cases ls with
    | nil => exact List.nil_subset _
    | cons next ls =>
      intro c hc
      rw [innerComments, List.mem_append, List.mem_append] at hc
      rw [List.flatMap_cons, List.mem_append]
      rcases hc with (hc | hc) | hc
      · exact Or.inl (List.mem_append_right _ hc)
      · refine Or.inr ?_
        rw [List.flatMap_cons]
        exact List.mem_append_left _ (List.mem_append_left _ hc)
      · exact Or.inr (ih hc)

/-- The end of a line refuses none but the comments inside the line. -/
theorem Reading.refusesAmong_endOfLine (before after : List Lexeme) :
    RefusesAmong before (endOfLine before after) := by
  intro c hc
  rw [endOfLine] at hc
  split at hc
  next comment others heq =>
    obtain rfl : comment = c := by simpa using hc
    have hmem : comment ∈ (taken before after).flatMap Lexeme.comments :=
      innerComments_subset _ (by rw [heq]; exact List.mem_cons_self)
    rw [taken] at hmem
    obtain ⟨l, hl, hcomment⟩ := List.mem_flatMap.1 hmem
    exact List.mem_flatMap.2 ⟨l, List.mem_of_mem_take hl, hcomment⟩
  · cases hc

section Body

variable {declaration : List Lexeme → Reader Declaration}
  (hreads : Declaration.Reads declaration)
  (hrefuses : ∀ above ls, RefusesAmong (above ++ ls) (declaration (above ++ ls) ls))
include hrefuses

/-- A member refuses none but the comments from its annotations on. -/
theorem MemberContent.refusesAmong_read (bound : ℕ) (above ls : List Lexeme) :
    RefusesAmong (above ++ ls) (MemberContent.read declaration bound (above ++ ls) ls) := by
  unfold MemberContent.read
  split
  · exact (hrefuses above ls).bind fun _ _ ↦ (Spares.ok _).refusesAmong _
  · exact ((MemberContent.spares_readLine bound ls).refusesAmong _).bind fun _ _ ↦
      (Reading.refusesAmong_endOfLine _ _).bind fun _ _ ↦ (Spares.ok _).refusesAmong _

include hreads

/-- Of the comments of a body, none outside of it is refused. -/
theorem Member.refusesAmong_readAll (bound : ℕ) (first : Bool) (ls : List Lexeme) :
    RefusesAmong ls (Member.readAll declaration bound first ls) := by
  induction bound generalizing first ls with
  | zero => exact (Spares.unexpected _ _).refusesAmong _
  | succ bound ih =>
    obtain ⟨annots, above, behind, rfl, htake, habove⟩ := exists_takeAnnotations ls
    rw [Member.readAll, htake]
    dsimp only
    split
    · exact (Spares.unexpected _ _).refusesAmong _
    · split
      · exact (Spares.ok _).refusesAmong _
      · exact (Spares.unexpected _ _).refusesAmong _
    · refine (MemberContent.refusesAmong_read hrefuses bound above behind).bind ?_
      rintro ⟨⟨content, comment⟩, after⟩ hread
      obtain ⟨pre, rfl, -⟩ := MemberContent.read_reads hreads habove hread
      refine RefusesAmong.bind ?_ fun _ _ ↦ (Spares.ok _).refusesAmong _
      exact ((ih false after).append_left pre).append_left above

end Body

/-- A declaration refuses none but its own comments and those of the annotations in front of it. -/
theorem Declaration.refusesAmong_read (bound : ℕ) (above ls : List Lexeme) :
    RefusesAmong (above ++ ls) (Declaration.read bound (above ++ ls) ls) := by
  induction bound generalizing above ls with
  | zero => exact (Spares.unexpected _ _).refusesAmong _
  | succ bound ih =>
    rw [Declaration.read]
    refine ((DeclarationKind.spares_read bound ls).refusesAmong _).bind ?_
    rintro ⟨⟨kind, name⟩, body⟩ hheader
    obtain ⟨header, rfl, -⟩ := DeclarationKind.read_reads bound hheader
    refine (Reading.refusesAmong_endOfLine _ _).bind fun _ _ ↦ ?_
    have hmembers := Member.refusesAmong_readAll (Declaration.read_reads bound) ih bound true body
    exact ((hmembers.append_left header).append_left above).bind fun _ _ ↦
      ((Declaration.spares_readEnd _).bind fun _ ↦ Spares.ok _).refusesAmong _

/-- Declarations refuse none but the comments of the text that they are read from. -/
theorem Declaration.refusesAmong_readAll (bound : ℕ) (ls : List Lexeme) :
    RefusesAmong ls (Declaration.readAll bound ls) := by
  induction bound generalizing ls with
  | zero => exact (Spares.ok _).refusesAmong _
  | succ bound ih =>
    obtain ⟨annots, above, behind, rfl, htake, habove⟩ := exists_takeAnnotations ls
    rw [Declaration.readAll, htake]
    dsimp only
    split
    · split
      · exact (Spares.ok _).refusesAmong _
      · exact (Spares.unexpected _ _).refusesAmong _
    · refine (Declaration.refusesAmong_read (bound + 1) above behind).bind ?_
      rintro ⟨d, after⟩ hread
      obtain ⟨pre, rfl, -⟩ := Declaration.read_reads (bound + 1) habove hread
      exact (((ih after).append_left pre).append_left above).bind fun _ _ ↦
        (Spares.ok _).refusesAmong _

/-! ### Places of lexemes -/

/-- What was gathered stands where the tokens do that it was gathered from. -/
theorem Lexeme.places_of_gather (before : Option Token) (pending : List Comment)
    (tokens : List Token) :
    (∀ l ∈ (gather before pending tokens).1, ∃ t ∈ tokens, l.position = t.start.toPosition) ∧
      ∀ c ∈ (gather before pending tokens).1.flatMap comments,
        c ∈ pending ∨ ∃ t ∈ tokens, c.position = t.start.toPosition := by
  induction tokens generalizing before pending with
  | nil => exact ⟨by simp [gather], by simp [gather]⟩
  | cons t tokens ih =>
    have hbehind : ∀ {p : Position}, (∃ u ∈ tokens, p = u.start.toPosition) →
        ∃ u ∈ t :: tokens, p = u.start.toPosition := by
      rintro p ⟨u, hu, hp⟩
      exact ⟨u, List.mem_cons_of_mem t hu, hp⟩
    cases hkind : t.kind.isComment with
    | true =>
      obtain ⟨text, htext⟩ := TokenKind.exists_eq_comment hkind
      rw [gather_comment htext]
      split
      · obtain ⟨hlexemes, hcomments⟩ := ih before pending
        exact ⟨fun l hl ↦ hbehind (hlexemes l hl), fun c hc ↦ (hcomments c hc).imp_right hbehind⟩
      · obtain ⟨hlexemes, hcomments⟩ := ih before (pending ++ [⟨text, t.start.toPosition⟩])
        refine ⟨fun l hl ↦ hbehind (hlexemes l hl), fun c hc ↦ ?_⟩
        rcases hcomments c hc with hpending | hplaced
        · rcases List.mem_append.1 hpending with hpending | hcomment
          · exact Or.inl hpending
          · rw [List.mem_singleton.1 hcomment]
            exact Or.inr ⟨t, List.mem_cons_self, rfl⟩
        · exact Or.inr (hbehind hplaced)
    | false =>
      obtain ⟨hlexemes, hcomments⟩ := ih (some t) []
      rw [gather_cons hkind]
      refine ⟨List.forall_mem_cons.2 ⟨⟨t, List.mem_cons_self, rfl⟩, fun l hl ↦
        hbehind (hlexemes l hl)⟩, fun c hc ↦ ?_⟩
      rw [List.flatMap_cons, List.mem_append, comments, List.mem_append] at hc
      rcases hc with (hleading | htrailing) | hlater
      · exact Or.inl hleading
      · obtain ⟨u, hu, -, hplace⟩ := trailingComment_eq_some (Option.mem_toList.1 htrailing)
        exact Or.inr (hbehind ⟨u, hu, hplace⟩)
      · exact Or.inr (hbehind ((hcomments c hlater).resolve_left (by simp)))

/-- A text whose tokens can be read is rejected at the place of one of its tokens, unless it is
rejected at its end. Then it has tokens. -/
theorem Signature.eq_of_failure {source : String} {tokens : List Token} {e : SyntaxError}
    (h : Token.tokenize source = .ok tokens) (herror : Signature.parse source = .error e) :
    (∃ t ∈ tokens, e.position = t.start.toPosition ∧
      ∀ wanted, e.cause ≠ .unexpectedToken wanted none) ∨
    ∃ wanted, tokens ≠ [] ∧ e = ⟨Document.endingOf tokens, .unexpectedToken wanted none⟩ := by
  obtain ⟨failure, hread, rfl⟩ := (parse_eq_error_iff h).1 herror
  obtain ⟨hlexemes, hcomments⟩ := Lexeme.places_of_gather none [] tokens
  -- a failure is at the end, at a lexeme that is left to a reader, or a comment that is refused
  rcases failure with ⟨wanted, - | l⟩ | c
  · refine Or.inr ⟨wanted, ?_, rfl⟩
    rintro rfl
    cases hread
  · obtain ⟨pre, rest, hpre, -⟩ :=
      (Declaration.readRest_predicts _ 0).failure (Nat.le_refl _) hread
    obtain ⟨t, ht, hplace⟩ := hlexemes l (hpre ▸ List.mem_append_right _ List.mem_cons_self)
    exact Or.inl ⟨t, ht, hplace, by simp [Failure.toSyntaxError]⟩
  · rw [Declaration.readRest] at hread
    have hmem : c ∈ (Lexeme.gather none [] tokens).1.flatMap Lexeme.comments :=
      ((Declaration.refusesAmong_readAll _ _).bind fun _ _ ↦ (Spares.ok _).refusesAmong _) c hread
    obtain ⟨t, ht, hplace⟩ := (hcomments c hmem).resolve_left (by simp)
    exact Or.inl ⟨t, ht, hplace, by simp [Failure.toSyntaxError]⟩

end ModelSignatures
