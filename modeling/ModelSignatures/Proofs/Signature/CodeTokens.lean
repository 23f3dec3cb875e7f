import ModelSignatures.Proofs.Signature.Members

/-!
# The tokens of code

Code is put together from words and symbols, and every `::` in it stands in front of a word. So a
property of token lists that concatenation keeps need only be checked on single tokens and on a `::`
with its word (`CodeClosed`) to hold of all code that spells something.
-/

namespace ModelSignatures

/-- A property of token lists that all code has. -/
structure CodeClosed (P : List TokenKind → Prop) : Prop where
  nil : P []
  append : ∀ {ks more}, P ks → P more → P (ks ++ more)
  word : ∀ text, P [.word text]
  symbol : ∀ s, s ≠ .colonColon → P [.symbol s]
  qualified : ∀ text, P [.symbol .colonColon, .word text]

namespace CodeClosed

variable {P : List TokenKind → Prop} (hP : CodeClosed P) {ks : List TokenKind}
include hP

/-- A property of code is kept by a word in front. -/
theorem word_cons (text : String) (h : P ks) : P (.word text :: ks) :=
  hP.append (hP.word text) h

/-- It is kept by a symbol in front that is no `::`. -/
theorem symbol_cons {s : Symbol} (hs : s ≠ .colonColon) (h : P ks) : P (.symbol s :: ks) :=
  hP.append (hP.symbol s hs) h

/-- Further segments of a name have it. -/
theorem scopes (segments : List String) :
    P (segments.flatMap fun segment ↦ [.symbol .colonColon, .word segment]) := by
  induction segments with
  | nil => exact hP.nil
  | cons segment segments ih => exact hP.append (hP.qualified segment) ih

/-- Names have it. -/
theorem kinds {name : TypeName} (hname : name.path ≠ []) : P name.kinds := by
  obtain ⟨absolute, path⟩ := name
  cases path with
  | nil => exact absurd rfl hname
  | cons first others =>
    cases absolute with
    | false => exact hP.word_cons first (hP.scopes others)
    | true =>
      have hall := hP.append (hP.qualified first) (hP.scopes others)
      exact hall

/-! ### Types -/

/-- Types of every form have it, by induction on how they are spelled. -/
theorem types {form : TypeForm} (h : form.Spells ks) : P ks := by
  induction h with
  | base b => exact hP.word _
  | group _ ih =>
    exact hP.symbol_cons (by decide) (hP.append ih (hP.symbol _ (by decide)))
  | aliasRef nonempty => exact hP.kinds nonempty
  | classRef nonempty _ _ _ ih => exact hP.append (hP.kinds nonempty) ih
  | plain _ ih => exact ih
  | marked _ ih => exact hP.append ih (hP.symbol _ (by decide))
  | union _ _ ih ihmore => exact hP.append ih ihmore
  | noAlternative | noArgs | noMoreArgs => exact hP.nil
  | alternative _ _ ih ihmore | moreArgs _ _ ih ihmore =>
    exact hP.symbol_cons (by decide) (hP.append ih ihmore)
  | args _ _ ih ihmore =>
    exact hP.symbol_cons (by decide)
      (hP.append (hP.append ih ihmore) (hP.symbol _ (by decide)))

/-- The names of classes with arguments have it. -/
theorem classType {c : ClassType} (h : c.Spells ks) : P ks := by
  obtain ⟨nonempty, spelled⟩ := h
  exact hP.append (hP.kinds nonempty) (hP.types spelled)

/-! ### Methods -/

/-- What is repeated behind a separator has it, if the items do. -/
theorem repeated {α : Type} {separator : Symbol} {Q : α → List TokenKind → Prop}
    (hseparator : separator ≠ .colonColon) (hitem : ∀ {x ks}, Q x ks → P ks) {xs : List α}
    (h : Repeated separator Q xs ks) : P ks := by
  induction h with
  | nil => exact hP.nil
  | cons head _ ih => exact hP.symbol_cons hseparator (hP.append (hitem head) ih)

/-- The marks of parameters have it. -/
theorem paramKind (kind : ParamKind) : P kind.kinds := by
  cases kind with
  | required => exact hP.nil
  | optional | rest | keywordRest => exact hP.symbol _ (by decide)
  | requiredKeyword key => exact hP.word_cons key (hP.symbol _ (by decide))
  | optionalKeyword key =>
    exact hP.symbol_cons (by decide) (hP.word_cons key (hP.symbol _ (by decide)))

/-- Parameters have it. -/
theorem param {p : Param} (h : p.Spells ks) : P ks := by
  obtain @⟨kind, type, name, ks, spelled⟩ := h
  refine hP.append (hP.paramKind kind) (hP.append (hP.types spelled) ?_)
  cases name with
  | none => exact hP.nil
  | some text => exact hP.word text

/-- Overloads have it. -/
theorem overload {o : Overload} (h : o.Spells ks) : P ks := by
  obtain ⟨listed, spelled⟩ := h
  refine hP.symbol_cons (by decide) (hP.append ?_ (hP.symbol_cons (by decide)
    (hP.symbol_cons (by decide) (hP.types spelled))))
  cases listed with
  | nil => exact hP.nil
  | cons head tail => exact hP.append (hP.param head) (hP.repeated (by decide) hP.param tail)

/-- The names of methods have it. -/
theorem name {text : String} {ps : List Piece} (h : Method.NameSpells text ps) :
    P (ps.map Piece.kind) := by
  cases h with
  | plain text => exact hP.word text
  | @suffixed stem glued s c suffix =>
    refine hP.word_cons stem (hP.symbol s ?_)
    rintro rfl
    cases suffix

/-- Methods have it. -/
theorem method {m : Method} {ps : List Piece} (h : m.Spells ps) : P (ps.map Piece.kind) := by
  obtain @⟨_, singleton, _, _, _, _, _, _, _, marked, named, spelled, others, typed⟩ := h
  rw [List.map_append, List.map_append, marked, typed]
  refine hP.append ?_ (hP.append (hP.name named) (hP.symbol_cons (by decide)
    (hP.append (hP.overload spelled) (hP.repeated (by decide) hP.overload others))))
  cases singleton with
  | false => exact hP.nil
  | true => exact hP.word_cons _ (hP.symbol _ (by decide))

/-! ### Members and headers -/

/-- Members of one line have it. -/
theorem member {content : MemberContent} {ps : List Piece} (h : content.Spells ps) :
    P (ps.map Piece.kind) := by
  cases h with
  | including head spelled | extending head spelled =>
    rw [List.map_cons, head]
    exact hP.word_cons _ (hP.classType spelled)
  | attr head named spelled typed =>
    rw [List.map_cons, List.map_append, head, typed]
    exact hP.word_cons _ (hP.append (hP.name named)
      (hP.symbol_cons (by decide) (hP.types spelled)))
  | method head spelled =>
    rw [List.map_cons, head]
    exact hP.word_cons _ (hP.method spelled)
  | aliasing head new old =>
    rw [List.map_cons, List.map_append, head]
    exact hP.word_cons _ (hP.append (hP.name new) (hP.name old))

/-- Headers have it. -/
theorem header {kind : DeclarationKind} {name : TypeName}
    (h : DeclarationKind.Spells kind name ks) : P ks := by
  cases h with
  | plainClass nonempty | ofModule nonempty => exact hP.word_cons _ (hP.kinds nonempty)
  | subclass nonempty spelled =>
    exact hP.word_cons _ (hP.append (hP.kinds nonempty)
      (hP.symbol_cons (by decide) (hP.classType spelled)))

end CodeClosed

/-! ### Scopes -/

/-- Whether every `::` stands in front of a word. -/
def ScopesNamed : List TokenKind → Prop
  | [] => True
  | .symbol .colonColon :: ks => (∃ text, ks.head? = some (.word text)) ∧ ScopesNamed ks
  | _ :: ks => ScopesNamed ks

/-- Where every `::` of two lists has its word, every `::` of both together does. -/
theorem scopesNamed_append {ks more : List TokenKind} (hks : ScopesNamed ks)
    (hmore : ScopesNamed more) : ScopesNamed (ks ++ more) := by
  fun_induction ScopesNamed ks with
  | case1 => exact hmore
  | case2 ks ih =>
    obtain ⟨⟨text, htext⟩, hrest⟩ := hks
    refine ⟨⟨text, ?_⟩, ih hrest⟩
    show (ks ++ more).head? = _
    rw [List.head?_append, htext]
    rfl
  | case3 kind ks hne ih =>
    rw [List.cons_append]
    cases kind with
    | symbol s =>
      cases s with
      | colonColon => exact absurd rfl hne
      | _ => exact ih hks
    | _ => exact ih hks

/-- That every `::` has its word is a property of code. -/
theorem codeClosed_scopesNamed : CodeClosed ScopesNamed where
  nil := trivial
  append := scopesNamed_append
  word _ := trivial
  symbol s hs := by
    cases s with
    | colonColon => exact absurd rfl hs
    | _ => trivial
  qualified text := ⟨⟨text, rfl⟩, trivial⟩

/-- No two `::` stand side by side where each has its word. -/
theorem ScopesNamed.not_infix {ks : List TokenKind} (h : ScopesNamed ks) :
    ¬[.symbol .colonColon, .symbol .colonColon] <:+: ks := by
  rintro ⟨pre, post, rfl⟩
  rw [List.append_assoc] at h
  induction pre with
  | nil =>
    obtain ⟨⟨text, htext⟩, -⟩ := h
    cases htext
  | cons kind pre ih =>
    refine ih ?_
    cases kind with
    | symbol s =>
      cases s with
      | colonColon => exact h.2
      | _ => exact h
    | _ => exact h

end ModelSignatures
