import ModelSignatures.Proofs.Layout.Code

/-!
# Types made of words

A type whose names are made of words is written as code, whatever else is wrong with it: the tokens
of its layout can be told apart (`TypeExpr.Legible.isCodeBefore`), even if they are not read as the
type. A name without a segment is written as nothing.
-/

namespace ModelSignatures

open Layout (tokens word symbol chars EndsWord IsCodeBefore endsWord_cons isCodeBefore_nil
  isCodeBefore_word isCodeBefore_symbol)

/-- Whether all segments of a name are words. -/
def TypeName.Legible (name : TypeName) : Prop :=
  ∀ segment ∈ name.path, IsWord segment

/-- A type whose names are made of words. -/
inductive TypeExpr.Legible : TypeExpr → Prop
  | base (b : BaseType) : Legible (.base b)
  | classRef {name : TypeName} {args : List TypeExpr} (named : name.Legible)
      (applied : ∀ t ∈ args, Legible t) : Legible (.classRef name args)
  | aliasRef {name : TypeName} (named : name.Legible) : Legible (.aliasRef name)
  | optional {t : TypeExpr} (operand : Legible t) : Legible (.optional t)
  | union {ts : List TypeExpr} (members : ∀ t ∈ ts, Legible t) : Legible (.union ts)

/-- A class or module name with its arguments, made of words. -/
structure ClassType.Legible (c : ClassType) : Prop where
  named : c.name.Legible
  applied : ∀ t ∈ c.args, t.Legible

/-! ### Layouts -/

namespace TypeName

/-- A name is told apart in front of all that does not continue a word. -/
theorem Legible.isCodeBefore {name : TypeName} (h : name.Legible) {after : List Char}
    (hafter : EndsWord after) : IsCodeBefore name.layout after := by
  refine IsCodeBefore.append ?_ (Layout.isCodeBefore_intercalate (fun item hitem after hafter ↦ ?_)
    (fun after ↦ ?_) (fun after ↦ ?_) hafter)
  · split
    · exact isCodeBefore_symbol (by decide) _
    · exact isCodeBefore_nil _
  · obtain ⟨segment, hsegment, rfl⟩ := List.mem_map.1 hitem
    exact isCodeBefore_word (h segment hsegment) hafter
  · exact isCodeBefore_symbol (by decide) _
  · exact endsWord_cons (by decide) _

end TypeName

namespace TypeExpr

theorem isWord_keyword (b : BaseType) : IsWord b.keyword := by
  cases b <;> decide

/-- A name with arguments is told apart, as long as each argument is. -/
theorem isCodeBefore_layoutApplied {name : TypeName} (hname : name.Legible)
    {args : List Layout} (hargs : ∀ item ∈ args, ∀ after, EndsWord after → IsCodeBefore item after)
    {after : List Char} (hafter : EndsWord after) :
    IsCodeBefore (name.layoutApplied args) after := by
  rw [TypeName.layoutApplied]
  split
  · exact hname.isCodeBefore hafter
  · refine (((hname.isCodeBefore ?_).append (isCodeBefore_symbol (by decide) _)).append
      (Layout.isCodeBefore_commaSeparated hargs (endsWord_cons (by decide)) ?_)).append
      (isCodeBefore_symbol (by decide) _)
    · exact endsWord_cons (by decide) _
    · exact endsWord_cons (by decide) _

/-- Parentheses, where they are needed, leave a type told apart as before. -/
theorem isCodeBefore_parenthesizedAt {layout : Layout}
    (h : ∀ after, EndsWord after → IsCodeBefore layout after) (level : Nat) {after : List Char}
    (hafter : EndsWord after) : IsCodeBefore (Layout.parenthesizedAt level layout) after := by
  rw [Layout.parenthesizedAt]
  split
  · exact h after hafter
  · exact ((isCodeBefore_symbol (by decide) _).append (h _ (endsWord_cons (by decide) _))).append
      (isCodeBefore_symbol (by decide) _)

/-- A type that may be missing is written with a `?` behind the operand, unless the operand may be
missing itself. -/
theorem layout_optional {t : TypeExpr} (h : ∀ u, t ≠ .optional u) (level : Nat) :
    (TypeExpr.optional t).layout level = t.layout 1 ++ symbol .question := by
  rw [TypeExpr.layout]
  exact h

/-- What is written for an optional type, which is what is written for its operand if that is
optional already. -/
theorem layout_optional_cases (t : TypeExpr) (level : Nat) :
    ((TypeExpr.optional t).layout level = t.layout level) ∨
      (TypeExpr.optional t).layout level = t.layout 1 ++ symbol .question := by
  cases t with
  | optional u =>
    left
    rw [TypeExpr.layout]
  | _ => exact Or.inr (layout_optional (by simp) level)

/-- A type is told apart at every level, in front of all that does not continue a word. -/
theorem Legible.isCodeBefore {t : TypeExpr} (h : t.Legible) (level : Nat) {after : List Char}
    (hafter : EndsWord after) : IsCodeBefore (t.layout level) after := by
  induction h generalizing level after with
  | base b =>
    rw [TypeExpr.layout]
    exact isCodeBefore_word (isWord_keyword b) hafter
  | classRef named _ ih =>
    rw [TypeExpr.layout, layouts_eq_map]
    refine isCodeBefore_layoutApplied named (fun item hitem after hafter ↦ ?_) hafter
    obtain ⟨t, ht, rfl⟩ := List.mem_map.1 hitem
    exact ih t ht 0 hafter
  | aliasRef named =>
    rw [TypeExpr.layout]
    exact named.isCodeBefore hafter
  | @optional t _ ih =>
    rcases t.layout_optional_cases level with h | h <;> rw [h]
    · exact ih level hafter
    · exact (ih 1 (endsWord_cons (by decide) _)).append (isCodeBefore_symbol (by decide) _)
  | union _ ih =>
    rw [TypeExpr.layout, layouts_eq_map]
    refine isCodeBefore_parenthesizedAt (fun after hafter ↦ ?_) level hafter
    refine Layout.isCodeBefore_intercalate (fun item hitem after hafter ↦ ?_) (fun after ↦ ?_)
      (fun after ↦ ?_) hafter
    · obtain ⟨t, ht, rfl⟩ := List.mem_map.1 hitem
      exact ih t ht 1 hafter
    · exact ⟨⟨rfl, trivial⟩, ⟨trivial, trivial, trivial⟩⟩
    · exact endsWord_cons (by decide) _

end TypeExpr

/-- A superclass is told apart in front of all that does not continue a word. -/
theorem ClassType.Legible.isCodeBefore {c : ClassType} (h : c.Legible) {after : List Char}
    (hafter : EndsWord after) : IsCodeBefore c.layout after := by
  rw [ClassType.layout, TypeExpr.layouts_eq_map]
  refine TypeExpr.isCodeBefore_layoutApplied h.named (fun item hitem after hafter ↦ ?_) hafter
  obtain ⟨t, ht, rfl⟩ := List.mem_map.1 hitem
  exact (h.applied t ht).isCodeBefore 0 hafter

/-! ### Items inside a line -/

/-- Whether code may have such a token: a word or a symbol. -/
def TokenKind.InCode : TokenKind → Prop
  | word text => IsWord text
  | symbol _ => True
  | annot _ | comment _ => False

/-- Whether a type may have such a token: a word or a symbol that is no star. -/
def TokenKind.InTypes : TokenKind → Prop
  | word text => IsWord text
  | symbol s => s ∉ [.star, .starStar]
  | annot _ | comment _ => False

instance : DecidablePred TokenKind.InTypes
  | .word text => inferInstanceAs (Decidable (IsWord text))
  | .symbol s => inferInstanceAs (Decidable (s ∉ [.star, .starStar]))
  | .annot _ | .comment _ => .isFalse id

/-- What types are made of may stand in code. -/
theorem TokenKind.InTypes.inCode {kind : TokenKind} (h : kind.InTypes) : kind.InCode := by
  cases kind with
  | word text => exact h
  | symbol s => trivial
  | annot text | comment text => exact h

namespace Layout

/-- Whether an item goes on with a line, and `P` holds of it if it is a token. -/
def Item.Inline (P : TokenKind → Prop) : Item → Prop
  | space => True
  | token kind => P kind
  | line _ | blank => False

/-- Whether a layout goes on with a line, and `P` holds of its tokens. -/
def Inline (P : TokenKind → Prop) (layout : Layout) : Prop :=
  ∀ item ∈ layout, item.Inline P

variable {P Q : TokenKind → Prop} {first second layout : Layout}

theorem inline_nil : Inline P [] := List.forall_mem_nil _

theorem inline_space : Inline P [.space] := List.forall_mem_singleton.2 trivial

theorem inline_token {kind : TokenKind} (h : P kind) : Inline P [.token kind] :=
  List.forall_mem_singleton.2 h

/-- Layouts inside a line stay inside it one behind the other. -/
theorem Inline.append (hfirst : Inline P first) (hsecond : Inline P second) :
    Inline P (first ++ second) :=
  List.forall_mem_append.2 ⟨hfirst, hsecond⟩

/-- What holds of fewer tokens holds of more. -/
theorem Inline.mono (h : Inline P layout) (hPQ : ∀ kind, P kind → Q kind) : Inline Q layout := by
  intro item hitem
  have hinline := h item hitem
  cases item with
  | token kind => exact hPQ kind hinline
  | _ => exact hinline

/-- Items with a separator between them stay inside a line if the separator does. -/
theorem inline_intercalate {separator : Layout} (hseparator : Inline P separator)
    {items : List Layout} (hitems : ∀ item ∈ items, Inline P item) :
    Inline P (separator.intercalate items) := by
  cases items with
  | nil => exact inline_nil
  | cons first others =>
    rw [List.forall_mem_cons] at hitems
    rw [intercalate_cons]
    refine hitems.1.append fun item hitem ↦ ?_
    obtain ⟨layout, hlayout, hitem⟩ := List.mem_flatMap.1 hitem
    exact (hseparator.append (hitems.2 layout hlayout)) item hitem

theorem Inline.tokens (h : Inline P layout) : ∀ kind ∈ tokens layout, P kind := by
  intro kind hkind
  obtain ⟨item, hitem, heq⟩ := List.mem_filterMap.1 hkind
  cases item with
  | token kind' =>
    cases heq
    exact h _ hitem
  | _ => cases heq

/-- A character other than a space that no token has is not in a layout that goes on with a line. -/
theorem Inline.not_mem_chars (h : Inline P layout) {c : Char} (hc : c ≠ ' ')
    (hP : ∀ kind, P kind → c ∉ kind.spelling) : c ∉ chars layout := by
  intro hmem
  obtain ⟨item, hitem, hmem⟩ := List.mem_flatMap.1 hmem
  have hinline := h item hitem
  cases item with
  | token kind => exact hP kind hinline hmem
  | space => exact hc (List.mem_singleton.1 hmem)
  | line indent | blank => exact hinline

end Layout

open Layout (Inline inline_nil inline_space inline_token inline_intercalate)

theorem Layout.inline_word {text : String} (h : IsWord text) :
    Inline TokenKind.InCode (word text) :=
  inline_token h

theorem Layout.inline_symbol (s : Symbol) : Inline TokenKind.InCode (symbol s) :=
  inline_token trivial

/-- A word does not contain what no word has. -/
theorem not_mem_of_isWord {text : String} (h : IsWord text) {c : Char} (hc : isWordChar c = false) :
    c ∉ text.toList := by
  intro hmem
  rw [h.2 c hmem] at hc
  cases hc

/-- No line break is spelled inside code. -/
theorem TokenKind.InCode.newline_not_mem {kind : TokenKind} (h : kind.InCode) :
    '\n' ∉ kind.spelling := by
  cases kind with
  | word text => exact not_mem_of_isWord h (by decide)
  | symbol s => cases s <;> decide
  | annot text | comment text => exact h.elim

/-- No star is spelled inside a type, so none of its symbols is one of two stars. -/
theorem TokenKind.InTypes.star_not_mem {kind : TokenKind} (h : kind.InTypes) :
    '*' ∉ kind.spelling := by
  cases kind with
  | word text => exact not_mem_of_isWord h (by decide)
  | symbol s => cases s <;> simp_all [InTypes, spelling, Symbol.spelling]
  | annot text | comment text => exact h.elim

/-- A name stays on its line. -/
theorem TypeName.Legible.inline {name : TypeName} (h : name.Legible) :
    Inline TokenKind.InTypes name.layout := by
  refine Layout.Inline.append ?_ (inline_intercalate (inline_token (by decide)) fun item hitem ↦ ?_)
  · split
    · exact inline_token (by decide)
    · exact inline_nil
  · obtain ⟨segment, hsegment, rfl⟩ := List.mem_map.1 hitem
    exact inline_token (h segment hsegment)

namespace TypeExpr

/-- A name with arguments stays on its line. -/
theorem inline_layoutApplied {name : TypeName} (hname : name.Legible) {args : List Layout}
    (hargs : ∀ item ∈ args, Inline TokenKind.InTypes item) :
    Inline TokenKind.InTypes (name.layoutApplied args) := by
  rw [TypeName.layoutApplied]
  split
  · exact hname.inline
  · have hcomma : Inline TokenKind.InTypes [.token (.symbol .comma), .space] :=
      (inline_token (by decide)).append inline_space
    exact ((hname.inline.append (inline_token (by decide))).append
      (inline_intercalate hcomma hargs)).append (inline_token (by decide))

/-- A type stays on its line at every level. -/
theorem Legible.inline {t : TypeExpr} (h : t.Legible) (level : Nat) :
    Inline TokenKind.InTypes (t.layout level) := by
  induction h generalizing level with
  | base b =>
    rw [TypeExpr.layout]
    exact inline_token (isWord_keyword b)
  | classRef named _ ih =>
    rw [TypeExpr.layout, layouts_eq_map]
    refine inline_layoutApplied named fun item hitem ↦ ?_
    obtain ⟨t, ht, rfl⟩ := List.mem_map.1 hitem
    exact ih t ht 0
  | aliasRef named =>
    rw [TypeExpr.layout]
    exact named.inline
  | @optional t _ ih =>
    rcases t.layout_optional_cases level with h | h <;> rw [h]
    · exact ih level
    · exact (ih 1).append (inline_token (by decide))
  | @union ts _ ih =>
    have hbar : Inline TokenKind.InTypes [.space, .token (.symbol .pipe), .space] :=
      (inline_space.append (inline_token (by decide))).append inline_space
    have hmembers : Inline TokenKind.InTypes
        ([.space, .token (.symbol .pipe), .space].intercalate (layouts ts 1)) := by
      rw [layouts_eq_map]
      refine inline_intercalate hbar fun item hitem ↦ ?_
      obtain ⟨t, ht, rfl⟩ := List.mem_map.1 hitem
      exact ih t ht 1
    rw [TypeExpr.layout, Layout.parenthesizedAt]
    split
    · exact hmembers
    · exact ((inline_token (by decide)).append hmembers).append (inline_token (by decide))

/-- No star stands in a type, so none in front of it can be taken for two. -/
theorem Legible.star_not_mem {t : TypeExpr} (h : t.Legible) (level : Nat) :
    '*' ∉ chars (t.layout level) :=
  (h.inline level).not_mem_chars (by decide) fun _ hkind ↦ hkind.star_not_mem

end TypeExpr

/-- A superclass stays on its line. -/
theorem ClassType.Legible.inline {c : ClassType} (h : c.Legible) :
    Inline TokenKind.InTypes c.layout := by
  rw [ClassType.layout, TypeExpr.layouts_eq_map]
  refine TypeExpr.inline_layoutApplied h.named fun item hitem ↦ ?_
  obtain ⟨t, ht, rfl⟩ := List.mem_map.1 hitem
  exact (h.applied t ht).inline 0

end ModelSignatures
