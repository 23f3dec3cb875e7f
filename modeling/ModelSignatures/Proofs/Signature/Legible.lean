import ModelSignatures.Signature.Layout
import ModelSignatures.Proofs.Signature.WellFormed

/-!
# Signatures made of words

A signature is legible if its names are words, its methods can be called and its comments fit on
their lines, whatever else is wrong with it. The tokens of its layout can be told apart, even where
they are not read as the signature. Readability of a layout is checked entry by entry: the code of a
member or of a header first, then the lines around it, with an induction on declarations inside
declarations.
-/

namespace ModelSignatures

open Layout (tokens word symbol chars EndsWord IsCodeBefore endsWord_cons isCodeBefore_nil
  isCodeBefore_space isCodeBefore_word isCodeBefore_symbol isCodeBefore_colon isCodeBefore_star
  entry EndsLine OpensLine opensLine_entry readable_append readable_entry)

/-! ### Legible trees -/

/-- A parameter whose names are words. -/
structure Param.Legible (p : Param) : Prop where
  kind : p.kind.WellFormed
  type : p.type.Legible
  name : ∀ text ∈ p.name, IsWord text

/-- A way to call a method, made of words. -/
structure Overload.Legible (o : Overload) : Prop where
  params : ∀ p ∈ o.params, p.Legible
  result : o.result.Legible

/-- A method that can be called in some way, made of words. -/
structure Method.Legible (m : Method) : Prop where
  name : IsMethodName m.name
  callable : m.overloads ≠ []
  overloads : ∀ o ∈ m.overloads, o.Legible

/-- Whether the superclass, if there is one, is made of words. -/
def DeclarationKind.Legible : DeclarationKind → Prop
  | ofClass superclass => ∀ c ∈ superclass, c.Legible
  | ofModule => True

mutual

/-- A member's content that is made of words. -/
def MemberContent.Legible : MemberContent → Prop
  | .including mixin | .extending mixin => mixin.Legible
  | .attr _ name type => IsMethodName name ∧ type.Legible
  | .method m => m.Legible
  | .aliasing newName oldName => IsMethodName newName ∧ IsMethodName oldName
  | .nested d => d.Legible

/-- A member made of words whose comments can be written. -/
def Member.Legible : Member → Prop
  | ⟨content, comments, _, lineComment, _⟩ =>
    content.Legible ∧ AreCommentTexts comments ∧ ∀ text ∈ lineComment, IsCommentText text

/-- A declaration made of words whose comments can be written. -/
def Declaration.Legible : Declaration → Prop
  | ⟨kind, name, comments, _, headerComment, members, trailingComments, endComment⟩ =>
    kind.Legible ∧ name.Legible ∧ AreCommentTexts comments ∧
      (∀ text ∈ headerComment, IsCommentText text) ∧ Member.AllLegible members ∧
      AreCommentTexts trailingComments ∧ ∀ text ∈ endComment, IsCommentText text

/-- Some members made of words whose comments can be written. -/
def Member.AllLegible : List Member → Prop
  | [] => True
  | m :: ms => m.Legible ∧ Member.AllLegible ms

end

theorem Member.allLegible_iff {ms : List Member} :
    Member.AllLegible ms ↔ ∀ m ∈ ms, m.Legible := by
  induction ms with
  | nil => simp [Member.AllLegible]
  | cons m ms ih => rw [Member.AllLegible, ih, List.forall_mem_cons]

/-- A signature made of words whose comments can be written. -/
structure Signature.Legible (s : Signature) : Prop where
  declarations : ∀ d ∈ s.declarations, d.Legible
  trailingComments : AreCommentTexts s.trailingComments

/-! ### What is well formed is legible -/

theorem Param.WellFormed.legible {p : Param} (h : p.WellFormed) : p.Legible :=
  ⟨h.kind, h.type.legible, h.name⟩

theorem Overload.WellFormed.legible {o : Overload} (h : o.WellFormed) : o.Legible where
  params p hp := (h.params p hp).legible
  result := h.result.legible

theorem Method.WellFormed.legible {m : Method} (h : m.WellFormed) : m.Legible where
  name := h.name
  callable := h.callable
  overloads o ho := (h.overloads o ho).legible

/-- A header with well-formed parts can be told apart from what stands around it. -/
theorem DeclarationKind.WellFormed.legible {kind : DeclarationKind} (h : kind.WellFormed) :
    kind.Legible := by
  cases kind with
  | ofClass superclass => exact fun c hc ↦ (h c hc).legible
  | ofModule => trivial

/-- A member is legible if what is declared inside it is: only this case needs the induction over
nested declarations. -/
theorem MemberContent.WellFormed.legible_of_nested {content : MemberContent}
    (h : content.WellFormed) (hnested : ∀ e, content = .nested e → e.WellFormed → e.Legible) :
    content.Legible := by
  cases content with
  | including mixin | extending mixin =>
    rw [MemberContent.WellFormed] at h
    rw [MemberContent.Legible]
    exact ClassType.WellFormed.legible h
  | attr kind name type =>
    rw [MemberContent.WellFormed] at h
    rw [MemberContent.Legible]
    exact ⟨h.1, h.2.legible⟩
  | method m =>
    rw [MemberContent.WellFormed] at h
    rw [MemberContent.Legible]
    exact Method.WellFormed.legible h
  | aliasing newName oldName =>
    rw [MemberContent.WellFormed] at h
    rw [MemberContent.Legible]
    exact h
  | nested d =>
    rw [MemberContent.WellFormed] at h
    rw [MemberContent.Legible]
    exact hnested d rfl h.2.2

/-- What is well formed can be written and told apart again, at any depth. -/
theorem Declaration.WellFormed.legible {d : Declaration} : d.WellFormed → d.Legible := by
  induction d using Declaration.induction with
  | step d ih =>
    intro h
    obtain ⟨kind, name, own, ownAnnots, headerComment, members, trailingComments, endComment⟩ := d
    rw [Declaration.WellFormed, Member.allWellFormed_iff] at h
    obtain ⟨hkind, hname, hown, hheader, hmembers, -, htrailing, hend⟩ := h
    rw [Declaration.Legible, Member.allLegible_iff]
    refine ⟨hkind.legible, hname.legible, hown, hheader, fun m hm ↦ ?_, htrailing, hend⟩
    have hm' := hmembers m hm
    replace ih := ih m hm
    obtain ⟨content, comments, annots, comment, blankBefore⟩ := m
    rw [Member.WellFormed] at hm'
    rw [Member.Legible]
    exact ⟨hm'.1.legible_of_nested ih, hm'.2.1, hm'.2.2.1⟩

theorem MemberContent.WellFormed.legible {content : MemberContent} (h : content.WellFormed) :
    content.Legible :=
  h.legible_of_nested fun _ _ he ↦ he.legible

theorem Member.WellFormed.legible {m : Member} (h : m.WellFormed) : m.Legible := by
  obtain ⟨content, comments, annots, comment, blankBefore⟩ := m
  rw [Member.WellFormed] at h
  rw [Member.Legible]
  exact ⟨h.1.legible, h.2.1, h.2.2.1⟩

/-- The shape alone makes a text legible; the annotations are not asked to be well formed. -/
theorem Signature.WellShaped.legible {s : Signature} (h : s.WellShaped) : s.Legible where
  declarations d hd := (h.declarations d hd).legible
  trailingComments := h.trailingComments

/-! ### Names of methods -/

namespace Layout

/-- A name that is a word is written as one token. -/
theorem methodName_of_isWord {name : String} (h : IsWord name) : methodName name = word name := by
  have hlast : ∀ c ∈ name.toList.getLast?, isWordChar c = true :=
    fun c hc ↦ h.2 c (List.mem_of_getLast? hc)
  unfold methodName
  split
  next hc => exact absurd (hlast _ hc) (by decide)
  next hc => exact absurd (hlast _ hc) (by decide)
  next hc => exact absurd (hlast _ hc) (by decide)
  · rfl

/-- A name with a suffix is written as two tokens, of which the second touches the first. -/
theorem methodName_push {s : Symbol} {c : Char} (h : Method.suffixChar? s = some c)
    (stem : String) : methodName (stem.push c) = word stem ++ symbol s := by
  cases s <;> cases h <;> simp [methodName, String.toList_push]

/-- The suffixes of methods are symbols that end a word and are not taken into longer ones. -/
theorem exists_suffixChar? {c : Char} (hc : c ∈ ['?', '!', '=']) :
    ∃ s, Method.suffixChar? s = some c ∧ s ∉ [Symbol.colon, .star] ∧
      ∀ cs, EndsWord (s.spelling ++ cs) := by
  simp only [List.mem_cons, List.not_mem_nil, or_false] at hc
  rcases hc with rfl | rfl | rfl
  · exact ⟨.question, rfl, by decide, endsWord_cons (by decide)⟩
  · exact ⟨.bang, rfl, by decide, endsWord_cons (by decide)⟩
  · exact ⟨.equals, rfl, by decide, endsWord_cons (by decide)⟩

/-- The name of a method is told apart in front of all that does not continue a word. -/
theorem isCodeBefore_methodName {name : String} (h : IsMethodName name) {after : List Char}
    (hafter : EndsWord after) : IsCodeBefore (methodName name) after := by
  rcases h with hword | ⟨stem, c, hword, hc, rfl⟩
  · rw [methodName_of_isWord hword]
    exact isCodeBefore_word hword hafter
  · obtain ⟨s, hs, hsymbol, hends⟩ := exists_suffixChar? hc
    rw [methodName_push hs]
    refine (isCodeBefore_word hword ?_).append (isCodeBefore_symbol hsymbol after)
    rw [symbol, chars_cons, chars_nil, List.append_nil]
    exact hends after

/-- A method's name is written as itself. -/
theorem chars_methodName (name : String) : chars (methodName name) = name.toList := by
  have hstem : ∀ {c : Char}, name.toList.getLast? = some c →
      name.toList.dropLast ++ [c] = name.toList := by
    intro c hc
    rw [List.getLast?_eq_some_iff] at hc
    obtain ⟨init, hinit⟩ := hc
    rw [hinit, List.dropLast_concat]
  unfold methodName
  split
  next hc => simpa [word, symbol, Item.chars, TokenKind.spelling, Symbol.spelling] using hstem hc
  next hc => simpa [word, symbol, Item.chars, TokenKind.spelling, Symbol.spelling] using hstem hc
  next hc => simpa [word, symbol, Item.chars, TokenKind.spelling, Symbol.spelling] using hstem hc
  · exact List.append_nil name.toList

end Layout

open Layout (methodName isCodeBefore_methodName Inline inline_nil inline_space inline_word
  inline_symbol inline_intercalate)

/-! ### Parameters -/

/-- What stands in front of a parameter's type is told apart from it, unless the type could turn a
star into two. -/
theorem ParamKind.WellFormed.isCodeBefore {kind : ParamKind} (h : kind.WellFormed)
    {after : List Char} (hafter : after.head? ≠ some '*') : IsCodeBefore kind.layout after := by
  cases kind with
  | required => exact isCodeBefore_nil after
  | optional => exact isCodeBefore_symbol (by decide) after
  | rest => exact isCodeBefore_star hafter
  | requiredKeyword key =>
    exact ((isCodeBefore_word h (endsWord_cons (by decide) _)).append
      (isCodeBefore_colon (by simp [Layout.Item.chars]))).append (isCodeBefore_space after)
  | optionalKeyword key =>
    exact (((isCodeBefore_symbol (by decide) _).append
      (isCodeBefore_word h (endsWord_cons (by decide) _))).append
      (isCodeBefore_colon (by simp [Layout.Item.chars]))).append (isCodeBefore_space after)
  | keywordRest => exact isCodeBefore_symbol (by decide) after

namespace Param

/-- Whether a parameter ends where the given characters follow it: they go on with no word, and with
no second star behind a star. -/
structure EndsBefore (after : List Char) : Prop where
  word : EndsWord after
  star : after.head? ≠ some '*'

/-- Nothing goes on behind a character that is neither part of a word nor a star. -/
theorem endsBefore_cons {c : Char} (hc : isWordChar c = false) (hstar : c ≠ '*') (cs : List Char) :
    EndsBefore (c :: cs) :=
  ⟨endsWord_cons hc cs, fun h ↦ hstar (Option.some.inj h)⟩

/-- A name behind a parameter's type, or none, is told apart where a parameter ends. -/
theorem isCodeBefore_name {after : List Char} (hafter : EndsBefore after) (name : Option String) :
    (∀ text ∈ name, IsWord text) →
      IsCodeBefore (match name with
        | some name => .space :: word name
        | none => []) after ∧
      EndsBefore (chars (match name with
        | some name => .space :: word name
        | none => []) ++ after) := by
  intro h
  cases name with
  | none => exact ⟨isCodeBefore_nil after, hafter⟩
  | some name =>
    exact ⟨(isCodeBefore_space _).append (isCodeBefore_word (h name rfl) hafter.word),
      endsBefore_cons (by decide) (by decide) _⟩

/-- A parameter is told apart in front of all that parameters end before. -/
theorem Legible.isCodeBefore {p : Param} (h : p.Legible) {after : List Char}
    (hafter : EndsBefore after) : IsCodeBefore p.layout after := by
  obtain ⟨hname, hbehind⟩ := isCodeBefore_name hafter p.name h.name
  refine IsCodeBefore.append (IsCodeBefore.append (h.kind.isCodeBefore ?_) ?_) hname
  · -- the type may be written as nothing, and then its name or what follows it comes first
    rcases htype : chars (p.type.layout 0) with - | ⟨c, cs⟩
    · exact hbehind.star
    · rintro ⟨⟩
      exact h.type.star_not_mem 0 (htype ▸ List.mem_cons_self)
  · exact h.type.isCodeBefore 0 hbehind.word

end Param

/-! ### Methods -/

/-- An overload is told apart in front of all that does not continue a word, since it ends with a
type. -/
theorem Overload.Legible.isCodeBefore {o : Overload} (h : o.Legible) {after : List Char}
    (hafter : EndsWord after) : IsCodeBefore o.layout after := by
  have hparams : ∀ item ∈ o.params.map Param.layout, ∀ after, Param.EndsBefore after →
      IsCodeBefore item after := by
    intro item hitem after hafter
    obtain ⟨p, hp, rfl⟩ := List.mem_map.1 hitem
    exact (h.params p hp).isCodeBefore hafter
  have hcomma : ∀ cs, Param.EndsBefore (',' :: cs) :=
    Param.endsBefore_cons (by decide) (by decide)
  refine ((((((isCodeBefore_symbol (by decide) _).append
    (Layout.isCodeBefore_commaSeparated hparams hcomma ?_)).append
    (isCodeBefore_symbol (by decide) _)).append (isCodeBefore_space _)).append
    (isCodeBefore_symbol (by decide) _)).append (isCodeBefore_space _)).append
    (h.result.isCodeBefore 1 hafter)
  exact Param.endsBefore_cons (by decide) (by decide) _

namespace Method

/-- The code of a method that begins with its keyword. -/
def code (m : Method) (indent : Nat) : Layout :=
  match m.overloads with
  | [] => []
  | first :: others =>
    m.header ++ [.space] ++ first.layout ++
      others.flatMap fun o ↦
        .line (indent + m.barIndent) :: symbol .pipe ++ [.space] ++ o.layout

/-- A method with overloads is written on a line of its own. -/
theorem layout_eq {m : Method} (h : m.overloads ≠ []) (indent : Nat) :
    m.layout indent = .line indent :: m.code indent := by
  obtain ⟨name, singleton, overloads⟩ := m
  cases overloads with
  | nil => exact absurd rfl h
  | cons first others => rfl

/-- The overloads behind the first stand on lines of their own, and none of them runs into the one
below. -/
theorem isCodeBefore_flatMap {os : List Overload} (h : ∀ o ∈ os, o.Legible) (indent : Nat)
    {after : List Char} (hafter : EndsWord after) :
    IsCodeBefore (os.flatMap fun o ↦ .line indent :: symbol .pipe ++ [.space] ++ o.layout) after ∧
      EndsWord (chars (os.flatMap fun o ↦
        .line indent :: symbol .pipe ++ [.space] ++ o.layout) ++ after) := by
  induction os with
  | nil => exact ⟨isCodeBefore_nil after, hafter⟩
  | cons o os ih =>
    obtain ⟨hcode, hword⟩ := ih fun o ho ↦ h o (List.mem_cons_of_mem _ ho)
    have ho := (h o List.mem_cons_self).isCodeBefore hword
    have hbar := ((isCodeBefore_symbol (s := .pipe) (by decide) _).append
      (isCodeBefore_space _)).append ho
    rw [List.flatMap_cons]
    exact ⟨IsCodeBefore.append ⟨⟨by simp [symbol], hbar.isCode⟩, hbar.readable⟩ hcode,
      endsWord_cons (by decide) _⟩

/-- The code of a method is told apart, with all its overloads. -/
theorem Legible.isCodeBefore {m : Method} (h : m.Legible) (indent : Nat) {after : List Char}
    (hafter : EndsWord after) : IsCodeBefore (m.code indent) after := by
  obtain ⟨name, singleton, overloads⟩ := m
  obtain ⟨hname, hne, hall⟩ := h
  rcases overloads with - | ⟨first, others⟩
  · exact absurd rfl hne
  · obtain ⟨hcode, hword⟩ := isCodeBefore_flatMap
      (fun o ho ↦ hall o (List.mem_cons_of_mem first ho))
      (indent + barIndent ⟨name, singleton, first :: others⟩) hafter
    refine ((IsCodeBefore.append (IsCodeBefore.append (IsCodeBefore.append (IsCodeBefore.append
      (IsCodeBefore.append (isCodeBefore_word (by decide) ?_) (isCodeBefore_space _)) ?_)
      (isCodeBefore_methodName hname ?_)) (isCodeBefore_colon ?_)) (isCodeBefore_space _)).append
      ((hall first List.mem_cons_self).isCodeBefore hword)).append hcode
    · exact endsWord_cons (by decide) _
    · cases singleton with
      | true =>
        exact (isCodeBefore_word (by decide) (endsWord_cons (by decide) _)).append
          (isCodeBefore_symbol (by decide) _)
      | false => exact isCodeBefore_nil _
    · exact endsWord_cons (by decide) _
    · simp [Layout.Item.chars]

end Method

/-! ### Members and headers -/

namespace MemberContent

/-- The code of a member that is no declaration. -/
def code (content : MemberContent) (indent : Nat) : Layout :=
  match content with
  | including mixin => word "include" ++ [.space] ++ mixin.layout
  | extending mixin => word "extend" ++ [.space] ++ mixin.layout
  | attr kind name type =>
    word kind.keyword ++ [.space] ++ methodName name ++ symbol .colon ++ [.space] ++ type.layout 0
  | method m => m.code indent
  | aliasing newName oldName =>
    word "alias" ++ [.space] ++ methodName newName ++ [.space] ++ methodName oldName
  | nested _ => []

theorem isWord_keyword (kind : AttributeKind) : IsWord kind.keyword := by
  cases kind <;> decide

/-- The code of a legible member can be read back. -/
theorem Legible.isCodeBefore {content : MemberContent} (h : content.Legible) (indent : Nat)
    {after : List Char} (hafter : EndsWord after) : IsCodeBefore (content.code indent) after := by
  cases content with
  | including mixin | extending mixin =>
    rw [Legible] at h
    exact ((isCodeBefore_word (by decide) (endsWord_cons (by decide) _)).append
      (isCodeBefore_space _)).append (h.isCodeBefore hafter)
  | attr kind name type =>
    rw [Legible] at h
    exact (((((isCodeBefore_word (isWord_keyword kind) (endsWord_cons (by decide) _)).append
      (isCodeBefore_space _)).append
      (isCodeBefore_methodName h.1 (endsWord_cons (by decide) _))).append
      (isCodeBefore_colon (by simp [Layout.Item.chars]))).append
      (isCodeBefore_space _)).append (h.2.isCodeBefore 0 hafter)
  | method m =>
    rw [Legible] at h
    exact h.isCodeBefore indent hafter
  | aliasing newName oldName =>
    rw [Legible] at h
    exact ((((isCodeBefore_word (by decide) (endsWord_cons (by decide) _)).append
      (isCodeBefore_space _)).append
      (isCodeBefore_methodName h.1 (endsWord_cons (by decide) _))).append
      (isCodeBefore_space _)).append (isCodeBefore_methodName h.2 hafter)
  | nested d => exact isCodeBefore_nil after

end MemberContent

/-- A header is told apart in front of all that does not continue a word. -/
theorem DeclarationKind.Legible.isCodeBefore {kind : DeclarationKind} (h : kind.Legible)
    {name : TypeName} (hname : name.Legible) {after : List Char} (hafter : EndsWord after) :
    IsCodeBefore (kind.header name) after := by
  have hword : ∀ {text : String} {behind : Layout} {after : List Char}, IsWord text →
      IsCodeBefore behind after → IsCodeBefore (word text ++ [.space] ++ behind) after :=
    fun htext hbehind ↦ ((isCodeBefore_word htext (endsWord_cons (by decide) _)).append
      (isCodeBefore_space _)).append hbehind
  rcases kind with (- | superclass) | -
  · exact hword (by decide) (hname.isCodeBefore hafter)
  · exact ((((hword (by decide) (hname.isCodeBefore (endsWord_cons (by decide) _))).append
      (isCodeBefore_space _)).append (isCodeBefore_symbol (by decide) _)).append
      (isCodeBefore_space _)).append ((h superclass rfl).isCodeBefore hafter)
  · exact hword (by decide) (hname.isCodeBefore hafter)

/-! ### Items of code -/

/-- A method's name is made of the tokens of code. -/
theorem Layout.inline_methodName {name : String} (h : IsMethodName name) :
    Inline TokenKind.InCode (methodName name) := by
  rcases h with hword | ⟨stem, c, hword, hc, rfl⟩
  · rw [methodName_of_isWord hword]
    exact inline_word hword
  · obtain ⟨s, hs, -⟩ := exists_suffixChar? hc
    rw [methodName_push hs]
    exact (inline_word hword).append (inline_symbol _)

/-- A type, at whatever level it is written, is made of the tokens of code. -/
theorem TypeExpr.Legible.inCode {t : TypeExpr} (h : t.Legible) (level : Nat) :
    Inline TokenKind.InCode (t.layout level) :=
  (h.inline level).mono fun _ hkind ↦ hkind.inCode

theorem TypeName.Legible.inCode {name : TypeName} (h : name.Legible) :
    Inline TokenKind.InCode name.layout :=
  h.inline.mono fun _ hkind ↦ hkind.inCode

theorem ClassType.Legible.inCode {c : ClassType} (h : c.Legible) :
    Inline TokenKind.InCode c.layout :=
  h.inline.mono fun _ hkind ↦ hkind.inCode

theorem Param.Legible.inline {p : Param} (h : p.Legible) : Inline TokenKind.InCode p.layout := by
  have hkey : ∀ {key : String}, IsWord key →
      Inline TokenKind.InCode (word key ++ symbol .colon ++ [.space]) :=
    fun hkey ↦ ((inline_word hkey).append (inline_symbol _)).append inline_space
  obtain ⟨kind, type, name⟩ := p
  refine (Layout.Inline.append ?_ (h.type.inCode 0)).append ?_
  · have hkind := h.kind
    cases kind with
    | required => exact inline_nil
    | optional | rest | keywordRest => exact inline_symbol _
    | requiredKeyword key => exact hkey hkind
    | optionalKeyword key =>
      rw [ParamKind.layout, List.append_assoc, List.append_assoc, ← List.append_assoc (word key)]
      exact (inline_symbol _).append (hkey hkind)
  · cases name with
    | none => exact inline_nil
    | some name => exact inline_space.append (inline_word (h.name name rfl))

/-- An overload stays on its line and is made of the tokens of code. -/
theorem Overload.Legible.inline {o : Overload} (h : o.Legible) :
    Inline TokenKind.InCode o.layout := by
  have hparams : Inline TokenKind.InCode (Layout.commaSeparated (o.params.map Param.layout)) := by
    refine inline_intercalate ((inline_symbol .comma).append inline_space) fun item hitem ↦ ?_
    obtain ⟨p, hp, rfl⟩ := List.mem_map.1 hitem
    exact (h.params p hp).inline
  exact ((((((inline_symbol _).append hparams).append (inline_symbol _)).append inline_space).append
    (inline_symbol _)).append inline_space).append (h.result.inCode 1)

/-- The keyword and the name of a method stand on one line. -/
theorem Method.inline_header {m : Method} (h : IsMethodName m.name) :
    Inline TokenKind.InCode m.header := by
  refine ((((inline_word (by decide +kernel)).append inline_space).append ?_).append
    (Layout.inline_methodName h)).append (inline_symbol _)
  split
  · exact (inline_word (by decide +kernel)).append (inline_symbol _)
  · exact inline_nil

/-- The code of a member that is no method stands on one line. -/
theorem MemberContent.Legible.inline {content : MemberContent} (h : content.Legible)
    (hmethod : ∀ m, content ≠ .method m) (indent : Nat) :
    Inline TokenKind.InCode (content.code indent) := by
  cases content with
  | including mixin | extending mixin =>
    rw [MemberContent.Legible] at h
    exact ((inline_word (by decide +kernel)).append inline_space).append h.inCode
  | attr kind name type =>
    rw [MemberContent.Legible] at h
    exact (((((inline_word (isWord_keyword kind)).append inline_space).append
      (Layout.inline_methodName h.1)).append (inline_symbol _)).append inline_space).append
      (h.2.inCode 0)
  | method m => exact absurd rfl (hmethod m)
  | aliasing newName oldName =>
    rw [MemberContent.Legible] at h
    exact ((((inline_word (by decide +kernel)).append inline_space).append
      (Layout.inline_methodName h.1)).append inline_space).append (Layout.inline_methodName h.2)
  | nested d => exact inline_nil

/-- A method may take several lines, but has no other tokens than those of code. -/
theorem Method.Legible.inCode {m : Method} (h : m.Legible) (indent : Nat) :
    ∀ kind ∈ tokens (m.code indent), kind.InCode := by
  obtain ⟨name, singleton, overloads⟩ := m
  have hall := h.overloads
  rcases overloads with - | ⟨first, others⟩
  · exact List.forall_mem_nil _
  · rw [List.forall_mem_cons] at hall
    rw [code, Layout.tokens_append, List.forall_mem_append]
    refine ⟨(((Method.inline_header h.name).append inline_space).append hall.1.inline).tokens,
      fun kind hkind ↦ ?_⟩
    rw [Layout.tokens_flatMap] at hkind
    obtain ⟨o, ho, hkind⟩ := List.mem_flatMap.1 hkind
    exact ((Layout.Inline.append (inline_symbol _) inline_space).append
      (hall.2 o ho).inline).tokens kind hkind

/-- The code of a member has words and symbols only. -/
theorem MemberContent.Legible.inCode {content : MemberContent} (h : content.Legible)
    (indent : Nat) : ∀ kind ∈ tokens (content.code indent), kind.InCode := by
  by_cases hmethod : ∃ m, content = .method m
  · obtain ⟨m, rfl⟩ := hmethod
    rw [MemberContent.Legible] at h
    exact h.inCode indent
  · exact (h.inline (not_exists.1 hmethod) indent).tokens

/-- A header stays on its line and is made of the tokens of code. -/
theorem DeclarationKind.Legible.inline {kind : DeclarationKind} (h : kind.Legible)
    {name : TypeName} (hname : name.Legible) : Inline TokenKind.InCode (kind.header name) := by
  have hword : ∀ {text : String}, IsWord text →
      Inline TokenKind.InCode (word text ++ [.space] ++ name.layout) :=
    fun htext ↦ ((inline_word htext).append inline_space).append hname.inCode
  rcases kind with (- | superclass) | -
  · exact hword (by decide +kernel)
  · exact ((((hword (by decide +kernel)).append inline_space).append (inline_symbol _)).append
      inline_space).append (h superclass rfl).inCode
  · exact hword (by decide +kernel)

/-! ### Entries -/

/-- A declaration is written as the entry of its header, its members one level deeper, and the entry
of the word that closes it. -/
theorem Declaration.layout_eq (kind : DeclarationKind) (name : TypeName)
    (own ownAnnots : List String) (headerComment : Option String) (members : List Member)
    (trailingComments : List String) (endComment : Option String) (depth : Nat)
    (comments annots : List String) :
    Declaration.layout
        ⟨kind, name, own, ownAnnots, headerComment, members, trailingComments, endComment⟩ depth
        comments annots =
      entry (2 * depth) (2 * depth) (comments ++ own) (annots ++ ownAnnots) (kind.header name)
          headerComment ++
        (Member.layouts members (depth + 1) true ++
          entry (2 * depth + 2) (2 * depth) trailingComments [] (word "end") endComment) := by
  rw [Declaration.layout]
  simp [entry]

/-- The comments and the annotations of a declaration are written like those that it has as a
member. -/
theorem Declaration.layout_own (d : Declaration) (depth : Nat) :
    d.layout depth [] [] =
      Declaration.layout { d with comments := [], annotations := [] } depth d.comments
        d.annotations := by
  obtain ⟨kind, name, comments, annots, headerComment, members, trailingComments, endComment⟩ := d
  rw [Declaration.layout_eq, Declaration.layout_eq]
  simp

/-- Comments and annotations are written the same whether they belong to a declaration or to the
place where it stands. -/
theorem Declaration.layout_annotated {d : Declaration} (hcomments : d.comments = [])
    (hannots : d.annotations = []) (comments annots : List String) (depth : Nat) :
    Declaration.layout { d with comments := comments, annotations := annots } depth [] [] =
      d.layout depth comments annots := by
  rw [layout_own]
  obtain ⟨kind, name, own, ownAnnots, headerComment, members, trailingComments, endComment⟩ := d
  dsimp only at hcomments hannots
  rw [hcomments, hannots]

/-- A member that is no declaration is a single entry. -/
theorem Member.layout_eq {content : MemberContent} (h : content.Legible)
    (hline : content.isDeclaration = false) (comments annots : List String)
    (comment : Option String) (blankBefore : Bool) (depth : Nat) :
    Member.layout ⟨content, comments, annots, comment, blankBefore⟩ depth =
      entry (2 * depth) (2 * depth) comments annots (content.code (2 * depth)) comment := by
  cases content with
  | method m =>
    rw [MemberContent.Legible] at h
    rw [Member.layout, MemberContent.code]
    simp [entry, m.layout_eq h.callable]
  | nested d => cases hline
  | _ =>
    rw [Member.layout]
    simp [entry, MemberContent.code]

/-- Every declaration begins on a line of its own. -/
theorem Declaration.opensLine_layout (d : Declaration) (depth : Nat)
    (comments annots : List String) : OpensLine (d.layout depth comments annots) := by
  obtain ⟨kind, name, own, ownAnnots, headerComment, members, trailingComments, endComment⟩ := d
  rw [Declaration.layout_eq]
  exact Layout.opensLine_entry_append _ _ _ _ _ _ _

/-- Every member begins on a line of its own. -/
theorem Member.Legible.opensLine_layout {m : Member} (h : m.Legible) (depth : Nat) :
    OpensLine (m.layout depth) := by
  obtain ⟨content, comments, annots, comment, blankBefore⟩ := m
  rw [Member.Legible] at h
  by_cases hline : content.isDeclaration = false
  · rw [Member.layout_eq h.1 hline]
    exact opensLine_entry _ _ _ _ _ _
  · cases content with
    | nested d =>
      rw [Member.layout]
      exact d.opensLine_layout depth comments annots
    | _ => exact absurd rfl hline

/-- Members begin on lines of their own, behind an empty line or not. -/
theorem Member.opensLine_layouts {ms : List Member} (h : ∀ m ∈ ms, m.Legible) (depth : Nat)
    (first : Bool) : OpensLine (Member.layouts ms depth first) := by
  induction ms generalizing first with
  | nil => trivial
  | cons m ms ih =>
    rw [Member.layouts]
    refine (OpensLine.append ?_ ((h m List.mem_cons_self).opensLine_layout depth)).append
      (ih (fun m hm ↦ h m (List.mem_cons_of_mem _ hm)) false)
    split <;> trivial

/-! ### Reading back -/

section Readable

variable {members : List Member} (hmembers : ∀ m ∈ members, m.Legible)
  (hnested : ∀ m ∈ members, ∀ e, m.content = .nested e → e.Legible →
    ∀ (depth : Nat) (comments annots : List String), AreCommentTexts comments →
      ∀ after, EndsLine after → (e.layout depth comments annots).Readable after)
include hmembers hnested

/-- Members can be read back, if the declarations among them can. -/
theorem Member.readable_layouts (depth : Nat) (first : Bool) {after : List Char}
    (hafter : EndsLine after) : (Member.layouts members depth first).Readable after := by
  induction members generalizing first with
  | nil => trivial
  | cons m ms ih =>
    have hothers : ∀ m ∈ ms, m.Legible := fun m hm ↦ hmembers m (List.mem_cons_of_mem _ hm)
    have hends : EndsLine (chars (Member.layouts ms depth false) ++ after) :=
      (Member.opensLine_layouts hothers depth false).endsLine hafter
    rw [Member.layouts, readable_append, readable_append]
    refine ⟨⟨?_, ?_⟩, ih hothers (fun m hm ↦ hnested m (List.mem_cons_of_mem _ hm)) false⟩
    · split <;> trivial
    · have hm := hmembers m List.mem_cons_self
      replace hnested := hnested m List.mem_cons_self
      obtain ⟨content, comments, annots, comment, blankBefore⟩ := m
      rw [Member.Legible] at hm
      obtain ⟨hcontent, hcomments, hcomment⟩ := hm
      by_cases hline : content.isDeclaration = false
      · rw [Member.layout_eq hcontent hline]
        exact readable_entry hcomments (fun after hafter ↦ hcontent.isCodeBefore _ hafter) hcomment
          _ _ _ hends
      · cases content with
        | nested d =>
          rw [MemberContent.Legible] at hcontent
          rw [Member.layout]
          exact hnested d rfl hcontent depth comments annots hcomments _ hends
        | _ => exact absurd rfl hline

end Readable

/-- A legible declaration can be read back at the end of a line. -/
theorem Declaration.Legible.readable {d : Declaration} :
    d.Legible → ∀ (depth : Nat) (comments annots : List String), AreCommentTexts comments →
      ∀ after, EndsLine after → (d.layout depth comments annots).Readable after := by
  induction d using Declaration.induction with
  | step d ih =>
    intro h depth comments annots hcomments after hafter
    obtain ⟨kind, name, own, ownAnnots, headerComment, members, trailingComments, endComment⟩ := d
    rw [Declaration.Legible] at h
    obtain ⟨hkind, hname, hown, hheader, hmembers, htrailing, hend⟩ := h
    rw [Member.allLegible_iff] at hmembers
    have hending : EndsLine (chars (entry (2 * depth + 2) (2 * depth) trailingComments []
        (word "end") endComment) ++ after) := (opensLine_entry _ _ _ _ _ _).endsLine hafter
    have hall : AreCommentTexts (comments ++ own) := by
      intro text htext
      rcases List.mem_append.1 htext with h | h
      · exact hcomments text h
      · exact hown text h
    rw [Declaration.layout_eq, readable_append, readable_append]
    refine ⟨?_, ?_, ?_⟩
    · refine readable_entry hall (fun after hafter ↦ hkind.isCodeBefore hname hafter) hheader
        _ _ _ ?_
      rw [Layout.chars_append, List.append_assoc]
      exact (Member.opensLine_layouts hmembers (depth + 1) true).endsLine hending
    · exact Member.readable_layouts hmembers (fun m hm e he hlegible ↦ ih m hm e he hlegible) _ _
        hending
    · exact readable_entry htrailing
        (fun after hafter ↦ Layout.isCodeBefore_word (by decide) hafter) hend _ _ _ hafter

/-! ### Texts -/

namespace Signature

/-- The first declaration of a text has no empty line before it, and all others do. -/
theorem declarationsLayout_cons (d : Declaration) (ds : List Declaration) :
    declarationsLayout (d :: ds) =
      d.layout 0 [] [] ++ ds.flatMap fun d ↦ .blank :: d.layout 0 [] [] := by
  rw [declarationsLayout, List.map_cons, Layout.intercalate_cons, List.flatMap_map]
  rfl

theorem opensLine_moreDeclarations (ds : List Declaration) :
    OpensLine (ds.flatMap fun d ↦ .blank :: d.layout 0 [] []) := by
  cases ds <;> trivial

/-- The declarations behind the first can be read back, each on lines of its own. -/
theorem readable_moreDeclarations {ds : List Declaration} (h : ∀ d ∈ ds, d.Legible)
    {after : List Char} (hafter : EndsLine after) :
    Layout.Readable (ds.flatMap fun d ↦ .blank :: d.layout 0 [] []) after := by
  induction ds with
  | nil => trivial
  | cons d ds ih =>
    rw [List.flatMap_cons, readable_append]
    exact ⟨(h d List.mem_cons_self).readable 0 [] [] (List.forall_mem_nil _) _
      ((opensLine_moreDeclarations ds).endsLine hafter),
      ih fun d hd ↦ h d (List.mem_cons_of_mem _ hd)⟩

/-- What is written behind the declarations of a text: its last comments, below an empty line if
there are declarations. -/
def closingLayout (s : Signature) : Layout :=
  (if s.declarations.isEmpty || s.trailingComments.isEmpty then [] else [.blank]) ++
    s.trailingComments.flatMap (Layout.commentLine 0)

theorem opensLine_closingLayout (s : Signature) : OpensLine s.closingLayout := by
  refine OpensLine.append ?_ (Layout.opensLine_commentLines 0 s.trailingComments)
  split <;> trivial

/-- A text is its declarations and then its last comments. -/
theorem layout_eq (s : Signature) :
    s.layout = declarationsLayout s.declarations ++ s.closingLayout := by
  rw [layout, closingLayout, List.append_assoc]

/-- The layout of a legible signature can be read back. -/
theorem Legible.readable {s : Signature} (h : s.Legible) : s.layout.Readable ['\n'] := by
  have hclosing : Layout.Readable s.closingLayout ['\n'] := by
    rw [closingLayout, readable_append]
    refine ⟨by split <;> trivial, Layout.readable_commentLines h.trailingComments 0 rfl⟩
  have hends : EndsLine (chars s.closingLayout ++ ['\n']) := s.opensLine_closingLayout.endsLine rfl
  rw [layout_eq, readable_append]
  refine ⟨?_, hclosing⟩
  have hdeclarations := h.declarations
  rcases hds : s.declarations with - | ⟨d, ds⟩
  · trivial
  · rw [hds, List.forall_mem_cons] at hdeclarations
    rw [declarationsLayout_cons, readable_append]
    exact ⟨hdeclarations.1.readable 0 [] [] (List.forall_mem_nil _) _
      ((opensLine_moreDeclarations ds).endsLine hends),
      readable_moreDeclarations hdeclarations.2 hends⟩

/-- A layout of signatures is empty or begins with a line. -/
theorem layout_eq_nil_or (s : Signature) :
    s.layout = [] ∨ ∃ indent layout, s.layout = .line indent :: layout := by
  obtain ⟨ds, comments⟩ := s
  cases ds with
  | nil =>
    cases comments with
    | nil => exact Or.inl rfl
    | cons text texts => exact Or.inr ⟨_, _, rfl⟩
  | cons d ds =>
    obtain ⟨kind, name, own, annots, headerComment, members, trailingComments, endComment⟩ := d
    right
    rw [Signature.layout, declarationsLayout_cons, Declaration.layout_eq, Layout.entry]
    rcases own with - | ⟨text, own⟩
    · rcases annots with - | ⟨text, annots⟩
      · exact ⟨_, _, rfl⟩
      · exact ⟨_, _, rfl⟩
    · exact ⟨_, _, rfl⟩

end Signature

end ModelSignatures
