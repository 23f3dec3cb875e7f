import ModelSignatures.Generator.Members
import ModelSignatures.Proofs.ConstantPath
import ModelSignatures.Proofs.Generator.Draft

/-!
# The groups of members are drafts

Each of the three groups of members that a signature is put together from is a draft of its
paragraphs: a capability names constant paths, and the names of passwords and of attributes have
been checked to be words.
-/

namespace ModelSignatures

open Layout (tokens word symbol chars pieces methodName chars_methodName
  IsCodeBefore isCodeBefore_word isCodeBefore_symbol isCodeBefore_colon isCodeBefore_space
  endsWord_cons)

/-! ### Lines -/

/-- A member that is written on one line is the draft of that line. -/
theorem isDraftOf_line {content : MemberContent} (h : content.WellFormed)
    (hline : content.isDeclaration = false) {text : String}
    (htext : text.toList = chars (content.code 0)) : IsDraftOf (.of [] content) text := by
  have hchars : '\n' :: text.toList =
      chars (([] : List String).flatMap (Layout.annotLine 0) ++ .line 0 :: content.code 0) :=
    congrArg ('\n' :: ·) htext
  exact isDraftOf_code h hline (by simp) hchars

/-- Two words one behind the other are a word. -/
theorem IsWord.append {stem rest : String} (h : IsWord stem) (hrest : IsWord rest) :
    IsWord (stem ++ rest) := by
  rw [IsWord, String.toList_append]
  exact ⟨by simp [h.1], List.forall_mem_append.2 ⟨h.2, hrest.2⟩⟩

/-- A word with an equals sign behind it names a method. -/
theorem isMethodName_writer {name : String} (h : IsWord name) : IsMethodName (name.push '=') :=
  Or.inr ⟨name, '=', h, by decide, rfl⟩

/-- The line of a method with one overload. -/
theorem chars_code_method (name : String) (o : Overload) :
    chars ((MemberContent.method ⟨name, false, [o]⟩).code 0) =
      "def ".toList ++ (chars (methodName name) ++ (": ".toList ++ chars o.layout)) := by
  simp [MemberContent.code, Method.code, Method.header, Layout.chars_append, word, symbol,
    Layout.Item.chars, TokenKind.spelling, Symbol.spelling]

/-- The line of an attribute has its keyword, its name and its type. -/
theorem chars_code_attr (kind : AttributeKind) (name : String) (type : TypeExpr) :
    chars ((MemberContent.attr kind name type).code 0) =
      kind.keyword.toList ++ (" ".toList ++ (name.toList ++
        (": ".toList ++ chars (type.layout 0)))) := by
  simp [MemberContent.code, Layout.chars_append, chars_methodName, word, symbol,
    Layout.Item.chars, TokenKind.spelling, Symbol.spelling]

/-! ### Capabilities -/

/-- The lines that include and extend a constant are drafts of members that do. -/
theorem isDraftOf_mixin {path : String}
    (h : (ConstantPath.segments path).all ConstantPath.isConstantName = true) :
    IsDraftOf (.of [] (.including (absoluteType path))) ("include ::" ++ path) ∧
      IsDraftOf (.of [] (.extending (absoluteType path))) ("extend ::" ++ path) := by
  have hmixin : (absoluteType path).WellFormed :=
    ⟨ConstantPath.wellFormed_segments h, by simp [absoluteType]⟩
  have hchars : chars (absoluteType path).layout = ':' :: ':' :: path.toList :=
    ConstantPath.chars_layout_segments path
  constructor
  · have hwell : MemberContent.WellFormed (.including (absoluteType path)) := hmixin
    refine isDraftOf_line hwell rfl ?_
    simp [MemberContent.code, hchars, word, Layout.Item.chars, TokenKind.spelling]
  · have hwell : MemberContent.WellFormed (.extending (absoluteType path)) := hmixin
    refine isDraftOf_line hwell rfl ?_
    simp [MemberContent.code, hchars, word, Layout.Item.chars, TokenKind.spelling]

/-- What a capability adds to a class is written in lines that are drafts of its members. -/
theorem Capability.isDraftOf_mixinLines (c : Capability) :
    List.Forall₂ IsDraftOf c.members c.mixinLines := by
  have hmodule : (ConstantPath.segments c.modulePath).all ConstantPath.isConstantName = true := by
    cases c <;> decide
  have hmethods : ∀ path ∈ c.classMethodsPath,
      (ConstantPath.segments path).all ConstantPath.isConstantName = true := by
    cases c <;> decide
  rw [members, mixinLines]
  refine .cons (isDraftOf_mixin hmodule).1 ?_
  cases hpath : c.classMethodsPath with
  | none => exact .nil
  | some path => exact .cons (isDraftOf_mixin (hmethods path hpath)).2 .nil

namespace ClassDescriptor

/-- The first paragraph of a class is a draft of its mixins. -/
theorem isDraft_mixins (d : ClassDescriptor) : IsDraft [d.mixinMembers] d.mixins := by
  have hlines : ∀ cs : List Capability, List.Forall₂ IsDraftOf (cs.flatMap (·.members))
      (cs.flatMap (·.mixinLines)) := by
    intro cs
    induction cs with
    | nil => exact .nil
    | cons c cs ih => exact List.rel_append c.isDraftOf_mixinLines ih
  rw [mixins, mixinMembers]
  split
  · exact isDraft_lines .nil
  · exact isDraft_lines (hlines _)

end ClassDescriptor

/-! ### Passwords -/

theorem wellFormed_stringType : stringType.WellFormed :=
  .classRef (by decide) (by decide) (by decide) (by simp)

theorem stringParam_wellFormed : Param.WellFormed ⟨.required, stringType, none⟩ :=
  ⟨trivial, wellFormed_stringType, by simp⟩

/-- The line of a reader is a draft of the reader. -/
theorem isDraftOf_reader {name : String} (h : IsWord name) :
    IsDraftOf (.of [] (.attr .reader name (.optional stringType)))
      ("attr_reader " ++ name ++ ": String?") := by
  have hwell : MemberContent.WellFormed (.attr .reader name (.optional stringType)) :=
    ⟨Or.inl h, .optional wellFormed_stringType (by simp [stringType, AttributeType.classNamed])⟩
  refine isDraftOf_line hwell rfl ?_
  have htype : chars ((TypeExpr.optional stringType).layout 0) = "String?".toList := by decide
  rw [chars_code_attr, htype]
  simp [AttributeKind.keyword]

/-- The line of an accessor is a draft of the accessor. -/
theorem isDraftOf_accessor {name text : String} (h : IsWord name)
    (htext : text.toList = "attr_accessor ".toList ++ (name.toList ++ ": String".toList)) :
    IsDraftOf (.of [] (.attr .accessor name stringType)) text := by
  have hwell : MemberContent.WellFormed (.attr .accessor name stringType) :=
    ⟨Or.inl h, wellFormed_stringType⟩
  refine isDraftOf_line hwell rfl ?_
  have htype : chars (stringType.layout 0) = "String".toList := by decide
  rw [htext, chars_code_attr, htype]
  simp [AttributeKind.keyword]

/-- The line of a method whose overload has been written. -/
theorem isDraftOf_method {name : String} (hname : IsMethodName name) {o : Overload}
    (ho : o.WellFormed) {text : String}
    (htext : text.toList =
      "def ".toList ++ (chars (methodName name) ++ (": ".toList ++ chars o.layout))) :
    IsDraftOf (.of [] (.method ⟨name, false, [o]⟩)) text := by
  have hwell : MemberContent.WellFormed (.method ⟨name, false, [o]⟩) :=
    ⟨hname, by simp, by simpa using ho⟩
  refine isDraftOf_line hwell rfl ?_
  rw [htext, chars_code_method]

section Password

variable {name : String} (hword : IsWord name)
include hword

/-- The names beside a password are words where its own is. -/
theorem isWord_passwordName : ∀ suffix ∈ ["_confirmation", "_challenge", "_salt"],
    IsWord (name ++ suffix) :=
  fun suffix hmem ↦ hword.append (by revert suffix; decide)

/-- The attributes of a password. -/
theorem isDraft_passwordAttributes :
    IsDraft
      [[.of [] (.attr .reader name (.optional stringType)),
        .of [] (.attr .accessor (name ++ "_confirmation") stringType),
        .of [] (.attr .accessor (name ++ "_challenge") stringType)]]
      ("\n".intercalate
        ["attr_reader " ++ name ++ ": String?",
          "attr_accessor " ++ name ++ "_confirmation: String",
          "attr_accessor " ++ name ++ "_challenge: String"]) := by
  have hsuffix := isWord_passwordName hword
  exact isDraft_lines (.cons (isDraftOf_reader hword)
    (.cons (isDraftOf_accessor (hsuffix "_confirmation" (by simp)) (by simp))
      (.cons (isDraftOf_accessor (hsuffix "_challenge" (by simp)) (by simp)) .nil)))

/-- The methods of a password. -/
theorem isDraft_passwordWriters :
    IsDraft
      [[.of [] (.method ⟨name.push '=', false, [⟨[⟨.required, stringType, none⟩], stringType⟩]⟩),
        .of [] (.method ⟨name ++ "_salt", false, [⟨[], stringType⟩]⟩),
        .of [] (.method ⟨"authenticate_" ++ name, false, [⟨[⟨.required, stringType, none⟩],
          .union [.base .instanceType, .base .falseType]⟩]⟩)]]
      ("\n".intercalate
        ["def " ++ name ++ "=: (String) -> String",
          "def " ++ name ++ "_salt: () -> String",
          "def authenticate_" ++ name ++ ": (String) -> (instance | false)"]) := by
  have hsalt := isWord_passwordName hword "_salt" (by simp)
  have hfinder : IsWord ("authenticate_" ++ name) := IsWord.append (by decide) hword
  refine isDraft_lines (.cons ?_ (.cons ?_ (.cons ?_ .nil)))
  · refine isDraftOf_method (isMethodName_writer hword)
      (o := ⟨[⟨.required, stringType, none⟩], stringType⟩)
      ⟨by simp [stringParam_wellFormed], wellFormed_stringType⟩ ?_
    rw [chars_methodName, show chars (Overload.layout
      ⟨[⟨.required, stringType, none⟩], stringType⟩) = "(String) -> String".toList by decide]
    simp
  · refine isDraftOf_method (Or.inl hsalt) (o := ⟨[], stringType⟩)
      ⟨by simp, wellFormed_stringType⟩ ?_
    rw [chars_methodName, show chars (Overload.layout
      ⟨[], stringType⟩) = "() -> String".toList by decide]
    simp
  · refine isDraftOf_method (Or.inl hfinder)
      (o := ⟨[⟨.required, stringType, none⟩], .union [.base .instanceType, .base .falseType]⟩)
      ⟨by simp [stringParam_wellFormed], .union (by simp) (by simp [TypeExpr.WellFormed.base])⟩ ?_
    rw [chars_methodName, show chars (Overload.layout ⟨[⟨.required, stringType, none⟩],
      .union [.base .instanceType, .base .falseType]⟩) =
        "(String) -> (instance | false)".toList by decide]
    simp

/-- The lines of a password are drafts of its two paragraphs. -/
theorem isDraft_passwordLines :
    IsDraft (passwordParagraphs name) (ClassDescriptor.passwordLines name) := by
  have hlines := (isDraft_passwordAttributes hword).apart (isDraft_passwordWriters hword)
  have htext : ∀ a b c d e f : String, "\n".intercalate [a, b, c, "", d, e, f] =
      "\n".intercalate [a, b, c] ++ "\n\n" ++ "\n".intercalate [d, e, f] := by
    intro a b c d e f
    rw [← String.toList_inj]
    simp [String.intercalate_cons_cons]
  rw [passwordParagraphs, ClassDescriptor.passwordLines, htext]
  split
  · have hwell : MemberContent.WellFormed (.aliasing "authenticate" "authenticate_password") :=
      ⟨Or.inl (by decide), Or.inl (by decide)⟩
    have halias : IsDraft [[.of [] (.aliasing "authenticate" "authenticate_password")]]
        "alias authenticate authenticate_password" :=
      isDraft_lines (.cons (isDraftOf_line hwell rfl (by decide)) .nil)
    have hall := hlines.apart halias
    rwa [String.append_assoc] at hall
  · rwa [String.append_empty, List.append_nil]

end Password

/-- The password section is a draft of the paragraphs of all passwords. -/
theorem ClassDescriptor.isDraft_passwordMethods (d : ClassDescriptor) :
    IsDraft (if d.securePassword then d.passwordAttributes.flatMap passwordParagraphs else [])
      d.passwordMethods := by
  rw [passwordMethods]
  split
  · rw [List.flatMap_def]
    refine isDraft_intercalate ?_
    rw [List.forall₂_map_left_iff, List.forall₂_map_right_iff, List.forall₂_same]
    intro name hname
    rw [passwordAttributes, List.mem_eraseDups, List.mem_filter, isConfirmed, Bool.and_eq_true]
      at hname
    exact isDraft_passwordLines (ConstantPath.isWord_of_isMethodName hname.2.1)
  · exact isDraft_empty

/-! ### Attributes -/

/-- The type of an attribute is well formed and not optional. -/
theorem AttributeType.wellFormed_signatureType (t : AttributeType) :
    t.signatureType.WellFormed ∧ ∀ u, t.signatureType ≠ .optional u := by
  have hclass : ∀ {path : List String}, TypeName.WellFormed ⟨false, path⟩ →
      TypeName.IsNoKeyword ⟨false, path⟩ → TypeName.namesAlias ⟨false, path⟩ = false →
      (classNamed path).WellFormed :=
    fun hname hkeyword hclass ↦ .classRef hname hkeyword hclass (by simp)
  cases t with
  | boolean => exact ⟨.base .bool, by simp [signatureType]⟩
  | custom tag => exact ⟨.base .untyped, by simp [signatureType]⟩
  | datetime =>
    refine ⟨.union (by simp) (List.forall_mem_cons.2 ⟨?_, List.forall_mem_singleton.2 ?_⟩),
      by simp [signatureType]⟩
    · exact hclass (by decide) (by decide) (by decide)
    · exact hclass (by decide) (by decide) (by decide)
  | _ =>
    exact ⟨hclass (by decide) (by decide) (by decide), by simp [signatureType, classNamed]⟩

namespace ClassDescriptor

/-- The type of the values of an attribute is well formed. -/
theorem wellFormed_valueType (d : ClassDescriptor) (a : AttributeDecl) :
    (d.valueType a).WellFormed := by
  obtain ⟨htype, hsingle⟩ := a.type.wellFormed_signatureType
  rw [valueType]
  split
  · exact htype
  · exact .optional htype hsingle

end ClassDescriptor

/-- The code of a method that writes an attribute, where the type of the parameter is written like
that of the result. -/
def writerCode (name : String) (type : TypeExpr) : Layout :=
  word "def" ++ [.space] ++ methodName (name.push '=') ++ symbol .colon ++ [.space] ++
    symbol .leftParen ++ type.layout 1 ++ [.space] ++ word "value" ++ symbol .rightParen ++
    [.space] ++ symbol .arrow ++ [.space] ++ type.layout 1

/-- A parameter may have parentheses that canonical layout does not write. -/
theorem fits_writer {name : String} (h : IsWord name) {type : TypeExpr} (htype : type.WellFormed) :
    DraftMember.Fits ⟨[], .method ⟨name.push '=', false,
      [⟨[⟨.required, type, some "value"⟩], type⟩]⟩, writerCode name type⟩ := by
  have hname := isMethodName_writer h
  refine ⟨by simp, ⟨_, _, rfl⟩, fun hafter ↦ ?_, ?_⟩
  · exact ((((((((((((isCodeBefore_word (by decide) (endsWord_cons (by decide) _)).append
      (isCodeBefore_space _)).append
      (Layout.isCodeBefore_methodName hname (endsWord_cons (by decide) _))).append
      (isCodeBefore_colon (by simp [Layout.Item.chars]))).append (isCodeBefore_space _)).append
      (isCodeBefore_symbol (by decide) _)).append
      (htype.isCodeBefore 1 (endsWord_cons (by decide) _))).append (isCodeBefore_space _)).append
      (isCodeBefore_word (by decide) (endsWord_cons (by decide) _))).append
      (isCodeBefore_symbol (by decide) _)).append (isCodeBefore_space _)).append
      (isCodeBefore_symbol (by decide) _)).append (isCodeBefore_space _) |>.append
      (htype.isCodeBefore 1 hafter)
  · have hresult := htype.spells.2.1
    have hparam : Param.Spells ⟨.required, type, some "value"⟩
        (tokens (type.layout 1) ++ [.word "value"]) := by
      have hunion := TypeForm.Spells.union hresult .noAlternative
      rw [List.append_nil] at hunion
      exact .mk hunion
    have hoverload := Overload.Spells.mk (.cons hparam .nil) hresult
    have hcode : writerCode name type = .token (.word "def") :: .space ::
        (methodName (name.push '=') ++ (symbol .colon ++ ([.space] ++ (symbol .leftParen ++
          (type.layout 1 ++ ([.space] ++ (word "value" ++ (symbol .rightParen ++ ([.space] ++
            (symbol .arrow ++ ([.space] ++ type.layout 1)))))))))))  := by
      simp [writerCode, word]
    rw [hcode]
    show MemberContent.Spells _ (_ :: pieces false _)
    rw [Layout.pieces_append]
    have hinstance : ([] : List Piece).map Piece.kind = Method.singletonKinds false := rfl
    refine .method rfl
      (.mk hinstance (Layout.nameSpells_methodName hname _) hoverload .nil ?_)
    rw [Layout.map_kind_pieces]
    simp [symbol, word]

namespace ClassDescriptor

/-- The lines of an attribute are a draft of its accessors. -/
theorem isDraft_accessorLines (d : ClassDescriptor) {a : AttributeDecl}
    (h : ConstantPath.isMethodName a.name = true) :
    IsDraft [d.accessorMembers a] (d.accessorLines a) := by
  have hname := ConstantPath.isWord_of_isMethodName h
  have htype := d.wellFormed_valueType a
  have hchars : ((d.valueType a).text 1).toList = chars ((d.valueType a).layout 1) :=
    String.toList_ofList
  have hreader : IsDraftOf (.of ["pure"] (.method ⟨a.name, false, [⟨[], d.valueType a⟩]⟩))
      ("%a\x7bpure\x7d" ++ "\n" ++
        ("def " ++ a.name ++ ": () -> " ++ (d.valueType a).text 1)) := by
    have hwell : MemberContent.WellFormed (.method ⟨a.name, false, [⟨[], d.valueType a⟩]⟩) :=
      ⟨Or.inl hname, by simp, by simpa using Overload.WellFormed.mk (by simp) htype⟩
    have hannots : ∀ text ∈ ["pure"], IsAnnotText text := by decide
    refine isDraftOf_code hwell rfl hannots ?_
    have hoverload : chars (Overload.layout ⟨[], d.valueType a⟩) =
        "() -> ".toList ++ chars ((d.valueType a).layout 1) := by
      simp [Overload.layout, Layout.commaSeparated, symbol, Layout.Item.chars, TokenKind.spelling,
        Symbol.spelling]
    rw [Layout.chars_append, Layout.chars_cons, chars_code_method, chars_methodName,
      hoverload]
    simp [hchars, Layout.annotLine, Layout.Item.chars, TokenKind.spelling]
    decide
  have hwriter : IsDraftOf
      (.of [] (.method ⟨a.name.push '=', false,
        [⟨[⟨.required, d.valueType a, some "value"⟩], d.valueType a⟩]⟩))
      ("def " ++ a.name ++ "=: (" ++ (d.valueType a).text 1 ++ " value) -> " ++
        (d.valueType a).text 1) := by
    refine ⟨_, fits_writer hname htype, rfl, ?_⟩
    simp [DraftMember.layout, Layout.entry, writerCode, Layout.lineComment, Layout.chars_append,
      chars_methodName, hchars, word, symbol, Layout.Item.chars, TokenKind.spelling,
      Symbol.spelling]
  have hall := isDraft_lines (.cons hreader (.cons hwriter .nil))
  rw [accessorLines, accessorMembers]
  simpa only [String.intercalate_cons_cons, String.intercalate_singleton, String.append_assoc]
    using hall

/-- The blocks of attributes are drafts of their accessors, one by one. -/
theorem isDraft_accessorBlocks (d : ClassDescriptor) {attributes : List AttributeDecl}
    {blocks : List String} (h : d.accessorBlocks attributes = .ok blocks) :
    List.Forall₂ IsDraft (attributes.map fun a ↦ [d.accessorMembers a]) blocks := by
  induction attributes generalizing blocks with
  | nil =>
    cases h
    exact .nil
  | cons a rest ih =>
    rw [accessorBlocks] at h
    split at h
    next hname =>
      obtain ⟨others, hothers, h⟩ := Except.bind_eq_ok_iff.1 h
      cases h
      exact .cons (d.isDraft_accessorLines hname) (ih hothers)
    · cases h

/-- The accessor section is a draft of the paragraphs of all attributes. -/
theorem isDraft_accessors (d : ClassDescriptor) {accessors : String}
    (h : d.accessors = .ok accessors) :
    IsDraft (if d.hasCapability .attributes then d.attributes.map d.accessorMembers else [])
      accessors := by
  rw [ClassDescriptor.accessors] at h
  split at h
  next hcapable =>
    obtain ⟨blocks, hblocks, h⟩ := Except.bind_eq_ok_iff.1 h
    cases h
    rw [if_pos hcapable, List.map_eq_flatMap, List.flatMap_def]
    exact isDraft_intercalate (d.isDraft_accessorBlocks hblocks)
  next hcapable =>
    cases h
    rw [if_neg hcapable]
    exact isDraft_empty

/-- The groups of members with empty lines between them are a draft of the body of the class. -/
theorem isDraft_body (d : ClassDescriptor) {accessors : String}
    (h : d.accessors = .ok accessors) :
    IsDraft d.paragraphs
      (d.mixins ++ "\n\n" ++ d.passwordMethods ++ "\n\n" ++ accessors) :=
  (d.isDraft_mixins.apart d.isDraft_passwordMethods).apart (d.isDraft_accessors h)

end ClassDescriptor

end ModelSignatures
