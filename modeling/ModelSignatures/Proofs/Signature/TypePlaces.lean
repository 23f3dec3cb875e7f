import ModelSignatures.Proofs.Signature.RoundTrip
import ModelSignatures.Proofs.TypeExpr.Collapsed

/-!
# Types in their places

A place of a type is a signature in which one type is left open (`TypePlace`). What is written of
the signature is the same for all types, but for the type itself (`TypePlace.layout_signature`). So
the text of a type can be put there, and what is read is the type with nothing optional twice in a
row (`TypeExpr.parse_source`).
-/

namespace ModelSignatures

open Layout (word symbol chars methodName commaSeparated)

/-! ### Lists with an item left open -/

namespace Layout

/-- The separator of arguments and parameters. -/
abbrev comma : Layout :=
  [.token (.symbol .comma), .space]

/-- What is written in front of an item left open in a list: the items before it, each with the
separator behind it. -/
def listFront (separator : Layout) (before : List Layout) : Layout :=
  before.flatMap (· ++ separator)

/-- What is written behind an item left open in a list: the items after it, each with the separator
in front of it. -/
def listBack (separator : Layout) (after : List Layout) : Layout :=
  after.flatMap (separator ++ ·)

/-- A list that is joined is what stands around any of its items, and the item. -/
theorem intercalate_append_cons (separator : Layout) (before : List Layout) (item : Layout)
    (after : List Layout) :
    separator.intercalate (before ++ item :: after) =
      listFront separator before ++ item ++ listBack separator after := by
  induction before with
  | nil => rw [List.nil_append, intercalate_cons]; rfl
  | cons first before ih =>
    have hcons : separator.intercalate (first :: (before ++ item :: after)) =
        first ++ separator ++ separator.intercalate (before ++ item :: after) := by
      cases before <;> exact List.intercalate_cons_cons
    rw [List.cons_append, hcons, ih]
    simp [listFront]

end Layout

open Layout (comma listFront listBack intercalate_append_cons)

/-- A class or module name with an argument left open. -/
structure ArgumentPlace where
  name : TypeName
  before : List TypeExpr
  after : List TypeExpr

namespace ArgumentPlace

/-- The name with all its arguments. -/
def classType (place : ArgumentPlace) (t : TypeExpr) : ClassType :=
  ⟨place.name, place.before ++ t :: place.after⟩

/-- What is written in front of the argument. -/
def front (place : ArgumentPlace) : Layout :=
  place.name.layout ++ symbol .leftBracket ++ listFront comma (place.before.map (·.layout 0))

/-- What is written behind the argument. -/
def back (place : ArgumentPlace) : Layout :=
  listBack comma (place.after.map (·.layout 0)) ++ symbol .rightBracket

/-- A name with arguments is what stands around any of them, and the argument. -/
theorem layout_classType (place : ArgumentPlace) (t : TypeExpr) :
    (place.classType t).layout = place.front ++ t.layout 0 ++ place.back := by
  rw [ClassType.layout, classType, TypeExpr.layouts_eq_map, List.map_append, List.map_cons,
    TypeName.layoutApplied, if_neg (by simp), commaSeparated, intercalate_append_cons]
  simp [front, back]

/-- A place whose name and other arguments are well formed. -/
structure WellFormed (place : ArgumentPlace) : Prop where
  named : place.name.WellFormed
  applied : ∀ t ∈ place.before ++ place.after, t.WellFormed

/-- All arguments are well formed where the one that was left open is. -/
theorem WellFormed.args {place : ArgumentPlace} (h : place.WellFormed) {t : TypeExpr}
    (ht : t.WellFormed) : ∀ u ∈ place.before ++ t :: place.after, u.WellFormed := by
  have hothers := List.forall_mem_append.1 h.applied
  exact List.forall_mem_append.2 ⟨hothers.1, List.forall_mem_cons.2 ⟨ht, hothers.2⟩⟩

end ArgumentPlace

/-- A method with one way to call it left open. -/
structure OverloadPlace where
  name : String
  singleton : Bool
  before : List Overload
  after : List Overload

namespace OverloadPlace

/-- The method with all ways to call it. -/
def method (place : OverloadPlace) (o : Overload) : Method :=
  ⟨place.name, place.singleton, place.before ++ o :: place.after⟩

/-- The line break and the bar between two ways to call the method, which are the same whichever way
is left open. -/
def bar (place : OverloadPlace) (indent : Nat) : Layout :=
  [.line (indent + Method.barIndent ⟨place.name, place.singleton, []⟩), .token (.symbol .pipe),
    .space]

/-- What is written in front of the way to call the method. -/
def front (place : OverloadPlace) (indent : Nat) : Layout :=
  Method.header ⟨place.name, place.singleton, []⟩ ++ [.space] ++
    listFront (place.bar indent) (place.before.map (·.layout))

/-- What is written behind the way to call the method. -/
def back (place : OverloadPlace) (indent : Nat) : Layout :=
  listBack (place.bar indent) (place.after.map (·.layout))

/-- A method is what stands around any way to call it, and the way to call it. -/
theorem code_method (place : OverloadPlace) (o : Overload) (indent : Nat) :
    (place.method o).code indent = place.front indent ++ o.layout ++ place.back indent := by
  have hcode : ∀ os : List Overload, os ≠ [] →
      Method.code ⟨place.name, place.singleton, os⟩ indent =
        Method.header ⟨place.name, place.singleton, []⟩ ++ [.space] ++
          (place.bar indent).intercalate (os.map (·.layout)) := by
    intro os hos
    rcases os with - | ⟨first, others⟩
    · exact absurd rfl hos
    · rw [List.map_cons, Layout.intercalate_cons, List.flatMap_map, ← List.append_assoc]
      rfl
  rw [method, hcode _ (by simp), List.map_append, List.map_cons, intercalate_append_cons, front,
    back]
  simp only [List.append_assoc]

/-- A place whose name and other ways to call the method are well formed. -/
structure WellFormed (place : OverloadPlace) : Prop where
  named : IsMethodName place.name
  overloads : ∀ o ∈ place.before ++ place.after, o.WellFormed

/-- A method is well formed where the way to call it that was left open is. -/
theorem WellFormed.method {place : OverloadPlace} (h : place.WellFormed) {o : Overload}
    (ho : o.WellFormed) : (place.method o).WellFormed where
  name := h.named
  callable := by simp [OverloadPlace.method]
  overloads := by
    have hothers := List.forall_mem_append.1 h.overloads
    exact List.forall_mem_append.2 ⟨hothers.1, List.forall_mem_cons.2 ⟨ho, hothers.2⟩⟩

end OverloadPlace

/-! ### Places -/

/-- A place of a type: what stands around it in a class `A`. -/
inductive TypePlace
  | attr (kind : AttributeKind) (name : String)
  /-- A parameter among others. -/
  | param (place : OverloadPlace) (before : List Param) (kind : ParamKind) (name : Option String)
      (after : List Param) (returned : TypeExpr)
  | result (place : OverloadPlace) (params : List Param)
  | superclass (place : ArgumentPlace)
  | including (place : ArgumentPlace)
  | extending (place : ArgumentPlace)
  /-- An argument of a class that is a type in another place. -/
  | argument (outer : TypePlace) (place : ArgumentPlace)

namespace TypePlace

/-- The class `A` with a single member. -/
def ofMember (content : MemberContent) : Signature :=
  ⟨[⟨.ofClass none, ⟨false, ["A"]⟩, [], [], none, [⟨content, [], [], none, false⟩], [], none⟩], []⟩

/-- The signature with a type in the place. -/
def signature : TypePlace → TypeExpr → Signature
  | attr kind name, t => ofMember (.attr kind name t)
  | param place before kind name after returned, t =>
    ofMember (.method (place.method ⟨before ++ ⟨kind, t, name⟩ :: after, returned⟩))
  | result place params, t => ofMember (.method (place.method ⟨params, t⟩))
  | superclass place, t =>
    ⟨[⟨.ofClass (some (place.classType t)), ⟨false, ["A"]⟩, [], [], none, [], [], none⟩], []⟩
  | including place, t => ofMember (.including (place.classType t))
  | extending place, t => ofMember (.extending (place.classType t))
  | argument outer place, t =>
    outer.signature (.classRef place.name (place.before ++ t :: place.after))

/-- At which level a type is written in the place. -/
def level : TypePlace → Nat
  | result _ _ => 1
  | _ => 0

/-- What is written in front of a member of the class `A`. -/
def bodyFront : Layout :=
  .line 0 :: word "class" ++ [.space] ++ word "A" ++ [.line 2]

/-- What is written behind the last member of a class. -/
def bodyBack : Layout :=
  .line 0 :: word "end"

/-- What is written in front of the type. -/
def front : TypePlace → Layout
  | attr kind name =>
    bodyFront ++ word kind.keyword ++ [.space] ++ methodName name ++ symbol .colon ++ [.space]
  | param place before kind _ _ _ =>
    bodyFront ++ place.front 2 ++ symbol .leftParen ++ listFront comma (before.map Param.layout) ++
      kind.layout
  | result place params =>
    bodyFront ++ place.front 2 ++ symbol .leftParen ++ commaSeparated (params.map Param.layout) ++
      symbol .rightParen ++ [.space] ++ symbol .arrow ++ [.space]
  | superclass place =>
    .line 0 :: word "class" ++ [.space] ++ word "A" ++ [.space] ++ symbol .less ++ [.space] ++
      place.front
  | including place => bodyFront ++ word "include" ++ [.space] ++ place.front
  | extending place => bodyFront ++ word "extend" ++ [.space] ++ place.front
  | argument outer place => outer.front ++ place.front

/-- What is written behind the type. -/
def back : TypePlace → Layout
  | attr _ _ => bodyBack
  | param place _ _ name after returned =>
    (match name with
      | some name => .space :: word name
      | none => []) ++ listBack comma (after.map Param.layout) ++ symbol .rightParen ++ [.space] ++
      symbol .arrow ++ [.space] ++ returned.layout 1 ++ place.back 2 ++ bodyBack
  | result place _ => place.back 2 ++ bodyBack
  | superclass place | including place | extending place => place.back ++ bodyBack
  | argument outer place => place.back ++ outer.back

/-- The text with some text in the place. -/
def source (place : TypePlace) (text : String) : String :=
  String.ofList ((chars place.front).drop 1) ++ text ++ String.ofList (chars place.back ++ ['\n'])

/-- Around the only member of the class the same is written, whatever it is. -/
theorem layout_ofMember {content : MemberContent} (h : content.isDeclaration = false)
    (hcallable : ∀ m, content = .method m → m.overloads ≠ []) :
    (ofMember content).layout = bodyFront ++ content.code 2 ++ bodyBack := by
  cases content with
  | nested d => cases h
  | method m =>
    simp [ofMember, Signature.layout, Signature.declarationsLayout, Declaration.layout,
      Member.layouts, Member.layout, m.layout_eq (hcallable m rfl), Layout.lineComment,
      DeclarationKind.header, TypeName.layout, MemberContent.code, bodyFront, bodyBack]
  | _ =>
    simp [ofMember, Signature.layout, Signature.declarationsLayout, Declaration.layout,
      Member.layouts, Member.layout, Layout.lineComment, DeclarationKind.header, TypeName.layout,
      MemberContent.code, bodyFront, bodyBack]

/-- Around a way to call the only method of the class the same is written, whatever it is. -/
theorem layout_ofMember_method (place : OverloadPlace) (o : Overload) :
    (ofMember (.method (place.method o))).layout =
      bodyFront ++ (place.front 2 ++ o.layout ++ place.back 2) ++ bodyBack := by
  rw [layout_ofMember rfl fun m hm ↦ ?_]
  · rw [MemberContent.code, place.code_method]
  · cases hm
    simp [OverloadPlace.method]

/-- Around the type the same is written, whatever it is. -/
theorem layout_signature (place : TypePlace) (t : TypeExpr) :
    (place.signature t).layout = place.front ++ t.layout place.level ++ place.back := by
  induction place generalizing t with
  | attr kind name =>
    rw [signature, layout_ofMember rfl (by simp)]
    simp [front, back, level, MemberContent.code]
  | param place before kind name after returned =>
    rw [signature, layout_ofMember_method, Overload.layout, List.map_append, List.map_cons,
      commaSeparated, intercalate_append_cons, Param.layout]
    cases name <;> simp [front, back, level]
  | result place params =>
    rw [signature, layout_ofMember_method, Overload.layout]
    simp [front, back, level]
  | superclass place =>
    simp [signature, Signature.layout, Signature.declarationsLayout, Declaration.layout,
      Member.layouts, Layout.lineComment, DeclarationKind.header, TypeName.layout,
      place.layout_classType, front, back, level, bodyBack]
  | including place | extending place =>
    rw [signature, layout_ofMember rfl (by simp), MemberContent.code, place.layout_classType]
    simp [front, back, level]
  | argument outer place ih =>
    have hclass := place.layout_classType t
    rw [signature, ih, TypeExpr.layout]
    rw [ClassType.layout, ArgumentPlace.classType] at hclass
    rw [hclass]
    simp [front, back, level]

/-- Every text with a type in it begins with a line. -/
theorem exists_front_eq (place : TypePlace) : ∃ layout, place.front = .line 0 :: layout := by
  induction place with
  | argument outer place ih =>
    obtain ⟨layout, h⟩ := ih
    exact ⟨layout ++ place.front, by rw [front, h, List.cons_append]⟩
  | _ => exact ⟨_, rfl⟩

/-- The text of the signature has the text of the type in the place. -/
theorem text_signature (place : TypePlace) (t : TypeExpr) :
    (place.signature t).text = place.source (t.text place.level) := by
  obtain ⟨layout, hfront⟩ := place.exists_front_eq
  rw [Signature.text, layout_signature, source, TypeExpr.text, hfront]
  apply String.toList_injective
  simp [Layout.text, Layout.chars_append, Layout.Item.chars]

/-! ### Well-formed places -/

/-- Whether all around the type is well formed. -/
def WellFormed : TypePlace → Prop
  | attr _ name => IsMethodName name
  | param place before kind name after returned =>
    place.WellFormed ∧ (∀ p ∈ before ++ after, p.WellFormed) ∧ kind.WellFormed ∧
      (∀ text ∈ name, IsWord text) ∧ returned.WellFormed
  | result place params => place.WellFormed ∧ ∀ p ∈ params, p.WellFormed
  | superclass place | including place | extending place => place.WellFormed
  | argument outer place =>
    outer.WellFormed ∧ place.WellFormed ∧ place.name.IsNoKeyword ∧ place.name.namesAlias = false

/-- A text of one declaration without annotations is well formed where the declaration is. -/
theorem wellFormed_ofDeclaration {d : Declaration} (h : d.WellFormed)
    (hannots : d.allAnnotations = []) : Signature.WellFormed ⟨[d], []⟩ := by
  refine ⟨⟨List.forall_mem_singleton.2 h, List.forall_mem_nil _⟩, ?_⟩
  rw [Signature.annotations, List.flatMap_singleton, hannots]
  exact List.forall_mem_nil _

/-- A text of one member of one line is well formed where the member is. -/
theorem wellFormed_ofMember {content : MemberContent} (h : content.WellFormed)
    (hline : content.isDeclaration = false) : (ofMember content).WellFormed := by
  have hname : TypeName.WellFormed ⟨false, ["A"]⟩ := by decide +kernel
  refine wellFormed_ofDeclaration ?_ ?_
  · rw [Declaration.WellFormed, Member.AllWellFormed, Member.WellFormed]
    simp [DeclarationKind.WellFormed, hname, h, AreCommentTexts, Member.AllWellFormed]
  · rw [Declaration.allAnnotations, Member.listAnnotations, Member.allAnnotations_of_line hline]
    rfl

/-- A text is well formed where the type that was left open is, and all around it. -/
theorem WellFormed.signature {place : TypePlace} (h : place.WellFormed) {t : TypeExpr}
    (ht : t.WellFormed) : (place.signature t).WellFormed := by
  induction place generalizing t with
  | attr kind name =>
    refine wellFormed_ofMember ?_ rfl
    rw [MemberContent.WellFormed]
    exact ⟨h, ht⟩
  | param place before kind name after returned =>
    obtain ⟨hplace, hparams, hkind, hname, hresult⟩ := h
    rw [List.forall_mem_append] at hparams
    refine wellFormed_ofMember ?_ rfl
    rw [MemberContent.WellFormed]
    exact hplace.method ⟨List.forall_mem_append.2
      ⟨hparams.1, List.forall_mem_cons.2 ⟨⟨hkind, ht, hname⟩, hparams.2⟩⟩, hresult⟩
  | result place params =>
    refine wellFormed_ofMember ?_ rfl
    rw [MemberContent.WellFormed]
    exact h.1.method ⟨h.2, ht⟩
  | superclass place =>
    have hclass : (place.classType t).WellFormed := ⟨ArgumentPlace.WellFormed.named h, h.args ht⟩
    have hname : TypeName.WellFormed ⟨false, ["A"]⟩ := by decide +kernel
    refine wellFormed_ofDeclaration ?_ (by rw [Declaration.allAnnotations]; rfl)
    rw [Declaration.WellFormed]
    simp [DeclarationKind.WellFormed, hname, hclass, AreCommentTexts, Member.AllWellFormed]
  | including place | extending place =>
    refine wellFormed_ofMember ?_ rfl
    rw [MemberContent.WellFormed]
    exact ⟨ArgumentPlace.WellFormed.named h, h.args ht⟩
  | argument outer place ih =>
    obtain ⟨houter, hplace, hkeyword, hclass⟩ := h
    exact ih houter (.classRef hplace.named hkeyword hclass (hplace.args ht))

/-- Whether a type written at the level may be put in the place: only at the lowest level, but where
a method's result stands at all others. -/
def Admits : TypePlace → (level : Nat) → Prop
  | result _ _, level => 1 ≤ level
  | _, level => level = 0

/-- A type is written in a place alike at every level that may be put there. -/
theorem Admits.layout_eq {place : TypePlace} {level : Nat} (h : place.Admits level)
    (t : TypeExpr) : t.layout level = t.layout place.level := by
  cases place with
  | result place params => exact t.layout_of_pos h
  | _ => rw [show level = 0 from h]; rfl

end TypePlace

/-- The text of a type can be put in every place: at level zero where nothing but a type can stand,
and at a higher one, of which all write alike, behind the arrow of a method. What is read there is
the type with nothing optional twice in a row. -/
theorem TypeExpr.parse_source {t : TypeExpr} (ht : t.WellNamed) :
    (∀ (place : TypePlace) (level : Nat), place.WellFormed → place.Admits level →
      Signature.parse (place.source (t.text level)) = .ok (place.signature t.collapsed)) ∧
    ∀ m n, 1 ≤ m → 1 ≤ n → t.text m = t.text n := by
  constructor
  · intro place level hplace hlevel
    -- the signature with the collapsed type is written as that text, so it is read back
    have htext : (place.signature t.collapsed).text = place.source (t.text level) := by
      rw [place.text_signature, TypeExpr.text, TypeExpr.text, ht.layout_collapsed,
        hlevel.layout_eq t]
    rw [← htext]
    exact Signature.parse_eq_ok_iff.2 (hplace.signature ht.collapsed_wellFormed).ofTokens_text
  · intro m n hm hn
    rw [TypeExpr.text, TypeExpr.text, t.layout_of_pos hm, t.layout_of_pos hn]

/-- The result of a way to call a method that is written below another. -/
def TypePlace.sample : TypePlace :=
  .result ⟨"f?", true, [⟨[], .base .void⟩], []⟩ [⟨.rest, .base .untyped, none⟩]

theorem TypePlace.sample_wellFormed : sample.WellFormed := by
  refine ⟨⟨Or.inr ⟨"f", '?', by decide +kernel, by decide, by decide +kernel⟩, ?_⟩, ?_⟩
  · exact List.forall_mem_singleton.2 ⟨List.forall_mem_nil _, .base .void⟩
  · exact List.forall_mem_singleton.2 ⟨trivial, .base .untyped, by simp⟩

theorem TypeExpr.parse_source_sample :
    let inner := union [base .nil, aliasRef ⟨true, ["A", "b"]⟩]
    let t := union [optional (optional inner), base .bool]
    t.WellNamed ∧ TypePlace.sample.WellFormed ∧ TypePlace.sample.Admits 7 ∧
      TypePlace.sample.source (t.text 7) =
        "class A\n  def self.f?: () -> void\n" ++
          "             | (*untyped) -> ((nil | ::A::b)? | bool)\nend\n" ∧
      Signature.parse (TypePlace.sample.source (t.text 7)) =
        .ok (TypePlace.sample.signature t.collapsed) ∧
      t.text 7 = t.text 1 := by
  intro inner t
  have ht : t.WellNamed := by
    refine .union (by simp) (List.forall_mem_cons.2 ⟨.optional (.optional (.union (by simp) ?_)),
      List.forall_mem_singleton.2 (.base .bool)⟩)
    exact List.forall_mem_cons.2 ⟨.base .nil, List.forall_mem_singleton.2
      (.aliasRef (by decide +kernel) (by decide +kernel) (by decide +kernel))⟩
  have hadmits : TypePlace.sample.Admits 7 := by
    show 1 ≤ 7
    decide
  obtain ⟨hparse, hlevels⟩ := parse_source ht
  exact ⟨ht, TypePlace.sample_wellFormed, hadmits, by decide +kernel,
    hparse _ 7 TypePlace.sample_wellFormed hadmits, hlevels 7 1 (by decide) (by decide)⟩

end ModelSignatures
