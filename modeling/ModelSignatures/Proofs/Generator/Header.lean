import ModelSignatures.Generator.Namespace
import ModelSignatures.Proofs.ConstantPath
import ModelSignatures.Proofs.Generator.Declared
import ModelSignatures.Proofs.Signature.Annotations
import ModelSignatures.Proofs.Signature.Code

/-!
# The lines of a header

Each line of a header that was checked can be laid out and opens a declaration, but for a line whose
superclass has two separators in front. One is taken off before the name is checked and the other by
the check, and the line has a separator in front of what is left after the first.
-/

namespace ModelSignatures

open Layout (tokens word symbol chars IsCodeBefore EndsWord isCodeBefore_word isCodeBefore_symbol
  isCodeBefore_space endsWord_cons)

namespace ConstantPath

/-- Whether a superclass is named with two separators in front. -/
def IsStacked (superclass : Option String) : Prop :=
  ∃ name ∈ superclass, [':', ':', ':', ':'] <+: name.toList

/-- The superclass that is declared has a name of its own. -/
theorem explicitSuperclass_eq_some_iff {superclass : Option String} {name : String} :
    explicitSuperclass superclass = some name ↔
      ∃ full, superclass = some full ∧ relative full = name ∧ name ≠ "" ∧ name ≠ "Object" := by
  cases superclass with
  | none => exact ⟨fun h ↦ (by cases h), fun ⟨_, h, _⟩ ↦ (by cases h)⟩
  | some full =>
    unfold explicitSuperclass
    rw [Option.map_some]
    split
    next heq => cases heq
    next heq => simp_all
    next heq => simp_all
    next name' hempty hobject heq =>
      cases heq
      constructor
      · intro h
        cases h
        exact ⟨full, rfl, rfl, hempty, hobject⟩
      · rintro ⟨_, ⟨⟩, rfl, -⟩
        rfl

/-- A superclass is stacked if a separator is left in front of the name that is declared. -/
theorem isStacked_iff {superclass : Option String} :
    IsStacked superclass ↔
      ∃ name, explicitSuperclass superclass = some name ∧ [':', ':'] <+: name.toList := by
  constructor
  · rintro ⟨full, hfull, rest, hrest⟩
    cases hfull
    rcases relative_eq_or full with h | ⟨-, h⟩
    · have hname : (relative full).toList = ':' :: ':' :: rest := by
        rw [← hrest] at h
        simpa using h.symm
      refine ⟨relative full, explicitSuperclass_eq_some_iff.2 ⟨full, rfl, rfl, ?_, ?_⟩, rest,
        hname.symm⟩
      · rintro h
        simp [h] at hname
      · rintro h
        simp [h] at hname
    · exact absurd ⟨':' :: ':' :: rest, by simpa using hrest⟩ h
  · rintro ⟨name, hname, rest, hrest⟩
    obtain ⟨full, rfl, hrelative, -⟩ := explicitSuperclass_eq_some_iff.1 hname
    rcases relative_eq_or full with h | ⟨h, hnot⟩
    · refine ⟨full, rfl, rest, ?_⟩
      rw [h, hrelative, ← hrest]
      rfl
    · rw [← h, hrelative] at hnot
      exact absurd ⟨rest, hrest⟩ hnot

end ConstantPath

open ConstantPath (IsStacked isStacked_iff relative_eq_or explicitSuperclass isConstantName)

/-! ### Lines -/

/-- The line that opens a declaration, which spells its header unless the superclass is stacked. -/
structure Opening where
  superclass : Option String
  kind : DeclarationKind
  segment : String
  layout : Layout
  head : ∃ text more, layout = .token (.word text) :: more
  code : ∀ {after}, EndsWord after → IsCodeBefore layout after
  annots : annotTexts (tokens layout) = []
  spelled : ¬IsStacked superclass → kind.Spells (constantName segment) (tokens layout)
  stacked : IsStacked superclass → [.symbol .colonColon, .symbol .colonColon] <:+: tokens layout

theorem wellFormed_constantName {segment : String} (h : isConstantName segment = true) :
    (constantName segment).WellFormed :=
  ⟨by simp [constantName], by simpa [constantName] using ConstantPath.isWord_of_isConstantName h⟩

theorem chars_constantName (segment : String) :
    chars (constantName segment).layout = segment.toList := by
  simp [constantName, TypeName.layout, word, Layout.Item.chars, TokenKind.spelling]

/-- The line of a class whose superclass has a separator too many. -/
def stackedHeader (name superclass : TypeName) : Layout :=
  word "class" ++ [.space] ++ name.layout ++ [.space] ++ symbol .less ++ [.space] ++
    symbol .colonColon ++ superclass.layout

theorem tokens_stackedHeader (name : TypeName) (path : List String) :
    tokens (stackedHeader name ⟨true, path⟩) =
      .word "class" :: (name.kinds ++ .symbol .less :: .symbol .colonColon ::
        TypeName.kinds ⟨true, path⟩) := by
  simp [stackedHeader, word, symbol, TypeName.tokens_layout]

namespace Opening

section Opening

variable {segment : String} (hsegment : isConstantName segment = true)
  {superclass : Option String}

/-- The line of a header without a stacked superclass. -/
def ofHeader (kind : DeclarationKind) (hkind : kind.WellFormed) (h : ¬IsStacked superclass) :
    Opening where
  superclass := superclass
  kind := kind
  segment := segment
  layout := kind.header (constantName segment)
  head := by
    obtain ⟨text, more, hhead, -⟩ := hkind.spells (wellFormed_constantName hsegment)
    exact ⟨text, more, hhead⟩
  code := hkind.isCodeBefore (wellFormed_constantName hsegment)
  annots := by
    obtain ⟨-, -, -, hspells⟩ := hkind.spells (wellFormed_constantName hsegment)
    exact codeClosed_annotTexts.header hspells
  spelled _ := by
    obtain ⟨-, -, -, hspells⟩ := hkind.spells (wellFormed_constantName hsegment)
    exact hspells
  stacked hstacked := absurd hstacked h

/-- The line of a class with a stacked superclass. -/
def ofStacked {path : List String} (hpath : TypeName.WellFormed ⟨true, path⟩)
    (kind : DeclarationKind) (h : IsStacked superclass) : Opening where
  superclass := superclass
  kind := kind
  segment := segment
  layout := stackedHeader (constantName segment) ⟨true, path⟩
  head := ⟨_, _, rfl⟩
  code hafter := by
    have hname := wellFormed_constantName hsegment
    exact (((((((isCodeBefore_word (by decide) (endsWord_cons (by decide) _)).append
      (isCodeBefore_space _)).append (hname.isCodeBefore (endsWord_cons (by decide) _))).append
      (isCodeBefore_space _)).append (isCodeBefore_symbol (by decide) _)).append
      (isCodeBefore_space _)).append (isCodeBefore_symbol (by decide) _)).append
      (hpath.isCodeBefore hafter)
  annots := by
    rw [tokens_stackedHeader]
    exact codeClosed_annotTexts.word_cons _ (codeClosed_annotTexts.append
      (codeClosed_annotTexts.kinds (wellFormed_constantName hsegment).nonempty)
      (codeClosed_annotTexts.symbol_cons (by decide) (codeClosed_annotTexts.kinds hpath.nonempty)))
  spelled hnot := absurd h hnot
  stacked _ := by
    rw [tokens_stackedHeader]
    refine ⟨.word "class" :: ((constantName segment).kinds ++ [.symbol .less]),
      (TypeName.kinds ⟨true, path⟩).tail, ?_⟩
    simp [TypeName.kinds]

end Opening

/-- The declaration that a line opens, with some members. -/
def declaration (o : Opening) (members : List Member) : Declaration :=
  .of o.kind o.segment members

/-- The members of a body: a declaration that has the others inside each other, or those of the
innermost. -/
def body : List Opening → List Member → List Member
  | [], members => members
  | o :: inner, members => [.of [] (.nested (o.declaration (body inner members)))]

end Opening

/-- The superclass that a constant is declared with. -/
def ConstantKind.superclass? : ConstantKind → Option String
  | ofClass superclass => superclass
  | ofModule | ofValue => none

/-- What a line says that opens a constant of the kind. -/
structure Opening.Opens (o : Opening) (segment : String) (kind : ConstantKind) : Prop where
  superclass : o.superclass = kind.superclass?
  segment : o.segment = segment
  kind : kind.declared? = some o.kind

/-- The line of a class whose superclass was checked. -/
theorem exists_opening_subclass {segment name : String} {superclass : Option String}
    (hsegment : isConstantName segment = true)
    (hexplicit : explicitSuperclass superclass = some name)
    (hpath : ConstantPath.isConstantPath name = true) :
    ∃ o : Opening, ("class " ++ segment ++ " < ::" ++ name).toList = chars o.layout ∧
      o.Opens segment (.ofClass superclass) := by
  have hwell := ConstantPath.wellFormed_segments hpath
  have hchars := ConstantPath.chars_layout_segments (ConstantPath.relative name)
  have hkind : (ConstantKind.ofClass superclass).declared? =
      some (.ofClass (some (absoluteType name))) := by
    rw [ConstantKind.declared?, hexplicit, Option.map_some]
  rcases relative_eq_or name with hrelative | ⟨hrelative, hnot⟩
  · refine ⟨.ofStacked hsegment hwell (.ofClass (some (absoluteType name)))
      (isStacked_iff.2 ⟨name, hexplicit, _, hrelative.symm⟩), ?_, rfl, rfl, hkind⟩
    simp [Opening.ofStacked, stackedHeader, Layout.chars_append, hchars, hrelative,
      chars_constantName, word, symbol, Layout.Item.chars, TokenKind.spelling, Symbol.spelling]
  · rw [hrelative] at hwell hchars
    have hsuper : (absoluteType name).WellFormed := ⟨hwell, by simp [absoluteType]⟩
    have hstacked : ¬IsStacked superclass := by
      intro hstacked
      obtain ⟨name', hsome, hprefix⟩ := isStacked_iff.1 hstacked
      rw [hexplicit] at hsome
      cases hsome
      exact hnot hprefix
    have hlayout : chars (absoluteType name).layout = _ := hchars
    refine ⟨.ofHeader hsegment (.ofClass (some (absoluteType name)))
      (by simpa [DeclarationKind.WellFormed] using hsuper) hstacked, ?_, rfl, rfl, hkind⟩
    simp [Opening.ofHeader, DeclarationKind.header, Layout.chars_append, hlayout,
      chars_constantName, word, symbol, Layout.Item.chars, TokenKind.spelling, Symbol.spelling]

namespace ClassDescriptor

/-- Every line that opens a constant is laid out. -/
theorem exists_opening_of_openingLine {segment path line : String} {kind : ConstantKind}
    (hsegment : isConstantName segment = true) (h : openingLine segment path kind = .ok line) :
    ∃ o : Opening, line.toList = chars o.layout ∧ o.Opens segment kind := by
  cases kind with
  | ofValue => cases h
  | ofModule =>
    cases h
    have hnone : ¬IsStacked none := fun ⟨_, hmem, _⟩ ↦ by cases hmem
    refine ⟨.ofHeader hsegment .ofModule (by simp [DeclarationKind.WellFormed]) hnone,
      ?_, rfl, rfl, rfl⟩
    simp [Opening.ofHeader, DeclarationKind.header, chars_constantName, word, Layout.Item.chars,
      TokenKind.spelling]
  | ofClass superclass =>
    rw [openingLine] at h
    cases hexplicit : explicitSuperclass superclass with
    | none =>
      rw [hexplicit] at h
      cases h
      have hstacked : ¬IsStacked superclass := by
        intro hstacked
        obtain ⟨name, hsome, -⟩ := isStacked_iff.1 hstacked
        rw [hexplicit] at hsome
        cases hsome
      refine ⟨.ofHeader hsegment (.ofClass none) (by simp [DeclarationKind.WellFormed])
        hstacked, ?_, rfl, rfl, ?_⟩
      · simp [Opening.ofHeader, DeclarationKind.header, chars_constantName, word,
          Layout.Item.chars, TokenKind.spelling]
      · rw [ConstantKind.declared?, hexplicit]
        rfl
    | some name =>
      rw [hexplicit] at h
      dsimp only at h
      split at h
      next hpath =>
        cases h
        exact exists_opening_subclass hsegment hexplicit hpath
      · cases h

/-- The superclasses that the lines of a header are declared with, by the paths of its constants. -/
def superclassesAlong (d : ClassDescriptor) : List String → List (Option String)
  | [] => []
  | [_] => [d.superclass]
  | path :: inner =>
    (d.enclosing.find? path).bind ConstantKind.superclass? :: d.superclassesAlong inner

/-- The superclass of the class and those of the classes around it, the outermost first. -/
def superclasses (d : ClassDescriptor) : List (Option String) :=
  d.superclassesAlong d.segmentPaths

theorem length_superclassesAlong (d : ClassDescriptor) (paths : List String) :
    (d.superclassesAlong paths).length = paths.length := by
  fun_induction superclassesAlong d paths with
  | case1 | case2 => rfl
  | case3 path inner hne ih => exact congrArg (· + 1) ih

/-- The lines that open the constants of a path are laid out, and open the declaration along it. -/
theorem exists_openings_of_openingLines (d : ClassDescriptor) {constants : List (String × String)}
    {lines : List String} (hsegments : ∀ c ∈ constants, isConstantName c.1 = true)
    (h : d.openingLines constants = .ok lines) :
    ∃ openings : List Opening, lines.map String.toList = openings.map (chars ·.layout) ∧
      openings.map (·.superclass) = d.superclassesAlong (constants.map Prod.snd) ∧
      ∀ o inner, openings = o :: inner →
        d.declarationAlong constants = some (o.declaration (Opening.body inner d.members)) := by
  fun_induction ClassDescriptor.openingLines d constants generalizing lines with
  | case1 =>
    cases h
    exact ⟨[], rfl, rfl, by simp⟩
  | case2 segment path =>
    obtain ⟨line, hline, h⟩ := Except.bind_eq_ok_iff.1 h
    cases h
    obtain ⟨o, hchars, hsuper, hsegment, hkind⟩ :=
      exists_opening_of_openingLine (hsegments _ List.mem_cons_self) hline
    refine ⟨[o], by simp [hchars],
      by simp [hsuper, ConstantKind.superclass?, superclassesAlong], ?_⟩
    rintro _ _ ⟨⟩
    rw [declarationAlong, hkind, Opening.declaration, hsegment]
    rfl
  | case3 segment path inner hne ih =>
    obtain ⟨kind, hkind, h⟩ := Except.bind_eq_ok_iff.1 h
    obtain ⟨line, hline, h⟩ := Except.bind_eq_ok_iff.1 h
    obtain ⟨others, hothers, h⟩ := Except.bind_eq_ok_iff.1 h
    cases h
    obtain ⟨o, hchars, hsuper, hsegment, hdeclared⟩ :=
      exists_opening_of_openingLine (hsegments _ List.mem_cons_self) hline
    obtain ⟨openings, hall, hsupers, hdeclaration⟩ :=
      ih (fun c hc ↦ hsegments c (List.mem_cons_of_mem _ hc)) hothers
    have hfound : d.enclosing.find? path = some kind := by
      rw [kindOf] at hkind
      split at hkind
      next hfound =>
        cases hkind
        exact hfound
      · cases hkind
    refine ⟨o :: openings, by simp [hchars, hall], ?_, ?_⟩
    · rcases inner with - | ⟨next, inner⟩
      · exact absurd rfl hne
      · rw [List.map_cons, hsupers, hsuper]
        simp [superclassesAlong, hfound]
    · rintro _ _ ⟨⟩
      -- there are as many openings as constants, so the constants inside are opened too
      have hlength := congrArg List.length hsupers
      rw [List.length_map, length_superclassesAlong, List.length_map] at hlength
      rcases openings with - | ⟨next, inner'⟩
      · exact absurd (List.length_eq_zero_iff.1 hlength.symm) hne
      · have hopens : o.declaration = Declaration.of o.kind segment :=
          congrArg (Declaration.of o.kind) hsegment
        rw [declarationAlong, hfound, Option.bind_eq_bind, Option.bind_some, hdeclared,
          hdeclaration next inner' rfl, hopens]
        · rfl
        · exact hne

theorem length_pathsFrom (path : String) (segments : List String) :
    (ConstantPath.pathsFrom path segments).length = segments.length := by
  induction segments generalizing path with
  | nil => rfl
  | cons segment segments ih => exact congrArg (· + 1) (ih _)

/-- A header that was checked is made of lines that are laid out, one for each segment, and opens
the declaration of the class. -/
theorem exists_openings_of_header (d : ClassDescriptor) {header : String}
    (h : d.header = .ok header) :
    ∃ o inner, (o :: inner).length = d.segments.length ∧
      '\n' :: header.toList = (o :: inner).flatMap (fun o ↦ '\n' :: chars o.layout) ∧
      (o :: inner).map Opening.superclass = d.superclasses ∧
      d.declaration = some (o.declaration (Opening.body inner d.members)) := by
  rw [ClassDescriptor.header] at h
  split at h
  next hall =>
    obtain ⟨lines, hlines, h⟩ := Except.bind_eq_ok_iff.1 h
    cases h
    have hlength : d.segmentPaths.length = d.segments.length := length_pathsFrom _ _
    obtain ⟨openings, hchars, hsupers, hdeclaration⟩ := d.exists_openings_of_openingLines
      (fun c hc ↦ List.all_eq_true.1 hall _ (List.of_mem_zip hc).1) hlines
    rw [List.map_snd_zip (by omega)] at hsupers
    have hopenings := congrArg List.length hsupers
    rw [List.length_map, length_superclassesAlong, hlength] at hopenings
    have hne : openings ≠ [] := by
      intro hnil
      rw [hnil, eq_comm, List.length_nil, List.length_eq_zero_iff] at hopenings
      exact ConstantPath.segments_ne_nil d.qualifiedName hopenings
    obtain ⟨o, inner, rfl⟩ := List.exists_cons_of_ne_nil hne
    refine ⟨o, inner, hopenings, ?_, hsupers, hdeclaration o inner rfl⟩
    rw [String.toList_intercalate, hchars, List.map_cons, Layout.intercalate_cons,
      List.flatMap_cons, List.flatMap_map]
    rfl
  · cases h

end ClassDescriptor

end ModelSignatures
