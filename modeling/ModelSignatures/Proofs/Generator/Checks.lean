import ModelSignatures.Generator.Signature
import ModelSignatures.Proofs.ConstantPath.Segments
import ModelSignatures.Proofs.Generator.Header

/-!
# The order of the checks

What comes of a class is settled by the first check that decides it: an attribute that cannot be a
method, then that there is nothing to declare, then a segment of the name that is no name of a
constant, then the outermost constant that cannot be opened (`settledInOrder_generate`). What each
check looks at is told here without the others, and "first" is always the first item of a list that
`List.find?` or `List.findSome?` finds.
-/

namespace ModelSignatures

open ConstantPath (isMethodName isConstantName isConstantPath explicitSuperclass)

/-- The error for a constant that cannot be opened: one that is not known or is a value, or a class
whose superclass is no path of constants. -/
def openingFault? (path : String) : Option ConstantKind → Option GenerationError
  | none => some (.unresolved path)
  | some .ofValue => some (.unresolved path)
  | some .ofModule => none
  | some (.ofClass superclass) =>
    ((explicitSuperclass superclass).filter fun name ↦ !isConstantPath name).map .invalidName

namespace ClassDescriptor

variable (d : ClassDescriptor)

/-! ### What is checked -/

/-- The name of the first attribute that cannot be a method, if the class has the capability. -/
def invalidAttribute? : Option String :=
  if d.hasCapability .attributes then
    (d.attributes.find? fun a ↦ !isMethodName a.name).map AttributeDecl.name
  else none

/-- Whether a class has neither capabilities of its own nor passwords nor attributes. -/
structure DeclaresNothing : Prop where
  mixins : d.ormSubclass = true ∨ ∀ c, d.hasCapability c = false
  passwords : d.securePassword = false ∨ d.passwordAttributes = []
  attributes : d.hasCapability .attributes = false ∨ d.attributes = []

/-- Whether all segments of the class's name are names of constants. -/
def HasConstantName : Prop :=
  ∀ segment ∈ d.segments, isConstantName segment = true

/-- The paths of the constants around the class and of the class itself, the outermost first. -/
def constantPaths : List String :=
  (List.range d.segments.length).map fun i ↦ "::".intercalate (d.segments.take (i + 1))

/-- The error for the constant at a place of some paths. The last of them is the class itself, and
the others are looked up. -/
def faultAt? (paths : List String) (place : ℕ) : Option GenerationError :=
  paths[place]?.bind fun path ↦ openingFault? path <|
    if place + 1 = paths.length then some (.ofClass d.superclass) else d.enclosing.find? path

/-- The error for the outermost constant that cannot be opened. -/
def outermostFault? : Option GenerationError :=
  (List.range d.constantPaths.length).findSome? (d.faultAt? d.constantPaths)

/-! ### Attributes -/

/-- The blocks of attributes fail with the first name that is none of a method. -/
theorem accessorBlocks_eq (attributes : List AttributeDecl) :
    d.accessorBlocks attributes =
      match attributes.find? fun a ↦ !isMethodName a.name with
      | some a => .error (.invalidAttribute d.qualifiedName a.name)
      | none => .ok (attributes.map d.accessorLines) := by
  induction attributes with
  | nil => rfl
  | cons a rest ih =>
    rw [accessorBlocks, List.find?_cons]
    cases hname : isMethodName a.name with
    | true =>
      rw [if_pos rfl, ih]
      cases rest.find? fun a ↦ !isMethodName a.name <;> rfl
    | false => rfl

/-- The accessors of a class fail with the first name that is none of a method. -/
theorem accessors_eq :
    d.accessors =
      match d.invalidAttribute? with
      | some name => .error (.invalidAttribute d.qualifiedName name)
      | none => .ok (if d.hasCapability .attributes then
          "\n\n".intercalate (d.attributes.map d.accessorLines) else "") := by
  rw [accessors, invalidAttribute?]
  cases d.hasCapability .attributes with
  | false => rfl
  | true =>
    rw [if_pos rfl, if_pos rfl, if_pos rfl, accessorBlocks_eq]
    cases d.attributes.find? fun a ↦ !isMethodName a.name <;> rfl

/-- The accessors of a class are written where no attribute is invalid. -/
theorem exists_accessors {d : ClassDescriptor} (h : d.invalidAttribute? = none) :
    ∃ accessors, d.accessors = .ok accessors :=
  ⟨_, by rw [accessors_eq, h]⟩

/-- The attributes fail with the name of one that cannot be a method. -/
theorem accessors_eq_error {d : ClassDescriptor} {e : GenerationError}
    (h : d.accessors = .error e) :
    ∃ a ∈ d.attributes, isMethodName a.name = false ∧
      e = .invalidAttribute d.qualifiedName a.name := by
  rw [accessors_eq, invalidAttribute?] at h
  split at h
  next name hname =>
    cases h
    split at hname
    next =>
      obtain ⟨a, hfind, rfl⟩ := Option.map_eq_some_iff.1 hname
      exact ⟨a, List.mem_of_find?_eq_some hfind, by simpa using List.find?_some hfind, rfl⟩
    next => cases hname
  next => cases h

/-! ### Nothing to declare -/

/-- What is joined is not empty if its first text is not. -/
theorem intercalate_cons_ne_empty (separator : String) {text : String} (h : text ≠ "")
    (rest : List String) : separator.intercalate (text :: rest) ≠ "" := by
  cases rest with
  | nil => rwa [String.intercalate_singleton]
  | cons next rest =>
    rw [String.intercalate_cons_cons, Ne, String.append_eq_empty_iff, String.append_eq_empty_iff]
    exact fun hall ↦ h hall.1.1

/-- There are no mixins exactly if the class has no capability or is stored by a base class. -/
theorem mixins_eq_empty_iff :
    d.mixins = "" ↔ d.ormSubclass = true ∨ ∀ c, d.hasCapability c = false := by
  rw [mixins]
  cases d.ormSubclass with
  | true => simp
  | false =>
    rw [if_neg Bool.false_ne_true]
    cases hmembers : d.capabilities.toList with
    | nil =>
      refine iff_of_true rfl (Or.inr fun c ↦ ?_)
      have hnot : c ∉ d.capabilities.toList := by simp [hmembers]
      rwa [CapabilitySet.mem_toList, Bool.not_eq_true] at hnot
    | cons c cs =>
      have hc : d.hasCapability c = true :=
        CapabilitySet.mem_toList.1 (hmembers ▸ List.mem_cons_self)
      refine iff_of_false (intercalate_cons_ne_empty _ ?_ _) ?_
      · simp
      · rintro (h | h)
        · cases h
        · rw [h c] at hc
          cases hc

/-- Lines are written for every password. -/
theorem passwordLines_ne_empty (name : String) : passwordLines name ≠ "" := by
  have hfirst : "attr_reader " ++ name ++ ": String?" ≠ "" := by simp
  rw [passwordLines, Ne, String.append_eq_empty_iff]
  exact fun hall ↦ intercalate_cons_ne_empty _ hfirst _ hall.1

/-- There are no password methods exactly if the class has no secure password, or no attribute for
one. -/
theorem passwordMethods_eq_empty_iff :
    d.passwordMethods = "" ↔ d.securePassword = false ∨ d.passwordAttributes = [] := by
  rw [passwordMethods]
  cases d.securePassword with
  | false => simp
  | true =>
    rw [if_pos rfl]
    cases d.passwordAttributes with
    | nil => exact iff_of_true rfl (Or.inr rfl)
    | cons name names =>
      exact iff_of_false (intercalate_cons_ne_empty _ (passwordLines_ne_empty name) _) (by simp)

/-- Lines are written for every attribute. -/
theorem accessorLines_ne_empty (a : AttributeDecl) : d.accessorLines a ≠ "" := by
  rw [accessorLines]
  exact intercalate_cons_ne_empty _ (by decide) _

/-- There are no accessors exactly if the class does not take attributes or declares none. -/
theorem accessors_eq_empty_iff {accessors : String} (h : d.accessors = .ok accessors) :
    accessors = "" ↔ d.hasCapability .attributes = false ∨ d.attributes = [] := by
  rw [accessors_eq] at h
  cases hinvalid : d.invalidAttribute? with
  | some name =>
    rw [hinvalid] at h
    cases h
  | none =>
    rw [hinvalid] at h
    rw [← Except.ok.inj h]
    cases d.hasCapability .attributes with
    | false => simp
    | true =>
      rw [if_pos rfl]
      cases d.attributes with
      | nil => exact iff_of_true rfl (Or.inr rfl)
      | cons a rest =>
        exact iff_of_false (intercalate_cons_ne_empty _ (d.accessorLines_ne_empty a) _) (by simp)

/-- A class declares nothing exactly if no text is written for its members. -/
theorem declaresNothing_iff {accessors : String} (h : d.accessors = .ok accessors) :
    d.DeclaresNothing ↔ d.mixins = "" ∧ d.passwordMethods = "" ∧ accessors = "" := by
  rw [mixins_eq_empty_iff, passwordMethods_eq_empty_iff, d.accessors_eq_empty_iff h]
  exact ⟨fun h ↦ ⟨h.mixins, h.passwords, h.attributes⟩, fun h ↦ ⟨h.1, h.2.1, h.2.2⟩⟩

/-! ### The constants of the name -/

variable {d} {e : GenerationError}

/-- A line that cannot open a constant fails with the fault of the constant. -/
theorem openingLine_eq_error_iff {segment path : String} {kind : ConstantKind} :
    openingLine segment path kind = .error e ↔ openingFault? path (some kind) = some e := by
  cases kind with
  | ofModule => simp [openingLine, openingFault?]
  | ofValue => simp [openingLine, openingFault?]
  | ofClass superclass =>
    rw [openingLine, openingFault?]
    cases explicitSuperclass superclass with
    | none => simp
    | some name => cases hpath : isConstantPath name <;> simp [hpath]

/-- The opening lines fail with the error for the first constant that cannot be opened. -/
theorem openingLines_eq_error_iff {constants : List (String × String)} :
    d.openingLines constants = .error e ↔
      (List.range constants.length).findSome? (d.faultAt? (constants.map Prod.snd)) = some e := by
  fun_induction ClassDescriptor.openingLines d constants with
  | case1 => simp
  | case2 segment path =>
    have hlast : (List.range 1).findSome? (d.faultAt? [path]) = some e ↔
        openingLine segment path (.ofClass d.superclass) = .error e := by
      simp [faultAt?, openingLine_eq_error_iff]
    rw [List.map_singleton, List.length_singleton, hlast, Except.bind_pure_eq_error_iff]
  | case3 segment path inner hne ih =>
    have houter : d.faultAt? (path :: inner.map Prod.snd) 0 =
        openingFault? path (d.enclosing.find? path) := by
      simp [faultAt?, show inner ≠ [] from hne]
    have hinner : d.faultAt? (path :: inner.map Prod.snd) ∘ Nat.succ =
        d.faultAt? (inner.map Prod.snd) := by
      funext i
      simp [faultAt?]
    rw [List.map_cons, List.length_cons, List.range_succ_eq_map, List.findSome?_cons, houter,
      List.findSome?_map, hinner, kindOf]
    cases d.enclosing.find? path with
    | none => simp [openingFault?, Except.bind_eq_error_iff]
    | some kind =>
      rw [Except.ok_bind]
      cases hfault : openingFault? path (some kind) with
      | some fault =>
        rw [openingLine_eq_error_iff.2 hfault, Except.bind_eq_error_iff]
        simp
      | none =>
        cases hline : openingLine segment path kind with
        | error fault =>
          rw [openingLine_eq_error_iff.1 hline] at hfault
          cases hfault
        | ok line =>
          rw [Except.ok_bind, Except.bind_pure_eq_error_iff, ih]

/-- The constants of a name that has segments are those that its segments lead to. -/
theorem constantPaths_eq (h : d.HasConstantName) : d.constantPaths = d.segmentPaths := by
  refine (ConstantPath.segmentPaths_eq fun hempty ↦ ?_).symm
  cases h _ (List.mem_of_mem_head? hempty)

/-- The header fails on its segments first, whatever its constants are. -/
theorem header_eq_error_iff :
    d.header = .error e ↔
      ¬d.HasConstantName ∧ e = .invalidName d.qualifiedName ∨
        d.HasConstantName ∧ d.outermostFault? = some e := by
  have hall : d.segments.all isConstantName = true ↔ d.HasConstantName := List.all_eq_true
  rw [header]
  by_cases hname : d.HasConstantName
  · have hlength : d.segmentPaths.length = d.segments.length := length_pathsFrom _ _
    have hpaths : (d.segments.zip d.segmentPaths).map Prod.snd = d.constantPaths := by
      rw [List.map_snd_zip hlength.le, constantPaths_eq hname]
    have hnumber : (d.segments.zip d.segmentPaths).length = d.constantPaths.length := by
      rw [← hpaths, List.length_map]
    rw [if_pos (hall.2 hname), Except.bind_pure_eq_error_iff, openingLines_eq_error_iff, hpaths,
      hnumber, ← outermostFault?]
    simp [hname]
  · rw [if_neg (mt hall.1 hname)]
    simp [hname, eq_comm]

/-- A constant is at fault for not being known or for a superclass that is no path of constants. -/
theorem outermostFault?_eq_some (h : d.outermostFault? = some e) :
    (∃ path, e = .unresolved path) ∨
      ∃ name, isConstantPath name = false ∧ e = .invalidName name := by
  obtain ⟨place, -, hplace⟩ := List.exists_of_findSome?_eq_some h
  obtain ⟨path, -, hpath⟩ := Option.bind_eq_some_iff.1 hplace
  unfold openingFault? at hpath
  split at hpath
  next => exact .inl ⟨path, (Option.some.inj hpath).symm⟩
  next => exact .inl ⟨path, (Option.some.inj hpath).symm⟩
  next => cases hpath
  next =>
    obtain ⟨name, hname, rfl⟩ := Option.map_eq_some_iff.1 hpath
    obtain ⟨-, hnot⟩ := Option.filter_eq_some_iff.1 hname
    exact .inr ⟨name, by simpa using hnot, rfl⟩

/-- Whether an error is that of a name or of a constant. -/
def IsNamespaceError (e : GenerationError) : Prop :=
  (∃ name, e = .invalidName name) ∨ ∃ constant, e = .unresolved constant

/-- A header fails only with a name or with a constant. -/
theorem header_eq_error (h : d.header = .error e) : IsNamespaceError e := by
  rcases header_eq_error_iff.1 h with ⟨-, rfl⟩ | ⟨-, hfault⟩
  · exact .inl ⟨_, rfl⟩
  · rcases outermostFault?_eq_some hfault with hpath | ⟨name, -, rfl⟩
    · exact .inr hpath
    · exact .inl ⟨name, rfl⟩

/-- A name of constants is never at fault for being no path of constants. -/
theorem outermostFault?_ne (h : d.HasConstantName) :
    d.outermostFault? ≠ some (.invalidName d.qualifiedName) := by
  intro hfault
  have hconstant : isConstantPath d.qualifiedName = true :=
    ConstantPath.isConstantPath_of_segments (List.all_eq_true.2 h)
  rcases outermostFault?_eq_some hfault with ⟨path, heq⟩ | ⟨name, hnot, heq⟩
  · cases heq
  · cases heq
    rw [hconstant] at hnot
    cases hnot

/-! ### Generation -/

/-- A class with an invalid attribute fails, whatever else it declares. -/
theorem generate_of_invalidAttribute? {name : String} (h : d.invalidAttribute? = some name) :
    d.generate = .error (.invalidAttribute d.qualifiedName name) := by
  rw [generate, accessors_eq, h]
  rfl

/-- A class that declares nothing has no signature. -/
theorem generate_of_declaresNothing (h : d.invalidAttribute? = none)
    (hnothing : d.DeclaresNothing) : d.generate = .ok none := by
  obtain ⟨accessors, haccessors⟩ := exists_accessors h
  rw [generate, haccessors, Except.ok_bind, if_pos ((d.declaresNothing_iff haccessors).1 hnothing)]
  rfl

section Members

variable (h : d.invalidAttribute? = none) (hsome : ¬d.DeclaresNothing)
include h hsome

/-- Where there are members to declare, all rests on the header. -/
theorem exists_generate_eq_bind :
    ∃ formatted : String → Except SyntaxError String,
      d.generate = d.header >>= fun header ↦
        match formatted header with
        | .ok text => .ok (some text)
        | .error cause => .error (.malformed d.qualifiedName cause) := by
  obtain ⟨accessors, haccessors⟩ := exists_accessors h
  refine ⟨fun header ↦ Signature.format (Fragments.assembled
    ⟨header, d.mixins, d.passwordMethods, accessors, d.footer⟩), ?_⟩
  rw [generate, haccessors, Except.ok_bind,
    if_neg (mt (d.declaresNothing_iff haccessors).2 hsome)]
  rfl

/-- A class whose header fails has the error of the header. -/
theorem generate_of_header_eq_error (hheader : d.header = .error e) : d.generate = .error e := by
  obtain ⟨formatted, hgenerate⟩ := exists_generate_eq_bind h hsome
  rw [hgenerate, hheader]
  rfl

/-- A class with a header has a signature, or its text is malformed. -/
theorem generate_of_header_eq_ok {header : String} (hheader : d.header = .ok header) :
    (∃ text, d.generate = .ok (some text)) ∨
      ∃ cause, d.generate = .error (.malformed d.qualifiedName cause) := by
  obtain ⟨formatted, hgenerate⟩ := exists_generate_eq_bind h hsome
  rw [hgenerate, hheader, Except.ok_bind]
  cases formatted header with
  | ok text => exact .inl ⟨text, rfl⟩
  | error cause => exact .inr ⟨cause, rfl⟩

end Members

/-- Whether an outcome is settled by the first check on a class that decides it. -/
structure SettledInOrder (d : ClassDescriptor)
    (outcome : Except GenerationError (Option String)) : Prop where
  /-- Before all else, an attribute may be invalid. -/
  invalidAttribute : ∀ className attrName,
    outcome = .error (.invalidAttribute className attrName) ↔
      d.invalidAttribute? = some attrName ∧ className = d.qualifiedName
  /-- Then there may be nothing to declare, whatever the name and the constants are. -/
  nothing : outcome = .ok none ↔ d.invalidAttribute? = none ∧ d.DeclaresNothing
  /-- Then a segment of the name may be no name of a constant. -/
  invalidSegment : outcome = .error (.invalidName d.qualifiedName) ↔
    d.invalidAttribute? = none ∧ ¬d.DeclaresNothing ∧ ¬d.HasConstantName
  /-- Then a constant may be at fault, and the outermost of these decides. -/
  invalidName : ∀ name, outcome = .error (.invalidName name) ↔
    d.invalidAttribute? = none ∧ ¬d.DeclaresNothing ∧
      (¬d.HasConstantName ∧ name = d.qualifiedName ∨
        d.HasConstantName ∧ d.outermostFault? = some (.invalidName name))
  unresolved : ∀ path, outcome = .error (.unresolved path) ↔
    d.invalidAttribute? = none ∧ ¬d.DeclaresNothing ∧
      d.HasConstantName ∧ d.outermostFault? = some (.unresolved path)
  /-- Of a class that passes all checks there is a signature, or what is put together is none. -/
  passed : ((∃ text, outcome = .ok (some text)) ∨
      ∃ cause, outcome = .error (.malformed d.qualifiedName cause)) ↔
    d.invalidAttribute? = none ∧ ¬d.DeclaresNothing ∧
      d.HasConstantName ∧ d.outermostFault? = none

/-- What comes of a class is settled by the checks in their order. -/
theorem settledInOrder_generate (d : ClassDescriptor) : d.SettledInOrder d.generate := by
  cases hattr : d.invalidAttribute? with
  | some attrName =>
    have hgenerate := generate_of_invalidAttribute? hattr
    constructor <;> simp [hgenerate, hattr, eq_comm, and_comm]
  | none =>
    by_cases hnothing : d.DeclaresNothing
    · have hgenerate := generate_of_declaresNothing hattr hnothing
      constructor <;> simp [hgenerate, hattr, hnothing]
    by_cases hname : d.HasConstantName
    · cases hfault : d.outermostFault? with
      | some e =>
        have hheader := header_eq_error_iff.2 (.inr ⟨hname, hfault⟩)
        have hgenerate := generate_of_header_eq_error hattr hnothing hheader
        rcases header_eq_error hheader with ⟨name, rfl⟩ | ⟨path, rfl⟩
        · have hne : name ≠ d.qualifiedName := fun heq ↦ outermostFault?_ne hname (heq ▸ hfault)
          constructor <;> simp [hgenerate, hattr, hnothing, hname, hfault, hne]
        · constructor <;> simp [hgenerate, hattr, hnothing, hname, hfault]
      | none =>
        cases hheader : d.header with
        | error e => simp [header_eq_error_iff, hname, hfault] at hheader
        | ok header =>
          rcases generate_of_header_eq_ok hattr hnothing hheader with ⟨text, ht⟩ | ⟨cause, hc⟩
          · constructor <;> simp [ht, hattr, hnothing, hname, hfault]
          · constructor <;> simp [hc, hattr, hnothing, hname, hfault]
    · have hheader := header_eq_error_iff.2 (.inl ⟨hname, rfl⟩)
      have hgenerate := generate_of_header_eq_error hattr hnothing hheader
      constructor <;> simp [hgenerate, hattr, hnothing, hname, eq_comm]

end ClassDescriptor

end ModelSignatures
