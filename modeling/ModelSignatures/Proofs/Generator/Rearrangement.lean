import ModelSignatures.Proofs.Descriptor.Building
import ModelSignatures.Proofs.Generator.Report

/-!
# The order of the lines of a class body

Lines that write to different parts of a descriptor may change places: a class is told by its lines
(`IsToldBy`), and what they tell of each part depends on the order only of those that set it or that
add to a list. So bodies that keep these in order (`Rearranges`) describe the same class, of which
the same signature is generated, with its mixins in the order of all capabilities
(`build_eq_of_rearranges`). Lines that include a capability or validate an attribute may stand
anywhere (`rearranges_of_placed`).
-/

namespace ModelSignatures

namespace BuildStep

/-- Whether the place of a line among the others matters. It does not where the line only adds to a
set. -/
def isPlaced : BuildStep → Bool
  | capability _ | presenceOf _ => false
  | _ => true

/-- Whether a line says that the class is stored by a base class. -/
def isStoring : BuildStep → Bool
  | ormSubclass _ => true
  | _ => false

end BuildStep

/-- Whether a class body has the lines of another in an order that keeps apart what the order tells
apart: the lines that declare attributes, those that define methods, those that name the superclass
and, for each path, those that say what the constant is. -/
structure Rearranges (steps others : List BuildStep) : Prop where
  perm : steps.Perm others
  attributes : steps.filter (·.attribute?.isSome) = others.filter (·.attribute?.isSome)
  methods : steps.filter (!·.methods.isEmpty) = others.filter (!·.methods.isEmpty)
  superclass : steps.filter (·.superclass?.isSome) = others.filter (·.superclass?.isSome)
  enclosing : ∀ path,
    steps.filter (fun step ↦ (step.kindAt? path).isSome) =
      others.filter (fun step ↦ (step.kindAt? path).isSome)

/-! ### What is told in any order -/

section Filter

variable {α β : Type}

theorem filterMap_eq_of_filter_eq {f : α → Option β} {l m : List α}
    (h : l.filter (fun a ↦ (f a).isSome) = m.filter (fun a ↦ (f a).isSome)) :
    l.filterMap f = m.filterMap f := by
  have hfilter : ∀ l : List α, l.filterMap f = (l.filter fun a ↦ (f a).isSome).filterMap f := by
    intro l
    rw [List.filterMap_filter]
    refine List.filterMap_congr fun a _ ↦ ?_
    cases f a <;> rfl
  rw [hfilter l, hfilter m, h]

theorem flatMap_eq_of_filter_eq {f : α → List β} {l m : List α}
    (h : l.filter (fun a ↦ !(f a).isEmpty) = m.filter (fun a ↦ !(f a).isEmpty)) :
    l.flatMap f = m.flatMap f := by
  have hfilter : ∀ l : List α, l.flatMap f = (l.filter fun a ↦ !(f a).isEmpty).flatMap f := by
    intro l
    induction l with
    | nil => rfl
    | cons a l ih => cases hfa : f a <;> simp [hfa, ih]
  rw [hfilter l, hfilter m, h]

end Filter

namespace ClassDescriptor

theorem build_isToldBy (name : String) (steps : List BuildStep) :
    (build name steps).IsToldBy name steps := by
  induction steps using List.reverseRecOn with
  | nil => exact isToldBy_named name
  | append_singleton steps step ih =>
    rw [build, List.foldl_concat]
    exact ih.apply step

/-- Two classes told by the same lines in orders that tell the same are equal. -/
theorem IsToldBy.eq_of_rearranges {d e : ClassDescriptor} {name : String}
    {steps others : List BuildStep} (hd : d.IsToldBy name steps) (he : e.IsToldBy name others)
    (h : Rearranges steps others) : d = e := by
  have hmem : ∀ step, step ∈ steps ↔ step ∈ others := fun step ↦ h.perm.mem_iff
  have hsuperclass : d.superclass = e.superclass := by
    rw [hd.superclass, he.superclass, filterMap_eq_of_filter_eq h.superclass]
  have henclosing : d.enclosing = e.enclosing := by
    refine NameMap.ext_find? fun path ↦ ?_
    rw [hd.enclosing, he.enclosing, filterMap_eq_of_filter_eq (h.enclosing path)]
  have hcapabilities : d.capabilities = e.capabilities := by
    refine CapabilitySet.ext_contains fun c ↦ Bool.eq_iff_iff.2 ?_
    refine (hd.capabilities c).trans (Iff.trans ?_ (he.capabilities c).symm)
    simp only [hmem]
  have hattributes : d.attributes = e.attributes := by
    rw [hd.attributes, he.attributes, filterMap_eq_of_filter_eq h.attributes]
  have hvalidated : d.presenceValidated = e.presenceValidated := by
    refine NameSet.ext_contains fun attrName ↦ Bool.eq_iff_iff.2 ?_
    refine (hd.presenceValidated attrName).trans (Iff.trans ?_ (he.presenceValidated attrName).symm)
    exact hmem _
  have hpassword : d.securePassword = e.securePassword := by
    rw [Bool.eq_iff_iff, hd.securePassword, he.securePassword]
    simp only [hmem]
  have hmethods : d.instanceMethods = e.instanceMethods := by
    rw [hd.instanceMethods, he.instanceMethods, flatMap_eq_of_filter_eq h.methods]
  have hstored : d.ormSubclass = e.ormSubclass := by
    rw [Bool.eq_iff_iff, hd.ormSubclass, he.ormSubclass]
    simp only [hmem]
  have hname : d.qualifiedName = e.qualifiedName := hd.qualifiedName.trans he.qualifiedName.symm
  cases d
  cases e
  rw [ClassDescriptor.mk.injEq]
  exact ⟨hname, hsuperclass, henclosing, hcapabilities, hattributes, hvalidated, hpassword,
    hmethods, hstored⟩

end ClassDescriptor

/-! ### Lines that may stand anywhere -/

/-- Bodies with the same lines are rearranged if those whose place matters are in the same order. -/
theorem rearranges_of_placed {steps others : List BuildStep} (hperm : steps.Perm others)
    (hplaced : steps.filter BuildStep.isPlaced = others.filter BuildStep.isPlaced) :
    Rearranges steps others := by
  have hfilter : ∀ p : BuildStep → Bool, (∀ step, p step = true → step.isPlaced = true) →
      steps.filter p = others.filter p := by
    intro p hp
    have hboth : (fun step ↦ p step && step.isPlaced) = p := by
      funext step
      cases hstep : p step
      · rfl
      · rw [hp step hstep, Bool.and_self]
    rw [← hboth, ← List.filter_filter, ← List.filter_filter, hplaced]
  refine ⟨hperm, hfilter _ ?_, hfilter _ ?_, hfilter _ ?_, fun path ↦ hfilter _ ?_⟩
  all_goals
    intro step hstep
    cases step with
    | capability | presenceOf => cases hstep
    | _ => rfl

/-! ### Mixins -/

/-- Whether a member includes a module or extends the class with one. -/
def MemberContent.isMixin : MemberContent → Bool
  | including _ | extending _ => true
  | _ => false

/-- The mixins among some members. -/
def Member.mixins (ms : List Member) : List MemberContent :=
  (ms.map (·.content)).filter (·.isMixin)

/-- The mixins that the lines of a class body tell, in the order of all capabilities. A class that
is stored by a base class declares none. -/
def toldMixins (steps : List BuildStep) : List MemberContent :=
  if steps.any BuildStep.isStoring then []
  else
    (Capability.all.filter fun c ↦ steps.any fun step ↦ step.capabilities.contains c).flatMap
      fun c ↦ Member.mixins c.members

namespace Member

theorem mixins_append (ms ns : List Member) : mixins (ms ++ ns) = mixins ms ++ mixins ns := by
  rw [mixins, List.map_append, List.filter_append]
  rfl

theorem mixins_flatMap {α : Type} (f : α → List Member) (l : List α) :
    mixins (l.flatMap f) = l.flatMap fun a ↦ mixins (f a) := by
  induction l with
  | nil => rfl
  | cons a l ih => rw [List.flatMap_cons, mixins_append, ih, List.flatMap_cons]

/-- Empty lines between paragraphs do not change what is a mixin. -/
theorem mixins_joined (first : Bool) (paragraphs : List (List Member)) :
    mixins (joined first paragraphs) = paragraphs.flatMap mixins := by
  induction paragraphs generalizing first with
  | nil => rfl
  | cons paragraph paragraphs ih =>
    rw [List.flatMap_cons]
    cases paragraph with
    | nil => exact ih first
    | cons m ms =>
      rw [← ih false, ← mixins_append]
      rfl

end Member

theorem mixins_passwordParagraphs (name : String) :
    (passwordParagraphs name).flatMap Member.mixins = [] := by
  rw [passwordParagraphs]
  split <;> rfl

namespace ClassDescriptor

/-- The members for passwords and attributes are no mixins. -/
theorem mixins_members (d : ClassDescriptor) :
    Member.mixins d.members = Member.mixins d.mixinMembers := by
  have hpasswords : (if d.securePassword then d.passwordAttributes.flatMap passwordParagraphs
      else []).flatMap Member.mixins = [] := by
    split
    · rw [List.flatMap_assoc, List.flatMap_eq_nil_iff]
      exact fun name _ ↦ mixins_passwordParagraphs name
    · rfl
  have hattributes : (if d.hasCapability .attributes then d.attributes.map d.accessorMembers
      else []).flatMap Member.mixins = [] := by
    split
    · rw [List.flatMap_map, List.flatMap_eq_nil_iff]
      exact fun a _ ↦ rfl
    · rfl
  rw [members, Member.mixins_joined, paragraphs, List.flatMap_append, List.flatMap_append,
    hpasswords, hattributes, List.flatMap_singleton, List.append_nil, List.append_nil]

/-- The mixins of a class are those that the lines of its body tell. -/
theorem mixins_members_build (name : String) (steps : List BuildStep) :
    Member.mixins (build name steps).members = toldMixins steps := by
  have htold := build_isToldBy name steps
  have hstored : (build name steps).ormSubclass = steps.any BuildStep.isStoring := by
    rw [Bool.eq_iff_iff, htold.ormSubclass, List.any_eq_true]
    constructor
    · rintro ⟨base, hmem⟩
      exact ⟨_, hmem, rfl⟩
    · rintro ⟨step, hmem, hstep⟩
      cases step with
      | ormSubclass base => exact ⟨base, hmem⟩
      | _ => cases hstep
  have hlisted : (build name steps).capabilities.toList =
      Capability.all.filter fun c ↦ steps.any fun step ↦ step.capabilities.contains c := by
    refine List.filter_congr fun c _ ↦ Bool.eq_iff_iff.2 ((htold.capabilities c).trans ?_)
    simp only [List.any_eq_true, List.contains_iff_mem]
  rw [mixins_members, mixinMembers, hstored, hlisted, toldMixins]
  split
  · rfl
  · rw [Member.mixins_flatMap]

/-! ### Rearranged bodies -/

/-- Bodies whose lines are rearranged describe one class, of which one signature is generated, and
lines that include a capability or validate an attribute may be moved about in it. The mixins of the
signature are listed in the order of all capabilities. -/
theorem build_eq_of_rearranges (name : String) {steps others : List BuildStep}
    (h : Rearranges steps others) :
    build name steps = build name others ∧
      (build name steps).generate = (build name others).generate ∧
      (∀ moved : List BuildStep, moved.Perm steps →
        moved.filter BuildStep.isPlaced = steps.filter BuildStep.isPlaced →
          (build name moved).generate = (build name others).generate) ∧
      ∀ rbs, (build name others).generate = .ok (some rbs) →
        ∃ declaration, (build name others).declaration = some declaration ∧
          Signature.parse rbs = .ok ⟨[declaration], []⟩ ∧
          Member.mixins (build name others).members = toldMixins steps := by
  have hbuild : build name steps = build name others :=
    (build_isToldBy name steps).eq_of_rearranges (build_isToldBy name others) h
  refine ⟨hbuild, congrArg generate hbuild, fun moved hperm hplaced ↦ ?_, fun rbs hrbs ↦ ?_⟩
  · have hmoved := (build_isToldBy name moved).eq_of_rearranges (build_isToldBy name steps)
      (rearranges_of_placed hperm hplaced)
    rw [hmoved, hbuild]
  · obtain ⟨declaration, hdeclaration, -, hwell, htext⟩ := exists_text_of_generate hrbs
    refine ⟨declaration, hdeclaration, ?_, ?_⟩
    · rw [htext]
      exact Signature.parse_eq_ok_iff.2 hwell.ofTokens_text
    · rw [← hbuild, mixins_members_build]

/-- A body with lines of all kinds and one in which they stand elsewhere. -/
theorem build_eq_of_rearranges_sample :
    let steps : List BuildStep :=
      [.ormSubclass "Base", .superclass "::Other", .enclosing "Admin" .ofValue,
        .enclosing "Admin" .ofModule, .enclosing "Shop" .ofValue, .capability .model,
        .capability .attributes, .attr "age" .integer, .attrWithDefault "name" .string,
        .presenceOf "age", .securePassword "pin", .instanceMethod "save"]
    let others : List BuildStep :=
      [.presenceOf "age", .securePassword "pin", .enclosing "Shop" .ofValue, .attr "age" .integer,
        .capability .attributes, .enclosing "Admin" .ofValue, .ormSubclass "Base",
        .instanceMethod "save", .attrWithDefault "name" .string, .enclosing "Admin" .ofModule,
        .superclass "::Other", .capability .model]
    Rearranges steps others ∧ build "Admin::User" steps = build "Admin::User" others := by
  intro steps others
  have h : Rearranges steps others := by
    refine ⟨by decide +kernel, by decide +kernel, by decide +kernel, by decide +kernel, ?_⟩
    intro path
    by_cases hadmin : path = "Admin"
    · rw [hadmin]
      decide +kernel
    · by_cases hshop : path = "Shop" <;>
        simp [steps, others, BuildStep.kindAt?, hadmin, hshop]
  exact ⟨h, (build_eq_of_rearranges "Admin::User" h).1⟩

end ClassDescriptor

end ModelSignatures
