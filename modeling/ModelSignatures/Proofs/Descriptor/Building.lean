import Mathlib.Data.List.Forall2
import Mathlib.Data.List.Infix
import Mathlib.Data.List.Nodup
import ModelSignatures.Descriptor.Step
import ModelSignatures.Proofs.Generator.Passwords

/-!
# Descriptors as they are built

A line of a class body writes to some of the fields of the descriptor. What a line does to each
field is said once (`superclass_apply` and the lemmas beside it), and from that every state on the
way is told by the lines before it: by all of them for a field that is added to, and by the last one
that writes to a field that is set (`IsToldBy`). The states are coherent for this reason: a line
that brings a capability or a password brings all that belongs to it, and no line takes anything
away (`forall₂_isCoherent_states`).
-/

namespace ModelSignatures

/-! ### What a line says -/

namespace BuildStep

/-- The superclass that a line names. -/
def superclass? : BuildStep → Option String
  | superclass name => some name
  | ormSubclass name => some name
  | _ => none

/-- The kind that a line gives the constant of a path. -/
def kindAt? (path : String) : BuildStep → Option ConstantKind
  | enclosing other kind => if path = other then some kind else none
  | _ => none

/-- The capabilities that a line includes, with those that they bring with them. -/
def capabilities : BuildStep → List Capability
  | capability c => c :: c.implied
  | securePassword _ => [.securePassword, .validations]
  | _ => []

/-- The attribute that a line declares. -/
def attribute? : BuildStep → Option AttributeDecl
  | attr name type => some ⟨name, type, false⟩
  | attrWithDefault name type => some ⟨name, type, true⟩
  | _ => none

/-- The instance methods that a line defines. -/
def methods : BuildStep → List String
  | instanceMethod name => [name]
  | securePassword name => ["authenticate_" ++ name, name ++ "_confirmation"]
  | _ => []

end BuildStep

namespace ClassDescriptor

/-! ### What a line does to each field -/

section Apply

variable (d : ClassDescriptor) (step : BuildStep)

/-- No line changes the name of the class. -/
theorem qualifiedName_apply : (d.apply step).qualifiedName = d.qualifiedName := by
  cases step <;> rfl

/-- The last line that names a superclass counts. -/
theorem superclass_apply : (d.apply step).superclass = step.superclass?.or d.superclass := by
  cases step <;> rfl

/-- For each path the last line counts that tells what is there. -/
theorem find?_enclosing_apply (path : String) :
    (d.apply step).enclosing.find? path = (step.kindAt? path).or (d.enclosing.find? path) := by
  cases step with
  | enclosing other kind =>
    rw [apply, NameMap.find?_insert, BuildStep.kindAt?]
    split <;> rfl
  | _ => rfl

/-- With a capability come those that it implies. -/
theorem hasCapability_withCapability {c other : Capability} :
    (d.withCapability c).hasCapability other = true ↔
      other ∈ c :: c.implied ∨ d.hasCapability other = true := by
  rw [hasCapability, withCapability, CapabilitySet.contains_insertAll,
    CapabilitySet.contains_insert, Bool.or_eq_true, Bool.or_eq_true, List.contains_iff_mem,
    beq_iff_eq, List.mem_cons, or_assoc, or_left_comm]
  rfl

/-- A line adds the capabilities that it says, and takes none away. -/
theorem hasCapability_apply {c : Capability} :
    (d.apply step).hasCapability c = true ↔
      c ∈ step.capabilities ∨ d.hasCapability c = true := by
  cases step with
  | capability other => exact d.hasCapability_withCapability
  | securePassword name =>
    refine ((d.withCapability .securePassword).hasCapability_withCapability).trans ?_
    rw [hasCapability_withCapability, ← or_assoc]
    refine or_congr_left ?_
    simp [BuildStep.capabilities, Capability.implied, or_comm]
  | _ => simp [apply, BuildStep.capabilities, hasCapability, withAttribute, withInstanceMethods]

/-- An attribute is added behind those before it. -/
theorem attributes_apply :
    (d.apply step).attributes = d.attributes ++ step.attribute?.toList := by
  cases step with
  | attr | attrWithDefault => rfl
  | _ => exact (List.append_nil _).symm

/-- A name is validated from the line on that says so. -/
theorem isPresenceValidated_apply {name : String} :
    (d.apply step).isPresenceValidated name = true ↔
      step = .presenceOf name ∨ d.isPresenceValidated name = true := by
  cases step with
  | presenceOf other =>
    rw [isPresenceValidated, apply, NameSet.contains_insert, Bool.or_eq_true, beq_iff_eq,
      BuildStep.presenceOf.injEq, eq_comm]
    rfl
  | _ => simp [apply, isPresenceValidated, withCapability, withAttribute, withInstanceMethods]

/-- A class has a secure password from the first line on that declares one. -/
theorem securePassword_apply :
    (d.apply step).securePassword = true ↔
      (∃ name, step = .securePassword name) ∨ d.securePassword = true := by
  cases step <;> simp [apply, withCapability, withAttribute, withInstanceMethods]

/-- Methods are added behind those before them. -/
theorem instanceMethods_apply :
    (d.apply step).instanceMethods = d.instanceMethods ++ step.methods := by
  cases step with
  | instanceMethod | securePassword => rfl
  | _ => exact (List.append_nil _).symm

/-- A class is stored by a base class from the first line on that says so. -/
theorem ormSubclass_apply :
    (d.apply step).ormSubclass = true ↔
      (∃ base, step = .ormSubclass base) ∨ d.ormSubclass = true := by
  cases step <;> simp [apply, withCapability, withAttribute, withInstanceMethods]

end Apply

/-! ### What the lines tell -/

/-- Whether a class is what its name and some lines tell: of the lines that set a field the last one
counts, and of those that add to a field all. -/
structure IsToldBy (d : ClassDescriptor) (name : String) (steps : List BuildStep) : Prop where
  qualifiedName : d.qualifiedName = name
  superclass : d.superclass = (steps.filterMap BuildStep.superclass?).getLast?
  enclosing : ∀ path, d.enclosing.find? path = (steps.filterMap (BuildStep.kindAt? path)).getLast?
  capabilities : ∀ c, d.hasCapability c = true ↔ ∃ step ∈ steps, c ∈ step.capabilities
  attributes : d.attributes = steps.filterMap BuildStep.attribute?
  presenceValidated : ∀ attrName, d.isPresenceValidated attrName = true ↔
    .presenceOf attrName ∈ steps
  securePassword : d.securePassword = true ↔ ∃ password, .securePassword password ∈ steps
  instanceMethods : d.instanceMethods = steps.flatMap BuildStep.methods
  ormSubclass : d.ormSubclass = true ↔ ∃ base, .ormSubclass base ∈ steps

/-- A class of which nothing is told yet has only its name. -/
theorem isToldBy_named (name : String) : (named name).IsToldBy name [] where
  qualifiedName := rfl
  superclass := rfl
  enclosing _ := rfl
  capabilities c := by cases c <;> simp [named, hasCapability, CapabilitySet.contains,
    CapabilitySet.empty]
  attributes := rfl
  presenceValidated _ := by simp [named, isPresenceValidated, NameSet.contains]
  securePassword := by simp [named]
  instanceMethods := rfl
  ormSubclass := by simp [named]

/-- The last of the answers is that of the last thing, if it has one. -/
theorem getLast?_filterMap_concat {α β : Type} (f : α → Option β) (l : List α) (a : α) :
    ((l ++ [a]).filterMap f).getLast? = (f a).or (l.filterMap f).getLast? := by
  cases hfa : f a <;> simp [hfa]

/-- One line more. -/
theorem IsToldBy.apply {d : ClassDescriptor} {name : String} {steps : List BuildStep}
    (h : d.IsToldBy name steps) (step : BuildStep) :
    (d.apply step).IsToldBy name (steps ++ [step]) where
  qualifiedName := (d.qualifiedName_apply step).trans h.qualifiedName
  superclass := by rw [superclass_apply, h.superclass, getLast?_filterMap_concat]
  enclosing path := by rw [find?_enclosing_apply, h.enclosing, getLast?_filterMap_concat]
  capabilities c := by
    rw [hasCapability_apply, h.capabilities]
    simp [or_and_right, exists_or, or_comm]
  attributes := by
    rw [attributes_apply, h.attributes, List.filterMap_append]
    cases hattr : step.attribute? <;> simp [hattr]
  presenceValidated attrName := by
    rw [isPresenceValidated_apply, h.presenceValidated, List.mem_append, List.mem_singleton,
      or_comm, eq_comm]
  securePassword := by
    rw [securePassword_apply, h.securePassword]
    simp [exists_or, or_comm, eq_comm]
  instanceMethods := by
    rw [instanceMethods_apply, h.instanceMethods, List.flatMap_append, List.flatMap_singleton]
  ormSubclass := by
    rw [ormSubclass_apply, h.ormSubclass]
    simp [exists_or, or_comm, eq_comm]

/-- Every state on the way is told by the lines before it. -/
theorem IsToldBy.forall₂_statesFrom {d : ClassDescriptor} {name : String}
    {before : List BuildStep} (h : d.IsToldBy name before) (steps : List BuildStep) :
    List.Forall₂ (fun more state ↦ state.IsToldBy name (before ++ more)) steps.inits
      (d.statesFrom steps) := by
  induction steps generalizing d before with
  | nil =>
    rw [List.inits, statesFrom]
    exact .cons (by rwa [List.append_nil]) .nil
  | cons step steps ih =>
    rw [List.inits_cons, statesFrom]
    refine .cons (by rwa [List.append_nil]) (List.forall₂_map_left_iff.2 ?_)
    refine (ih (h.apply step)).imp fun more state hstate ↦ ?_
    rwa [List.append_assoc] at hstate

/-! ### Coherence -/

/-- Whether a class told by some lines has all that belongs to its capabilities, to its passwords
and to a base class that stores it. -/
structure IsCoherent (d : ClassDescriptor) (name : String) (steps : List BuildStep) : Prop
    extends d.IsToldBy name steps where
  validations : d.hasCapability .model = true → d.hasCapability .validations = true
  passwordCapabilities : d.securePassword = true →
    d.hasCapability .securePassword = true ∧ d.hasCapability .validations = true
  passwords : ∀ password, .securePassword password ∈ steps →
    ConstantPath.isMethodName password = true → d.passwordAttributes.count password = 1
  base : d.ormSubclass = true → d.superclass ≠ none

/-- What is told by lines is coherent. -/
theorem IsToldBy.isCoherent {d : ClassDescriptor} {name : String} {steps : List BuildStep}
    (h : d.IsToldBy name steps) : d.IsCoherent name steps where
  toIsToldBy := h
  validations hmodel := by
    obtain ⟨step, hstep, hmem⟩ := (h.capabilities .model).1 hmodel
    refine (h.capabilities .validations).2 ⟨step, hstep, ?_⟩
    cases step with
    | capability c => cases c <;> simp_all [BuildStep.capabilities, Capability.implied]
    | _ => simp [BuildStep.capabilities] at hmem
  passwordCapabilities hpassword := by
    obtain ⟨password, hstep⟩ := h.securePassword.1 hpassword
    exact ⟨(h.capabilities _).2 ⟨_, hstep, by simp [BuildStep.capabilities]⟩,
      (h.capabilities _).2 ⟨_, hstep, by simp [BuildStep.capabilities]⟩⟩
  passwords password hstep hname := by
    have hmethods : ∀ method ∈ (BuildStep.securePassword password).methods,
        method ∈ d.instanceMethods := by
      intro method hmem
      rw [h.instanceMethods]
      exact List.mem_flatMap.2 ⟨_, hstep, hmem⟩
    refine List.count_eq_one_of_mem d.nodup_passwordAttributes
      (d.mem_passwordAttributes.2 ⟨hname, hmethods _ ?_, hmethods _ ?_⟩)
    all_goals simp [BuildStep.methods]
  base hstored := by
    obtain ⟨base, hstep⟩ := h.ormSubclass.1 hstored
    have hnamed : base ∈ steps.filterMap BuildStep.superclass? :=
      List.mem_filterMap.2 ⟨_, hstep, rfl⟩
    rw [h.superclass, Ne, List.getLast?_eq_none_iff]
    exact List.ne_nil_of_mem hnamed

/-! ### What is kept -/

/-- Whether a class has all the capabilities, attributes, validations and methods that it had. -/
structure Keeps (before after : ClassDescriptor) : Prop where
  capabilities : ∀ c, before.hasCapability c = true → after.hasCapability c = true
  attributes : before.attributes <+: after.attributes
  presenceValidated : ∀ name, before.isPresenceValidated name = true →
    after.isPresenceValidated name = true
  instanceMethods : before.instanceMethods <+: after.instanceMethods

/-- What is kept from one state to the next and from there on is kept from the first. -/
theorem Keeps.trans {d e f : ClassDescriptor} (h : d.Keeps e) (h' : e.Keeps f) : d.Keeps f where
  capabilities c hc := h'.capabilities c (h.capabilities c hc)
  attributes := h.attributes.trans h'.attributes
  presenceValidated name hname := h'.presenceValidated name (h.presenceValidated name hname)
  instanceMethods := h.instanceMethods.trans h'.instanceMethods

instance : Trans Keeps Keeps Keeps := ⟨Keeps.trans⟩

/-- A line takes nothing away. -/
theorem keeps_apply (d : ClassDescriptor) (step : BuildStep) : d.Keeps (d.apply step) where
  capabilities _ hc := (d.hasCapability_apply step).2 (.inr hc)
  attributes := ⟨_, (d.attributes_apply step).symm⟩
  presenceValidated _ hname := (d.isPresenceValidated_apply step).2 (.inr hname)
  instanceMethods := ⟨_, (d.instanceMethods_apply step).symm⟩

/-- No line of a class body takes anything away. -/
theorem isChain_keeps_statesFrom (d : ClassDescriptor) (steps : List BuildStep) :
    (d.statesFrom steps).IsChain Keeps := by
  induction steps generalizing d with
  | nil => exact .singleton d
  | cons step steps ih =>
    have hrest := ih (d.apply step)
    -- the first of the states from there is the one after the line, whatever else follows
    cases steps <;> exact .cons_cons (d.keeps_apply step) hrest

/-- Every state of a class body, up to the class that is built, is told by the lines before it and
coherent, and no line takes anything away. -/
theorem forall₂_isCoherent_states (name : String) (steps : List BuildStep) :
    List.Forall₂ (fun before state ↦ state.IsCoherent name before) steps.inits
        (states name steps) ∧
      (states name steps).Pairwise Keeps ∧
      (states name steps).getLast? = some (build name steps) := by
  refine ⟨?_, (isChain_keeps_statesFrom _ steps).pairwise, getLast?_statesFrom _ steps⟩
  refine ((isToldBy_named name).forall₂_statesFrom steps).imp fun before state hstate ↦ ?_
  exact hstate.isCoherent

end ClassDescriptor

end ModelSignatures
