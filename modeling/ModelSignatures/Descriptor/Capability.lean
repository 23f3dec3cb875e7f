/-!
# Capabilities

The four modules of a model class that a signature speaks of, and sets of them. A set is kept as one
truth value for each capability, so it has one form only and lists its members in a fixed order.
-/

namespace ModelSignatures

/-- A module that a model class may include. -/
inductive Capability
  | model
  | attributes
  | securePassword
  | validations
deriving DecidableEq, Repr

namespace Capability

/-- Every capability, in the order in which signatures list them. -/
def all : List Capability := [model, attributes, securePassword, validations]

theorem mem_all (c : Capability) : c ∈ all := by
  cases c <;> decide

/-- The name of a capability in a class description. -/
def name : Capability → String
  | model => "model"
  | attributes => "attributes"
  | securePassword => "secure_password"
  | validations => "validations"

/-- The capability of a name. -/
def ofName? (text : String) : Option Capability :=
  all.find? fun c ↦ c.name == text

@[simp] theorem ofName?_name (c : Capability) : ofName? c.name = some c := by
  cases c <;> decide

/-- The module that provides a capability. -/
def modulePath : Capability → String
  | model => "ActiveModel::Model"
  | attributes => "ActiveModel::Attributes"
  | securePassword => "ActiveModel::SecurePassword"
  | validations => "ActiveModel::Validations"

/-- The module of the class methods that come with a capability, if it has its own. -/
def classMethodsPath : Capability → Option String
  | model => none
  | attributes => some "ActiveModel::Attributes::ClassMethods"
  | securePassword => some "ActiveModel::SecurePassword::ClassMethods"
  | validations => some "ActiveModel::Validations::ClassMethods"

/-- The capabilities that including this one brings with it. -/
def implied : Capability → List Capability
  | model => [validations]
  | _ => []

end Capability

/-- A set of capabilities. -/
structure CapabilitySet where
  model : Bool
  attributes : Bool
  securePassword : Bool
  validations : Bool
deriving DecidableEq, Repr

namespace CapabilitySet

/-- The set without members. -/
def empty : CapabilitySet := ⟨false, false, false, false⟩

/-- Whether a capability is in the set. -/
def contains (s : CapabilitySet) : Capability → Bool
  | .model => s.model
  | .attributes => s.attributes
  | .securePassword => s.securePassword
  | .validations => s.validations

/-- The set with one capability more. -/
def insert (s : CapabilitySet) : Capability → CapabilitySet
  | .model => { s with model := true }
  | .attributes => { s with attributes := true }
  | .securePassword => { s with securePassword := true }
  | .validations => { s with validations := true }

/-- The set with all the capabilities of a list more. -/
def insertAll (s : CapabilitySet) (cs : List Capability) : CapabilitySet :=
  cs.foldl insert s

/-- The members in the order of `Capability.all`. -/
def toList (s : CapabilitySet) : List Capability :=
  Capability.all.filter s.contains

theorem contains_insert (s : CapabilitySet) (c d : Capability) :
    (s.insert c).contains d = (d == c || s.contains d) := by
  cases c <;> cases d <;> rfl

theorem contains_insertAll (s : CapabilitySet) (cs : List Capability) (d : Capability) :
    (s.insertAll cs).contains d = (cs.contains d || s.contains d) := by
  induction cs generalizing s with
  | nil => rfl
  | cons c cs ih =>
    rw [insertAll, List.foldl_cons, ← insertAll, ih, contains_insert, List.contains_cons]
    rw [← Bool.or_assoc, Bool.or_comm (cs.contains d)]

theorem mem_toList {s : CapabilitySet} {c : Capability} :
    c ∈ s.toList ↔ s.contains c = true := by
  simp [toList, Capability.mem_all]

/-- Two sets with the same members are the same set. -/
theorem ext_contains {s t : CapabilitySet} (h : ∀ c, s.contains c = t.contains c) : s = t := by
  obtain ⟨a, b, c, d⟩ := s
  obtain ⟨a', b', c', d'⟩ := t
  have hmodel : a = a' := h .model
  have hattributes : b = b' := h .attributes
  have hpassword : c = c' := h .securePassword
  have hvalidations : d = d' := h .validations
  rw [hmodel, hattributes, hpassword, hvalidations]

/-- A set is the one made from its members. -/
@[simp] theorem insertAll_toList (s : CapabilitySet) : empty.insertAll s.toList = s := by
  refine ext_contains fun c ↦ ?_
  have hempty : empty.contains c = false := by cases c <;> rfl
  rw [contains_insertAll, hempty, Bool.or_false, Bool.eq_iff_iff, List.contains_iff_mem, mem_toList]

/-- The order and the number of the capabilities do not matter. -/
theorem insertAll_congr (s : CapabilitySet) {cs ds : List Capability}
    (h : ∀ c, c ∈ cs ↔ c ∈ ds) : s.insertAll cs = s.insertAll ds :=
  ext_contains fun c ↦ by
    have hmem : cs.contains c = ds.contains c := by
      rw [Bool.eq_iff_iff, List.contains_iff_mem, List.contains_iff_mem, h]
    rw [contains_insertAll, contains_insertAll, hmem]

end CapabilitySet

end ModelSignatures
