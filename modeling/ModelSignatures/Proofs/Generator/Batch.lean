import Mathlib.Data.List.Forall2
import ModelSignatures.Generator.Batch

/-!
# Entries of a report

A report has one entry for each class, in the order of the classes, and what the entry says is what
comes of the class on its own (`Report.forall₂_isOf`). Its three lists divide the entries among
them: each has those of one outcome, in their order (`Report.Divided`).
-/

namespace ModelSignatures

/-! ### Single entries -/

/-- Whether an entry says what comes of a class when nothing but the class is generated. -/
structure ReportEntry.IsOf (entry : ReportEntry) (d : ClassDescriptor) : Prop where
  className : entry.className = d.qualifiedName
  generated : ∀ path text, entry.outcome = .generated path text ↔
    d.generate = .ok (some text) ∧ path = ConstantPath.signaturePath d.qualifiedName
  skipped : entry.outcome = .skipped ↔ d.generate = .ok none
  failed : ∀ e, entry.outcome = .failed e ↔ d.generate = .error e

theorem ClassDescriptor.isOf_outcome (d : ClassDescriptor) :
    ReportEntry.IsOf ⟨d.qualifiedName, d.outcome⟩ d := by
  refine ⟨rfl, fun path text ↦ ?_, ?_, fun e ↦ ?_⟩
  all_goals
    rw [ClassDescriptor.outcome]
    rcases d.generate with e' | _ | text'
  all_goals simp [eq_comm, and_comm]

namespace Outcome

/-- Whether there is a signature. -/
def isGenerated : Outcome → Bool
  | generated _ _ => true
  | _ => false

/-- Whether there was nothing to declare. -/
def isSkipped : Outcome → Bool
  | skipped => true
  | _ => false

/-- Whether there was an error. -/
def isFailed : Outcome → Bool
  | failed _ => true
  | _ => false

end Outcome

namespace Report

/-! ### All entries -/

/-- Every class has an entry, which says what comes of the class on its own. -/
theorem forall₂_isOf (ds : List ClassDescriptor) :
    List.Forall₂ ReportEntry.IsOf (ofDescriptors ds) ds := by
  induction ds with
  | nil => exact .nil
  | cons d ds ih => exact .cons d.isOf_outcome ih

/-- The entry of a class is the same in every report on it. -/
theorem getElem?_ofDescriptors_congr {ds ds' : List ClassDescriptor} {i j : ℕ}
    (h : ds[i]? = ds'[j]?) : (ofDescriptors ds)[i]? = (ofDescriptors ds')[j]? := by
  rw [ofDescriptors, ofDescriptors, List.getElem?_map, List.getElem?_map, h]

/-- The entry of a class with a signature. -/
def Generated.entry (g : Generated) : ReportEntry :=
  ⟨g.className, .generated g.path g.text⟩

/-- Whether the lists of a report have all its entries: each those of one outcome in their order,
and no entry is lost or in two lists. -/
structure Divided (r : Report) : Prop where
  generated : r.generated.map Generated.entry = r.filter (·.outcome.isGenerated)
  skipped : (r.skipped.map fun name ↦ ⟨name, .skipped⟩) = r.filter (·.outcome.isSkipped)
  failures : (r.failures.map fun failure ↦ ⟨failure.1, .failed failure.2⟩) =
    r.filter (·.outcome.isFailed)
  length_add : r.generated.length + r.skipped.length + r.failures.length = r.length

theorem divided (r : Report) : r.Divided := by
  induction r with
  | nil => exact ⟨rfl, rfl, rfl, rfl⟩
  | cons entry r ih =>
    obtain ⟨hgenerated, hskipped, hfailures, hlength⟩ := ih
    obtain ⟨className, outcome⟩ := entry
    cases outcome with
    | generated path text =>
      refine ⟨congrArg (_ :: ·) hgenerated, hskipped, hfailures, ?_⟩
      show (generated r).length + 1 + (skipped r).length + (failures r).length = r.length + 1
      omega
    | skipped =>
      refine ⟨hgenerated, congrArg (_ :: ·) hskipped, hfailures, ?_⟩
      show (generated r).length + ((skipped r).length + 1) + (failures r).length = r.length + 1
      omega
    | failed e =>
      refine ⟨hgenerated, hskipped, congrArg (_ :: ·) hfailures, ?_⟩
      show (generated r).length + (skipped r).length + ((failures r).length + 1) = r.length + 1
      omega

end Report

end ModelSignatures
