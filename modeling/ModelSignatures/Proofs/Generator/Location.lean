import ModelSignatures.Proofs.ConstantPath.Substitution
import ModelSignatures.Proofs.Generator.Report

/-!
# Where signatures belong

The signature of a class belongs in a file below the directory of all models, in directories for the
constants around the class (`signaturePath_of_generate`). That the path stays inside the directory
rests on the checks of the generator: a name that has passed them has segments that begin with a
capital, so no component of the path is empty, is a parent directory or begins with a slash.
-/

namespace ModelSignatures

namespace ConstantPath

/-- A name of a directory or a file without its ending: a small ASCII letter, then small ASCII
letters, digits and underscores. -/
structure IsPathComponent (component : String) : Prop where
  head : ∃ c ∈ component.toList.head?, c.isLower = true
  chars : ∀ c ∈ component.toList, c.isLower = true ∨ c.isDigit = true ∨ c = '_'

theorem isLower_underscoredChar {c : Char} (h : c.isUpper = true) :
    (underscoredChar c).isLower = true := by
  have hdash : c ≠ '-' := by
    rintro rfl
    cases h
  have hrange := isUpper_iff_toNat.1 h
  rw [underscoredChar, if_neg hdash, isLower_iff_toNat, toNat_toLower h]
  omega

/-- A character of a word becomes small and otherwise stays what it is. -/
theorem underscoredChar_cases {c : Char} (h : isWordChar c = true) :
    (underscoredChar c).isLower = true ∨ (underscoredChar c).isDigit = true ∨
      underscoredChar c = '_' := by
  cases hupper : c.isUpper with
  | true => exact .inl (isLower_underscoredChar hupper)
  | false =>
    have hdash : c ≠ '-' := by
      rintro rfl
      cases h
    rw [underscoredChar_eq_self hupper hdash]
    have halphanum : c.isAlphanum = (c.isUpper || c.isLower || c.isDigit) := rfl
    simpa [isWordChar, halphanum, hupper, or_assoc] using h

theorem isPathComponent_underscored {segment : String} (h : isConstantName segment = true) :
    IsPathComponent (underscored segment) := by
  have hword := isWord_of_isConstantName h
  have hcolons : ¬[':', ':'] <:+: segment.toList := by
    intro hmem
    exact absurd (hword.2 ':' (hmem.subset List.mem_cons_self)) (by decide)
  have hchars := toList_underscored_ofList hcolons
  rw [String.ofList_toList] at hchars
  constructor
  · unfold isConstantName at h
    split at h
    next c cs hcs =>
      rw [Bool.and_eq_true] at h
      refine ⟨underscoredChar c, ?_, isLower_underscoredChar h.1⟩
      rw [hchars, hcs, underscoredAfter]
      simp
    · cases h
  · intro c hc
    rw [hchars] at hc
    rcases mem_underscoredAfter hc with rfl | ⟨d, hd, rfl⟩
    · exact .inr (.inr rfl)
    · exact underscoredChar_cases (hword.2 d hd)

theorem mem_head?_intercalate {glue component : String} {components : List String} {c : Char}
    (h : c ∈ component.toList.head?) :
    c ∈ (glue.intercalate (component :: components)).toList.head? := by
  cases components with
  | nil => rwa [String.intercalate_singleton]
  | cons next components =>
    rw [String.intercalate_cons_cons, String.toList_append, String.toList_append, List.append_assoc]
    exact List.mem_head?_append_of_mem_head? h

end ConstantPath

namespace ClassDescriptor

open ConstantPath (underscored signaturePath IsPathComponent)

/-- A generated signature belongs in the file of its class, in the directories of the constants
around it below that of all models. The segments of the name are underscored each on its own. -/
theorem signaturePath_of_generate {d : ClassDescriptor} {rbs : String}
    (h : d.generate = .ok (some rbs)) :
    signaturePath d.qualifiedName =
        "app/models/" ++ "/".intercalate (d.segments.map underscored) ++ ".rbs" ∧
      d.outcome = .generated (signaturePath d.qualifiedName) rbs ∧
      underscored d.qualifiedName = "/".intercalate (d.segments.map underscored) ∧
      d.segments ≠ [] ∧ ∀ segment ∈ d.segments, IsPathComponent (underscored segment) := by
  have hnames := isConstantName_of_generate h
  have hcomponents : ∀ segment ∈ d.segments, IsPathComponent (underscored segment) :=
    fun segment hsegment ↦
      ConstantPath.isPathComponent_underscored (List.all_eq_true.1 hnames segment hsegment)
  have hunderscored : underscored d.qualifiedName =
      "/".intercalate (d.segments.map underscored) := by
    rw [ConstantPath.underscored_eq_intercalate, ConstantPath.relative_eq_self hnames]
    rfl
  obtain ⟨first, others, hsegments⟩ : ∃ first others, d.segments = first :: others :=
    List.exists_cons_of_ne_nil (ConstantPath.segments_ne_nil d.qualifiedName)
  -- The path begins like the first component, so it is not absolute.
  obtain ⟨c, hc, hlower⟩ := (hcomponents first (hsegments ▸ List.mem_cons_self)).head
  have hfile : c ∈ (underscored d.qualifiedName ++ ".rbs").toList.head? := by
    rw [hunderscored, hsegments, List.map_cons, String.toList_append]
    exact List.mem_head?_append_of_mem_head? (ConstantPath.mem_head?_intercalate hc)
  have hrelative : (underscored d.qualifiedName ++ ".rbs").toList.head? ≠ some '/' := by
    rw [Option.mem_def.1 hfile]
    rintro ⟨⟩
    cases hlower
  have hpath : signaturePath d.qualifiedName =
      "app/models/" ++ "/".intercalate (d.segments.map underscored) ++ ".rbs" := by
    rw [signaturePath, if_neg hrelative, hunderscored, String.append_assoc]
    rfl
  refine ⟨hpath, ?_, hunderscored, ConstantPath.segments_ne_nil _, hcomponents⟩
  rw [outcome, h]

/-- A class with a run of capitals in its name, inside a module. -/
theorem signaturePath_of_generate_sample :
    let d : ClassDescriptor :=
      { named "Admin::HTTPUser2" with
        enclosing := NameMap.empty.insert "Admin" .ofModule
        capabilities := CapabilitySet.empty.insert .model }
    d.generate = .ok (some ("module Admin\n  class HTTPUser2\n" ++
        "    include ::ActiveModel::Model\n  end\nend\n")) ∧
      signaturePath d.qualifiedName = "app/models/admin/http_user2.rbs" := by
  intro d
  have h : d.generate = .ok (some ("module Admin\n  class HTTPUser2\n" ++
      "    include ::ActiveModel::Model\n  end\nend\n")) := by
    decide +kernel
  have hsegments : "/".intercalate (d.segments.map underscored) = "admin/http_user2" := by
    decide +kernel
  refine ⟨h, (signaturePath_of_generate h).1.trans ?_⟩
  rw [hsegments]
  rfl

end ClassDescriptor

end ModelSignatures
