import ModelSignatures.Proofs.Generator.Assembly
import ModelSignatures.Proofs.Generator.Checks
import ModelSignatures.Proofs.Generator.Members

/-!
# Generated signatures that are malformed

Each check on a class fails with an error of its own, so a signature is malformed only where all the
checks have passed. What is put together then is a layout of declarations inside each other, and it
is a signature unless some superclass is stacked (`generate_malformed_iff`).
-/

namespace ModelSignatures

open ConstantPath (IsStacked)
open Layout (chars)

namespace ClassDescriptor

variable {d : ClassDescriptor}

/-! ### The text put together -/

theorem toList_footer (d : ClassDescriptor) :
    '\n' :: d.footer.toList =
      (List.replicate d.segments.length "\nend".toList).flatten ++ ['\n'] := by
  have hends : ∀ segments : List String,
      '\n' :: ("".intercalate (segments.map fun _ ↦ "end\n")).toList =
        (List.replicate segments.length "\nend".toList).flatten ++ ['\n'] := by
    intro segments
    induction segments with
    | nil => rfl
    | cons segment segments ih =>
      rw [List.length_cons, List.replicate_succ, List.flatten_cons, List.append_assoc, ← ih]
      cases segments with
      | nil => simp
      | cons => simp [String.intercalate_cons_cons]
  exact hends d.segments

/-- What the checks have let through is put together as declarations inside each other, and these
are the declaration of the class. -/
theorem exists_layout_of_assembled {header accessors : String} (hheader : d.header = .ok header)
    (haccessors : d.accessors = .ok accessors) :
    ∃ o inner items, (o :: inner).map Opening.superclass = d.superclasses ∧
      d.declaration = some (o.declaration (Opening.body inner d.members)) ∧
      (∀ m, some m ∈ items → DraftMember.Fits m) ∧
      (∀ spaced, draftMembers true spaced items = d.members) ∧
      Fragments.assembled ⟨header, d.mixins, d.passwordMethods, accessors, d.footer⟩ =
        Layout.text (nested (o :: inner) (draftLayout items)) := by
  obtain ⟨o, inner, hlength, hchars, hsupers, hdeclaration⟩ := d.exists_openings_of_header hheader
  obtain ⟨items, hitems, hbody, hparagraphs⟩ := d.isDraft_body haccessors
  refine ⟨o, inner, items, hsupers, hdeclaration, hitems, hparagraphs.draftMembers_eq, ?_⟩
  have hall : '\n' :: (Fragments.assembled
      ⟨header, d.mixins, d.passwordMethods, accessors, d.footer⟩).toList =
        chars (nested (o :: inner) (draftLayout items)) ++ ['\n'] := by
    rw [chars_nested, ← hchars, ← hbody, hlength, List.append_assoc, ← toList_footer]
    simp [Fragments.assembled]
  refine String.toList_inj.1 (List.cons_inj_right '\n' |>.1 ?_)
  rw [hall]
  exact (congrArg ('\n' :: ·) (Layout.toList_text 0 _)).symm

/-! ### Generation -/

/-- A class whose checks have passed is given a signature unless a superclass is stacked. -/
theorem format_assembled_iff {header accessors : String} (hheader : d.header = .ok header)
    (haccessors : d.accessors = .ok accessors) :
    (∃ t, Signature.format (Fragments.assembled
        ⟨header, d.mixins, d.passwordMethods, accessors, d.footer⟩) = .ok t) ↔
      ∀ superclass ∈ d.superclasses, ¬IsStacked superclass := by
  obtain ⟨o, inner, items, hsupers, -, hitems, -, htext⟩ :=
    exists_layout_of_assembled hheader haccessors
  rw [htext, ← hsupers, List.forall_mem_map]
  exact format_nested_iff o inner hitems

/-- A signature is malformed exactly if there is something to declare, all names have passed their
checks and a superclass is stacked. -/
theorem generate_malformed_iff (d : ClassDescriptor) :
    (∃ name cause, d.generate = .error (.malformed name cause)) ↔
      (∃ accessors, d.accessors = .ok accessors ∧
        ¬(d.mixins = "" ∧ d.passwordMethods = "" ∧ accessors = "")) ∧
      (∃ header, d.header = .ok header) ∧ ∃ superclass ∈ d.superclasses, IsStacked superclass := by
  constructor
  · rintro ⟨name, cause, h⟩
    rcases Except.bind_eq_error_iff.1 h with h | ⟨accessors, haccessors, h⟩
    · obtain ⟨_, -, -, h⟩ := accessors_eq_error h
      cases h
    split at h
    · cases h
    next hsome =>
      rcases Except.bind_eq_error_iff.1 h with h | ⟨header, hheader, h⟩
      · rcases header_eq_error h with ⟨_, h⟩ | ⟨_, h⟩ <;> cases h
      refine ⟨⟨accessors, haccessors, hsome⟩, ⟨header, hheader⟩, ?_⟩
      by_contra hnone
      obtain ⟨t, ht⟩ := (format_assembled_iff hheader haccessors).2 fun superclass hmem hstacked ↦
        hnone ⟨superclass, hmem, hstacked⟩
      dsimp only at h
      rw [ht] at h
      cases h
  · rintro ⟨⟨accessors, haccessors, hsome⟩, ⟨header, hheader⟩, superclass, hmem, hstacked⟩
    rw [generate, haccessors, Except.ok_bind, if_neg hsome, hheader, Except.ok_bind]
    cases hformat : Signature.format (Fragments.assembled
        ⟨header, d.mixins, d.passwordMethods, accessors, d.footer⟩) with
    | error cause => exact ⟨d.qualifiedName, cause, by simp only [hformat]⟩
    | ok t =>
      exact absurd hstacked
        ((format_assembled_iff hheader haccessors).1 ⟨t, hformat⟩ superclass hmem)

/-- Two separators in front of a superclass get past the checks. -/
theorem generate_stacked_superclass :
    ClassDescriptor.generate
        { named "Foo" with superclass := some "::::Bar", capabilities := .insert .empty .model } =
      .error (.malformed "Foo"
        ⟨⟨1, 15⟩, .unexpectedToken .constantName (some (.symbol .colonColon))⟩) := by
  decide +kernel

end ClassDescriptor

end ModelSignatures
