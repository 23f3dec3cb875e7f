import ModelSignatures.Proofs.Generator.Signature

/-!
# Generated signatures say what is declared

A class is given a signature only if it has members, and the text that is given is read as the one
declaration that the descriptor stands for, without comments (`generate_declaration`): the layout
that was put together shows that declaration, so it is what is written in canonical layout.
-/

namespace ModelSignatures

open ConstantPath (IsStacked)

theorem Member.joined_eq_nil_iff {first : Bool} {paragraphs : List (List Member)} :
    joined first paragraphs = [] ↔ ∀ ms ∈ paragraphs, ms = [] := by
  induction paragraphs with
  | nil => simp [joined]
  | cons ms paragraphs ih =>
    cases ms with
    | nil => simpa [joined] using ih
    | cons m ms => simp [joined]

namespace ClassDescriptor

variable {d : ClassDescriptor}

/-! ### A class with nothing to declare -/

/-- If no text is written for the members, there are none. -/
theorem members_ne_nil {accessors : String} (haccessors : d.accessors = .ok accessors)
    (h : ¬(d.mixins = "" ∧ d.passwordMethods = "" ∧ accessors = "")) : d.members ≠ [] := by
  intro hnil
  rw [members, Member.joined_eq_nil_iff, paragraphs, List.forall_mem_append,
    List.forall_mem_append, List.forall_mem_singleton] at hnil
  obtain ⟨⟨hmixins, hpasswords⟩, hattributes⟩ := hnil
  refine h ((d.declaresNothing_iff haccessors).1 ⟨?_, ?_, ?_⟩)
  · rw [mixinMembers] at hmixins
    cases hown : d.ormSubclass with
    | true => exact .inl rfl
    | false =>
      rw [hown, if_neg Bool.false_ne_true, List.flatMap_eq_nil_iff] at hmixins
      refine .inr fun c ↦ Bool.eq_false_iff.2 fun hc ↦ ?_
      exact List.cons_ne_nil _ _ (hmixins c (CapabilitySet.mem_toList.2 hc))
  · cases hpassword : d.securePassword with
    | false => exact .inl rfl
    | true =>
      rw [if_pos hpassword] at hpasswords
      refine .inr (List.eq_nil_iff_forall_not_mem.2 fun name hname ↦ ?_)
      exact List.cons_ne_nil _ _
        (hpasswords _ (List.mem_flatMap.2 ⟨name, hname, List.mem_cons_self⟩))
  · cases hcapable : d.hasCapability .attributes with
    | false => exact .inl rfl
    | true =>
      rw [if_pos hcapable] at hattributes
      refine .inr (List.eq_nil_iff_forall_not_mem.2 fun a ha ↦ ?_)
      exact List.cons_ne_nil _ _ (hattributes _ (List.mem_map_of_mem ha))

/-! ### What is generated -/

/-- A generated signature is what formatting makes of the texts put together, and all of them have
passed their checks. -/
theorem generate_eq_ok_some_iff {rbs : String} :
    d.generate = .ok (some rbs) ↔ ∃ accessors header, d.accessors = .ok accessors ∧
      ¬(d.mixins = "" ∧ d.passwordMethods = "" ∧ accessors = "") ∧ d.header = .ok header ∧
      Signature.format (Fragments.assembled
        ⟨header, d.mixins, d.passwordMethods, accessors, d.footer⟩) = .ok rbs := by
  constructor
  · intro h
    obtain ⟨accessors, haccessors, h⟩ := Except.bind_eq_ok_iff.1 h
    split at h
    · cases h
    next hsome =>
      obtain ⟨header, hheader, h⟩ := Except.bind_eq_ok_iff.1 h
      dsimp only at h
      split at h
      next text hformat =>
        cases h
        exact ⟨accessors, header, haccessors, hsome, hheader, hformat⟩
      · cases h
  · rintro ⟨accessors, header, haccessors, hsome, hheader, hformat⟩
    rw [generate, haccessors, Except.ok_bind, if_neg hsome, hheader, Except.ok_bind]
    simp only [hformat]
    rfl

/-- A class is given a signature exactly if there is something to declare, all names have passed
their checks and no superclass is stacked. -/
theorem exists_generate_iff :
    (∃ rbs, d.generate = .ok (some rbs)) ↔
      (∃ accessors, d.accessors = .ok accessors ∧
        ¬(d.mixins = "" ∧ d.passwordMethods = "" ∧ accessors = "")) ∧
      (∃ header, d.header = .ok header) ∧
      ∀ superclass ∈ d.superclasses, ¬IsStacked superclass := by
  constructor
  · rintro ⟨rbs, h⟩
    obtain ⟨accessors, header, haccessors, hsome, hheader, hformat⟩ := generate_eq_ok_some_iff.1 h
    exact ⟨⟨accessors, haccessors, hsome⟩, ⟨header, hheader⟩,
      (format_assembled_iff hheader haccessors).1 ⟨rbs, hformat⟩⟩
  · rintro ⟨⟨accessors, haccessors, hsome⟩, ⟨header, hheader⟩, hstacked⟩
    obtain ⟨text, hformat⟩ := (format_assembled_iff hheader haccessors).2 hstacked
    exact ⟨text, generate_eq_ok_some_iff.2
      ⟨accessors, header, haccessors, hsome, hheader, hformat⟩⟩

/-- A generated signature is read as the declaration of the class, which has members. -/
theorem generate_declaration {rbs : String} (h : d.generate = .ok (some rbs)) :
    ∃ declaration, d.declaration = some declaration ∧
      Signature.parse rbs = .ok ⟨[declaration], []⟩ ∧ d.members ≠ [] := by
  obtain ⟨accessors, haccessors, h⟩ := Except.bind_eq_ok_iff.1 h
  split at h
  · cases h
  next hsome =>
    obtain ⟨header, hheader, h⟩ := Except.bind_eq_ok_iff.1 h
    obtain ⟨o, inner, items, -, hdeclaration, hitems, hmembers, htext⟩ :=
      exists_layout_of_assembled hheader haccessors
    dsimp only at h
    rw [htext] at h
    refine ⟨_, hdeclaration, ?_, members_ne_nil haccessors hsome⟩
    split at h
    next text hformat =>
      cases h
      have hunstacked := (format_nested_iff o inner hitems).1 ⟨_, hformat⟩
      have hparse := parse_nested o inner hitems hunstacked hmembers
      have hwell := wellFormed_of_parse_nested o inner hitems hparse
      rw [Signature.format, hparse, Except.ok_bind] at hformat
      rw [← Except.ok.inj hformat]
      exact Signature.parse_eq_ok_iff.2 hwell.ofTokens_text
    · cases h

/-- A class with attributes and a password inside a module. -/
theorem generate_declaration_sample :
    let d : ClassDescriptor :=
      { named "Admin::User" with
        superclass := some "::Base"
        enclosing := NameMap.empty.insert "Admin" .ofModule
        capabilities := (CapabilitySet.empty.insert .attributes).insert .securePassword
        attributes := [⟨"age", .integer, false⟩]
        securePassword := true
        instanceMethods := ["authenticate_password", "password_confirmation"] }
    ∃ rbs declaration, d.generate = .ok (some rbs) ∧ d.declaration = some declaration ∧
      Signature.parse rbs = .ok ⟨[declaration], []⟩ ∧ d.members ≠ [] := by
  intro d
  have haccessors : d.accessors = .ok
      "%a\x7bpure\x7d\ndef age: () -> Integer?\ndef age=: (Integer? value) -> Integer?" := by
    decide +kernel
  have hheader : d.header = .ok "module Admin\nclass User < ::Base" := by decide +kernel
  have hmixins : d.mixins ≠ "" := by decide +kernel
  have hsuperclasses : d.superclasses = [none, some "::Base"] := by decide +kernel
  have hstacked : ∀ superclass ∈ d.superclasses, ¬IsStacked superclass := by
    rw [hsuperclasses]
    simp [IsStacked]
  obtain ⟨rbs, h⟩ := exists_generate_iff.2
    ⟨⟨_, haccessors, fun h ↦ hmixins h.1⟩, ⟨_, hheader⟩, hstacked⟩
  obtain ⟨declaration, hread⟩ := generate_declaration h
  exact ⟨rbs, declaration, h, hread⟩

end ClassDescriptor

end ModelSignatures
