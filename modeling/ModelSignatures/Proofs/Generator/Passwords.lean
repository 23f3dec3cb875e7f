import Mathlib.Data.List.Basic
import Mathlib.Data.List.Induction
import ModelSignatures.Generator.Members

/-!
# The passwords of a class

A password is known by two methods, one that authenticates it and one that confirms it. The list of
a class's passwords has every name with both methods and no other, each once, in the order in which
the first methods that authenticate them come (`arePasswords_passwordAttributes`). The order rests
on two facts about lists without repetitions: dropping the repetitions keeps the order of the first
occurrences (`pairwise_idxOf_eraseDups`), and it does not matter whether they are dropped before or
after the names are taken out of the methods (`eraseDups_filterMap`).
-/

namespace ModelSignatures

/-! ### First occurrences -/

section FirstOccurrences

variable {α β : Type} [DecidableEq α] [DecidableEq β]

theorem eraseDups_concat (l : List α) (a : α) :
    (l ++ [a]).eraseDups = if a ∈ l then l.eraseDups else l.eraseDups ++ [a] := by
  rw [List.eraseDups_append]
  split
  next hmem => simp [List.removeAll, hmem]
  next hnot => simp [List.removeAll, hnot, List.eraseDups_cons]

/-- Without repetitions the items stand in the order of their first occurrences. -/
theorem pairwise_idxOf_eraseDups (l : List α) :
    l.eraseDups.Pairwise fun a b ↦ l.idxOf a < l.idxOf b := by
  induction l using List.reverseRecOn with
  | nil => exact .nil
  | append_singleton l a ih =>
    have hl : l.eraseDups.Pairwise fun b c ↦ (l ++ [a]).idxOf b < (l ++ [a]).idxOf c := by
      refine ih.imp_of_mem fun {b c} hb hc hlt ↦ ?_
      rw [List.mem_eraseDups] at hb hc
      rwa [List.idxOf_append_of_mem hb, List.idxOf_append_of_mem hc]
    rw [eraseDups_concat]
    split
    next => exact hl
    next hnot =>
      refine List.pairwise_append.2 ⟨hl, List.pairwise_singleton _ _, fun b hb c hc ↦ ?_⟩
      rw [List.mem_eraseDups] at hb
      rw [List.mem_singleton.1 hc, List.idxOf_append_of_mem hb, List.idxOf_append_of_notMem hnot]
      exact Nat.lt_add_right _ (List.idxOf_lt_length_iff.2 hb)

/-- Items that are told by what is taken out of them may lose their repetitions before or after. -/
theorem eraseDups_filterMap {f : α → Option β}
    (hf : ∀ {a a' b}, f a = some b → f a' = some b → a = a') (l : List α) :
    (l.filterMap f).eraseDups = l.eraseDups.filterMap f := by
  induction l using List.reverseRecOn with
  | nil => rfl
  | append_singleton l a ih =>
    rw [List.filterMap_append, eraseDups_concat]
    cases hfa : f a with
    | none =>
      rw [List.filterMap_cons_none hfa, List.filterMap_nil, List.append_nil, ih]
      split
      next => rfl
      next => simp [hfa]
    | some b =>
      have hmem : b ∈ l.filterMap f ↔ a ∈ l := by
        rw [List.mem_filterMap]
        constructor
        · rintro ⟨a', ha', hb⟩
          exact hf hb hfa ▸ ha'
        · intro ha
          exact ⟨a, ha, hfa⟩
      rw [List.filterMap_cons_some hfa, List.filterMap_nil, eraseDups_concat, if_congr hmem rfl rfl,
        ih]
      split
      next => rfl
      next => simp [hfa]

/-- In a list that is ordered by a measure, one item is before another if it measures less. -/
theorem idxOf_lt_idxOf_iff {l : List α} {measure : α → ℕ}
    (h : l.Pairwise fun a b ↦ measure a < measure b) {a b : α} (ha : a ∈ l) (hb : b ∈ l) :
    l.idxOf a < l.idxOf b ↔ measure a < measure b := by
  have hbefore : ∀ {a b : α}, a ∈ l → b ∈ l → l.idxOf a < l.idxOf b → measure a < measure b := by
    intro a b ha hb hlt
    have hmeasure := List.pairwise_iff_getElem.1 h _ _ (List.idxOf_lt_length_iff.2 ha)
      (List.idxOf_lt_length_iff.2 hb) hlt
    simpa using hmeasure
  refine ⟨hbefore ha hb, fun hlt ↦ ?_⟩
  rcases Nat.lt_trichotomy (l.idxOf a) (l.idxOf b) with hidx | hidx | hidx
  · exact hidx
  · rw [(List.idxOf_inj ha).1 hidx] at hlt
    exact absurd hlt (Nat.lt_irrefl _)
  · exact absurd (hbefore hb ha hidx) (Nat.lt_asymm hlt)

end FirstOccurrences

/-! ### Passwords -/

/-- Whether some names are the passwords that methods are for: those with a method that
authenticates them and one that confirms them, each once, in the order of the first methods that
authenticate them. -/
structure ArePasswords (names methods : List String) : Prop where
  nodup : names.Nodup
  mem_iff : ∀ name, name ∈ names ↔ ConstantPath.isMethodName name = true ∧
    "authenticate_" ++ name ∈ methods ∧ name ++ "_confirmation" ∈ methods
  idxOf_lt_iff : ∀ x ∈ names, ∀ y ∈ names, names.idxOf x < names.idxOf y ↔
    methods.idxOf ("authenticate_" ++ x) < methods.idxOf ("authenticate_" ++ y)

namespace ClassDescriptor

theorem authenticated?_eq_some_iff {method name : String} :
    authenticated? method = some name ↔ method = "authenticate_" ++ name := by
  rw [authenticated?, Option.map_eq_some_iff]
  constructor
  · rintro ⟨cs, hcs, rfl⟩
    rw [← String.toList_inj, afterPrefix?_eq_some_iff.1 hcs]
    simp
  · rintro rfl
    exact ⟨name.toList, afterPrefix?_eq_some_iff.2 (by simp), String.ofList_toList⟩

variable (d : ClassDescriptor)

/-- The password of the class that a method authenticates, if it does. -/
def password? (method : String) : Option String :=
  (authenticated? method).filter d.isConfirmed

theorem password?_eq_some_iff {method name : String} :
    d.password? method = some name ↔
      method = "authenticate_" ++ name ∧ d.isConfirmed name = true := by
  rw [password?, Option.filter_eq_some_iff, authenticated?_eq_some_iff]

/-- Two methods do not authenticate one password. -/
theorem eq_of_password?_eq {method method' name : String} (h : d.password? method = some name)
    (h' : d.password? method' = some name) : method = method' := by
  rw [(d.password?_eq_some_iff.1 h).1, (d.password?_eq_some_iff.1 h').1]

theorem passwordAttributes_eq :
    d.passwordAttributes = (d.instanceMethods.filterMap d.password?).eraseDups := by
  rw [passwordAttributes, List.filter_filterMap]
  rfl

theorem isConfirmed_iff {name : String} :
    d.isConfirmed name = true ↔
      ConstantPath.isMethodName name = true ∧ name ++ "_confirmation" ∈ d.instanceMethods := by
  rw [isConfirmed, Bool.and_eq_true, hasInstanceMethod, List.contains_iff_mem]

theorem mem_passwordAttributes {name : String} :
    name ∈ d.passwordAttributes ↔ ConstantPath.isMethodName name = true ∧
      "authenticate_" ++ name ∈ d.instanceMethods ∧
        name ++ "_confirmation" ∈ d.instanceMethods := by
  rw [passwordAttributes_eq, List.mem_eraseDups, List.mem_filterMap]
  constructor
  · rintro ⟨method, hmethod, hname⟩
    obtain ⟨rfl, hconfirmed⟩ := (d.password?_eq_some_iff).1 hname
    obtain ⟨hidentifier, hconfirmation⟩ := d.isConfirmed_iff.1 hconfirmed
    exact ⟨hidentifier, hmethod, hconfirmation⟩
  · rintro ⟨hidentifier, hmethod, hconfirmation⟩
    exact ⟨_, hmethod, d.password?_eq_some_iff.2
      ⟨rfl, d.isConfirmed_iff.2 ⟨hidentifier, hconfirmation⟩⟩⟩

/-- The passwords stand in the order of the first methods that authenticate them. -/
theorem pairwise_passwordAttributes :
    d.passwordAttributes.Pairwise fun x y ↦
      d.instanceMethods.idxOf ("authenticate_" ++ x) <
        d.instanceMethods.idxOf ("authenticate_" ++ y) := by
  rw [passwordAttributes_eq, eraseDups_filterMap d.eq_of_password?_eq, List.pairwise_filterMap]
  refine (pairwise_idxOf_eraseDups d.instanceMethods).imp fun {m m'} hlt x hx y hy ↦ ?_
  rw [← (d.password?_eq_some_iff.1 hx).1, ← (d.password?_eq_some_iff.1 hy).1]
  exact hlt

theorem nodup_passwordAttributes : d.passwordAttributes.Nodup :=
  d.pairwise_passwordAttributes.imp fun {x y} hlt heq ↦ by
    rw [heq] at hlt
    exact Nat.lt_irrefl _ hlt

/-- The passwords found are those of the class. -/
theorem arePasswords_passwordAttributes : ArePasswords d.passwordAttributes d.instanceMethods where
  nodup := d.nodup_passwordAttributes
  mem_iff _ := d.mem_passwordAttributes
  idxOf_lt_iff _ hx _ hy := idxOf_lt_idxOf_iff d.pairwise_passwordAttributes hx hy

/-- One method may authenticate a password and be part of the names of another's methods. -/
example :
    passwordAttributes { named "User" with
      instanceMethods := ["authenticate_authenticate_x", "x_confirmation", "authenticate_x",
        "authenticate_x_confirmation", "authenticate_authenticate_x"] } =
      ["authenticate_x", "x"] := by
  decide +kernel

end ClassDescriptor

end ModelSignatures
