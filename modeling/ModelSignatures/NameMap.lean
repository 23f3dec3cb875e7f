/-!
# Maps from names

Finite maps from strings, kept as entries in strictly ascending order of their names. A map has one
form only, whatever the order in which its entries came, so equal contents are equal maps
(`NameMap.ext_find?`). Names are ordered by their code points.
-/

namespace ModelSignatures

/-- A finite map from names. -/
structure NameMap (α : Type) where
  entries : List (String × α)
  /-- The names ascend strictly. -/
  sorted : entries.Pairwise fun a b ↦ a.1 < b.1
deriving DecidableEq, Repr

namespace NameMap

variable {α : Type}

/-! ### Entries in ascending order -/

/-- Puts an entry where its name belongs, in place of the one of that name. -/
def insertEntry (name : String) (value : α) : List (String × α) → List (String × α)
  | [] => [(name, value)]
  | entry :: entries =>
    if name < entry.1 then (name, value) :: entry :: entries
    else if name = entry.1 then (name, value) :: entries
    else entry :: insertEntry name value entries

/-- An entry of the new list is the inserted one or was there before. -/
theorem mem_insertEntry {name : String} {value : α} {entries : List (String × α)}
    {e : String × α} (h : e ∈ insertEntry name value entries) :
    e = (name, value) ∨ e ∈ entries := by
  induction entries with
  | nil => simpa [insertEntry] using h
  | cons entry entries ih =>
    unfold insertEntry at h
    split at h
    · simpa using h
    · split at h
      · rcases List.mem_cons.1 h with h | h
        · exact .inl h
        · exact .inr (List.mem_cons_of_mem _ h)
      · rcases List.mem_cons.1 h with h | h
        · exact .inr (h ▸ List.mem_cons_self)
        · exact (ih h).imp_right (List.mem_cons_of_mem _)

/-- Entries stay in ascending order when one is inserted. -/
theorem sorted_insertEntry (name : String) (value : α) {entries : List (String × α)}
    (h : entries.Pairwise fun a b ↦ a.1 < b.1) :
    (insertEntry name value entries).Pairwise fun a b ↦ a.1 < b.1 := by
  induction entries with
  | nil => simp [insertEntry]
  | cons entry entries ih =>
    obtain ⟨hhead, htail⟩ := List.pairwise_cons.1 h
    unfold insertEntry
    split
    next hlt =>
      refine List.pairwise_cons.2 ⟨fun e he ↦ ?_, h⟩
      rcases List.mem_cons.1 he with rfl | he
      · exact hlt
      · exact String.lt_trans hlt (hhead e he)
    next hlt =>
      split
      next heq =>
        subst heq
        exact List.pairwise_cons.2 ⟨hhead, htail⟩
      next hne =>
        refine List.pairwise_cons.2 ⟨fun e he ↦ ?_, ih htail⟩
        rcases mem_insertEntry he with rfl | he
        · exact Std.lt_of_le_of_ne (Std.not_lt.1 hlt) (Ne.symm hne)
        · exact hhead e he

/-! ### Maps -/

/-- The map without entries. -/
def empty : NameMap α := ⟨[], .nil⟩

/-- The map in which `name` has the value, and every other name the value that it had. -/
def insert (m : NameMap α) (name : String) (value : α) : NameMap α :=
  ⟨insertEntry name value m.entries, sorted_insertEntry name value m.sorted⟩

/-- The value of a name, if it has one. -/
def find? (m : NameMap α) (name : String) : Option α :=
  m.entries.lookup name

/-- The map of the entries in a list, of which the last of each name counts. -/
def ofList (entries : List (String × α)) : NameMap α :=
  entries.foldl (fun m entry ↦ m.insert entry.1 entry.2) empty

/-- The names that have a value, in ascending order. -/
def names (m : NameMap α) : List String :=
  m.entries.map Prod.fst

@[simp] theorem find?_empty (name : String) : (empty : NameMap α).find? name = none := rfl

theorem lookup_cons_eq (entry : String × α) (entries : List (String × α)) (name : String) :
    (entry :: entries).lookup name =
      if name = entry.1 then some entry.2 else entries.lookup name := by
  obtain ⟨key, value⟩ := entry
  by_cases h : name = key
  · simp [h]
  · simp [List.lookup_cons, h, beq_false_of_ne h]

/-- The inserted name leads to its value and every other name where it led before. -/
theorem lookup_insertEntry (name : String) (value : α) (entries : List (String × α))
    (other : String) :
    (insertEntry name value entries).lookup other =
      if other = name then some value else entries.lookup other := by
  induction entries with
  | nil => rw [insertEntry, lookup_cons_eq]
  | cons entry entries ih =>
    unfold insertEntry
    split
    next => rw [lookup_cons_eq]
    next =>
      split
      next heq =>
        rw [lookup_cons_eq, lookup_cons_eq]
        by_cases h : other = name
        · simp [h]
        · simp [h, ← heq]
      next hne =>
        rw [lookup_cons_eq, ih, lookup_cons_eq]
        by_cases h : other = name
        · simp [h, hne]
        · simp [h]

/-- Inserting changes the value of one name only. -/
theorem find?_insert (m : NameMap α) (name : String) (value : α) (other : String) :
    (m.insert name value).find? other = if other = name then some value else m.find? other :=
  lookup_insertEntry name value m.entries other

/-! ### Equal contents -/

/-- A name that comes before all entries has none. -/
theorem lookup_eq_none_of_lt {name : String} {entries : List (String × α)}
    (h : ∀ e ∈ entries, name < e.1) : entries.lookup name = none := by
  rw [List.lookup_eq_none_iff]
  intro e he
  rw [bne_iff_ne]
  rintro rfl
  exact String.lt_irrefl _ (h e he)

/-- Entries in ascending order are told by where their names lead. -/
theorem eq_of_lookup_eq {xs ys : List (String × α)} (hxs : xs.Pairwise fun a b ↦ a.1 < b.1)
    (hys : ys.Pairwise fun a b ↦ a.1 < b.1) (h : ∀ name, xs.lookup name = ys.lookup name) :
    xs = ys := by
  induction xs generalizing ys with
  | nil =>
    cases ys with
    | nil => rfl
    | cons y ys => simpa [lookup_cons_eq] using h y.1
  | cons x xs ih =>
    obtain ⟨hx, hxs⟩ := List.pairwise_cons.1 hxs
    cases ys with
    | nil => simpa [lookup_cons_eq] using h x.1
    | cons y ys =>
      obtain ⟨hy, hys⟩ := List.pairwise_cons.1 hys
      -- the smaller of two first names would lead somewhere in its own list only
      have hname : x.1 = y.1 := by
        rcases Std.lt_trichotomy x.1 y.1 with hlt | heq | hlt
        · have hnone : (y :: ys).lookup x.1 = none := by
            refine lookup_eq_none_of_lt fun e he ↦ ?_
            rcases List.mem_cons.1 he with rfl | he
            · exact hlt
            · exact String.lt_trans hlt (hy e he)
          simpa [hnone, lookup_cons_eq x] using h x.1
        · exact heq
        · have hnone : (x :: xs).lookup y.1 = none := by
            refine lookup_eq_none_of_lt fun e he ↦ ?_
            rcases List.mem_cons.1 he with rfl | he
            · exact hlt
            · exact String.lt_trans hlt (hx e he)
          simpa [hnone, lookup_cons_eq y] using h y.1
      have hvalue : x.2 = y.2 := by
        simpa [lookup_cons_eq, hname] using h x.1
      have htail : xs = ys := by
        refine ih hxs hys fun name ↦ ?_
        by_cases heq : name = x.1
        · rw [heq, lookup_eq_none_of_lt hx, hname, lookup_eq_none_of_lt hy]
        · simpa [lookup_cons_eq, heq, hname ▸ heq] using h name
      rw [htail, Prod.ext hname hvalue]

/-- Two maps that answer alike are the same map. -/
theorem ext_find? {m n : NameMap α} (h : ∀ name, m.find? name = n.find? name) : m = n := by
  obtain ⟨xs, hxs⟩ := m
  obtain ⟨ys, hys⟩ := n
  have heq : xs = ys := eq_of_lookup_eq hxs hys h
  subst heq
  rfl

/-! ### Maps from lists of entries -/

/-- A name leads to the changed value where it led to the value. -/
theorem lookup_map {β : Type} (f : α → β) (entries : List (String × α)) (name : String) :
    (entries.map fun entry ↦ (entry.1, f entry.2)).lookup name = (entries.lookup name).map f := by
  induction entries with
  | nil => rfl
  | cons entry entries ih =>
    rw [List.map_cons, lookup_cons_eq, lookup_cons_eq, ih]
    split <;> rfl

/-- Of entries that are inserted one after the other the last of a name counts. -/
theorem find?_foldl_insert (m : NameMap α) (entries : List (String × α)) (name : String) :
    (entries.foldl (fun m entry ↦ m.insert entry.1 entry.2) m).find? name =
      (entries.reverse.lookup name).or (m.find? name) := by
  induction entries generalizing m with
  | nil => rfl
  | cons entry entries ih =>
    rw [List.foldl_cons, ih, find?_insert, List.reverse_cons, List.lookup_append, Option.or_assoc,
      lookup_cons_eq]
    split <;> rfl

/-- Of the entries of one name the last counts. -/
theorem find?_ofList (entries : List (String × α)) (name : String) :
    (ofList entries).find? name = entries.reverse.lookup name := by
  rw [ofList, find?_foldl_insert, find?_empty, Option.or_none]

/-- Where no name is given twice, the first entry of a name is the last. -/
theorem lookup_reverse {entries : List (String × α)}
    (h : entries.Pairwise fun a b ↦ a.1 ≠ b.1) (name : String) :
    entries.reverse.lookup name = entries.lookup name := by
  induction entries with
  | nil => rfl
  | cons entry entries ih =>
    obtain ⟨hentry, hentries⟩ := List.pairwise_cons.1 h
    rw [List.reverse_cons, List.lookup_append, ih hentries, lookup_cons_eq, lookup_cons_eq]
    split
    next heq =>
      have hnone : entries.lookup name = none :=
        List.lookup_eq_none_iff.2 fun e he ↦ bne_iff_ne.2 (heq ▸ hentry e he)
      rw [hnone, Option.none_or]
    next => exact Option.or_none

/-- No two entries of a map have the same name. -/
theorem pairwise_ne (m : NameMap α) : m.entries.Pairwise fun a b ↦ a.1 ≠ b.1 :=
  m.sorted.imp Std.ne_of_lt

end NameMap

/-! ### Sets -/

/-- A finite set of names. -/
abbrev NameSet := NameMap Unit

namespace NameSet

/-- Whether a name is in the set. -/
def contains (s : NameSet) (name : String) : Bool :=
  (s.find? name).isSome

/-- The set with one name more. -/
def insert (s : NameSet) (name : String) : NameSet :=
  NameMap.insert s name ()

/-- The set of the names in a list. -/
def ofList (names : List String) : NameSet :=
  names.foldl insert NameMap.empty

/-- A set with one name more contains that name and what it did. -/
theorem contains_insert (s : NameSet) (name other : String) :
    (s.insert name).contains other = (other == name || s.contains other) := by
  by_cases h : other = name <;> simp [contains, insert, NameMap.find?_insert, h]

/-- A set with some names more contains these names and what it did. -/
theorem contains_foldl_insert (s : NameSet) (names : List String) (name : String) :
    (names.foldl insert s).contains name = (names.contains name || s.contains name) := by
  induction names generalizing s with
  | nil => rfl
  | cons other names ih =>
    rw [List.foldl_cons, ih, contains_insert, List.contains_cons, ← Bool.or_assoc,
      Bool.or_comm (names.contains name)]

/-- The set of some names contains these names. -/
@[simp] theorem contains_ofList (names : List String) (name : String) :
    (ofList names).contains name = names.contains name :=
  (contains_foldl_insert NameMap.empty names name).trans (Bool.or_false _)

/-- A set contains the names that are listed of it. -/
theorem contains_eq_contains_names (s : NameSet) (name : String) :
    s.contains name = s.names.contains name := by
  rw [Bool.eq_iff_iff, contains, NameMap.find?, List.lookup_isSome_iff]
  simp [NameMap.names]

/-- Two sets with the same members are the same set. -/
theorem ext_contains {s t : NameSet} (h : ∀ name, s.contains name = t.contains name) : s = t :=
  NameMap.ext_find? fun name ↦ by
    have hname := h name
    unfold contains at hname
    cases hs : s.find? name <;> cases ht : t.find? name <;> simp_all

/-- A set is the one made from its members. -/
@[simp] theorem ofList_names (s : NameSet) : ofList s.names = s :=
  ext_contains fun name ↦ by rw [contains_ofList, contains_eq_contains_names]

/-- The order and the number of the names do not matter. -/
theorem ofList_congr {xs ys : List String} (h : ∀ name, name ∈ xs ↔ name ∈ ys) :
    ofList xs = ofList ys :=
  ext_contains fun name ↦ by
    rw [contains_ofList, contains_ofList, Bool.eq_iff_iff, List.contains_iff_mem,
      List.contains_iff_mem, h]

end NameSet

end ModelSignatures
