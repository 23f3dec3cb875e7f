import ModelSignatures.Json.Basic
import ModelSignatures.NameMap

/-!
# The fields of objects

Of the fields of one key the last counts, so what is read from an object is settled by the last
value of each key that is read. The second half says how an object may be written otherwise: with
its fields in another order, with fields that nobody reads, with a default written out or left out,
and with another spelling of a value. Such a rewriting leaves every key that is read with what
counts as the same value (`FieldRules.Step.alike`), and a reader that takes these values for the
same does not see it.
-/

namespace ModelSignatures

/-! ### Lists read item by item -/

section Items

variable {α β γ : Type} {f : α → Option β}

/-- A list is read exactly if every item is. -/
theorem mapM_eq_some_iff {xs : List α} {ys : List β} :
    xs.mapM f = some ys ↔ xs.map f = ys.map some := by
  induction xs generalizing ys with
  | nil => cases ys <;> simp
  | cons x xs ih => cases ys <;> simp [List.mapM_cons, Option.bind_eq_some_iff, ih]

/-- Whether a list is read depends only on whether its items are. -/
theorem isSome_mapM_iff {xs : List α} :
    (xs.mapM f).isSome ↔ ∀ o ∈ xs.map f, o.isSome := by
  induction xs with
  | nil => simp
  | cons x xs ih =>
    rw [List.map_cons, List.forall_mem_cons, ← ih, List.mapM_cons]
    cases f x <;> cases xs.mapM f <;> simp

/-- The items that are read are those of which something is read. -/
theorem mem_of_mapM_eq_some {xs : List α} {ys : List β} (h : xs.mapM f = some ys) (y : β) :
    y ∈ ys ↔ some y ∈ xs.map f := by
  simp [mapM_eq_some_iff.1 h]

/-- Lists are read alike if their items are. -/
theorem mapM_congr_map {xs xs' : List α} (h : xs.map f = xs'.map f) :
    xs.mapM f = xs'.mapM f := by
  ext ys
  rw [mapM_eq_some_iff, mapM_eq_some_iff, h]

/-- What depends on the members of a list alone depends on the items that they are read from, and
neither on their order nor on their number. -/
theorem map_mapM_congr {g : List β → γ} (hg : ∀ {ys zs}, (∀ y, y ∈ ys ↔ y ∈ zs) → g ys = g zs)
    {xs xs' : List α} (h : ∀ o, o ∈ xs.map f ↔ o ∈ xs'.map f) :
    (xs.mapM f).map g = (xs'.mapM f).map g := by
  have hsome : (xs.mapM f).isSome = (xs'.mapM f).isSome := by
    rw [Bool.eq_iff_iff, isSome_mapM_iff, isSome_mapM_iff]
    simp only [h]
  cases hys : xs.mapM f with
  | none =>
    rw [hys, Option.isSome_none, eq_comm, Option.isSome_eq_false_iff] at hsome
    rw [Option.isNone_iff_eq_none.1 hsome]
  | some ys =>
    rw [hys, Option.isSome_some, eq_comm, Option.isSome_iff_exists] at hsome
    obtain ⟨zs, hzs⟩ := hsome
    rw [hzs, Option.map_some, Option.map_some, hg fun y ↦ ?_]
    rw [mem_of_mapM_eq_some hys, mem_of_mapM_eq_some hzs, h]

end Items

namespace Json

variable {fields fields' : List (String × Json)} {key : String}

/-! ### The last value of a key -/

/-- The last value of a key is in the fields behind the first, or else in the first. -/
theorem lastValue?_cons (key : String) (field : String × Json) (fields : List (String × Json)) :
    lastValue? key (field :: fields) =
      (lastValue? key fields).or (if field.1 = key then some field.2 else none) := by
  rw [lastValue?]
  cases lastValue? key fields <;> rfl

/-- The last value of a key is in the second fields, or else in the first. -/
theorem lastValue?_append (key : String) (fields fields' : List (String × Json)) :
    lastValue? key (fields ++ fields') =
      (lastValue? key fields').or (lastValue? key fields) := by
  induction fields with
  | nil => exact (Option.or_none).symm
  | cons field fields ih => rw [List.cons_append, lastValue?_cons, ih, lastValue?_cons,
      Option.or_assoc]

/-- The last value of a key is the first that is found from behind. -/
theorem lastValue?_eq_lookup (key : String) (fields : List (String × Json)) :
    lastValue? key fields = fields.reverse.lookup key := by
  induction fields with
  | nil => rfl
  | cons field fields ih =>
    rw [lastValue?_cons, ih, List.reverse_cons, List.lookup_append, NameMap.lookup_cons_eq]
    simp only [eq_comm, List.lookup_nil]

/-- A key has no last value exactly if no field has the key. -/
theorem lastValue?_eq_none_iff :
    lastValue? key fields = none ↔ ∀ field ∈ fields, field.1 ≠ key := by
  induction fields with
  | nil => simp [lastValue?]
  | cons field fields ih => simp [lastValue?_cons, ih, and_comm]

/-- A key that is given has a value. -/
theorem isSome_lastValue? {field : String × Json} (h : field ∈ fields) :
    (lastValue? field.1 fields).isSome := by
  rw [Option.isSome_iff_ne_none, Ne, lastValue?_eq_none_iff]
  exact fun hnone ↦ hnone field h rfl

/-- A field whose key is given again behind does not count. -/
theorem lastValue?_overwritten {field : String × Json} (h : ∃ later ∈ fields, later.1 = field.1)
    (key : String) : lastValue? key (field :: fields) = lastValue? key fields := by
  obtain ⟨later, hlater, heq⟩ := h
  rw [lastValue?_cons]
  split
  next hkey =>
    obtain ⟨value, hvalue⟩ := Option.isSome_iff_exists.1 (isSome_lastValue? hlater)
    rw [← hkey, ← heq, hvalue, Option.some_or]
  next => exact Option.or_none

/-- The last values are the same where only the last field of each key is left. -/
theorem lastValue?_lastFields (key : String) (fields : List (String × Json)) :
    lastValue? key (lastFields fields) = lastValue? key fields := by
  induction fields with
  | nil => rfl
  | cons field fields ih =>
    rw [lastFields]
    split
    next hany =>
      rw [ih, lastValue?_overwritten]
      simpa using hany
    next => rw [lastValue?_cons, ih, lastValue?_cons]

/-- A field that counts has the value that counts for its key. -/
theorem lastValue?_of_mem_lastFields {value : Json} (h : (key, value) ∈ lastFields fields) :
    lastValue? key fields = some value := by
  induction fields with
  | nil => simp [lastFields] at h
  | cons field fields ih =>
    rw [lastFields] at h
    split at h
    next hany =>
      rw [lastValue?_overwritten (by simpa using hany), ih h]
    next hany =>
      rcases List.mem_cons.1 h with rfl | h
      · have hnone : lastValue? key fields = none :=
          lastValue?_eq_none_iff.2 fun later hlater heq ↦
            hany (List.any_eq_true.2 ⟨later, hlater, beq_iff_eq.2 heq⟩)
        rw [lastValue?_cons, hnone, if_pos rfl, Option.none_or]
      · rw [lastValue?_cons, ih h, Option.some_or]

/-! ### Fields read -/

section Reading

variable {α β : Type}

/-- An optional field is its default where its key is missing, and is read of its last value else.
-/
theorem optional?_eq_elim (fields : List (String × Json)) (key : String) (default : α)
    (read : Json → Option α) :
    optional? fields key default read = (lastValue? key fields).elim (some default) read := by
  unfold optional?
  cases lastValue? key fields <;> rfl

/-- What is made of a value that is read is read with it. -/
theorem optional?_map (g : α → β) (fields : List (String × Json)) (key : String) (default : α)
    (read : Json → Option α) :
    optional? fields key (g default) (fun value ↦ (read value).map g) =
      (optional? fields key default read).map g := by
  rw [optional?_eq_elim, optional?_eq_elim]
  cases lastValue? key fields <;> rfl

/-- A list that is written item by item is read item by item. -/
theorem asListOf?_map {read : Json → Option α} {write : α → Json} {g : α → α}
    (h : ∀ a, read (write a) = some (g a)) (as : List α) :
    asListOf? read (.array (as.map write)) = some (as.map g) := by
  rw [asListOf?, asArray?, Option.bind_some, mapM_eq_some_iff, List.map_map, List.map_map]
  exact List.map_congr_left fun a _ ↦ h a

/-- What is read of each field of an object, by its key. -/
theorem map_lookup_of_mapM {read : Json → Option α} {entries : List (String × α)}
    (h : fields.mapM (fun field ↦ (read field.2).map (field.1, ·)) = some entries)
    (key : String) :
    (lastValue? key fields).map read = (entries.reverse.lookup key).map some := by
  induction fields generalizing entries with
  | nil =>
    cases h
    rfl
  | cons field fields ih =>
    simp only [List.mapM_cons, Option.bind_eq_bind, Option.bind_eq_some_iff, Option.map_eq_some_iff,
      Option.pure_def, Option.some.injEq] at h
    obtain ⟨-, ⟨value, hvalue, rfl⟩, entries, hentries, rfl⟩ := h
    rw [lastValue?_cons, Option.map_or, ih hentries, List.reverse_cons, List.lookup_append,
      Option.map_or, NameMap.lookup_cons_eq]
    congr 1
    simp only [eq_comm (a := key)]
    split <;> simp [hvalue]

/-- The map read of the fields that count, each by itself: it answers what is read of the last value
of a key, and it takes a value that can be read for each key that is given. -/
theorem map_ofList_mapM_eq_some_iff {read : Json → Option α} {m : NameMap α} :
    ((lastFields fields).mapM fun field ↦ (read field.2).map (field.1, ·)).map .ofList = some m ↔
      ∀ key, (lastValue? key fields).map read = (m.find? key).map some := by
  have hread {entries : List (String × α)}
      (h : (lastFields fields).mapM (fun field ↦ (read field.2).map (field.1, ·)) = some entries)
      (key : String) :
      (lastValue? key fields).map read = ((NameMap.ofList entries).find? key).map some := by
    rw [NameMap.find?_ofList, ← map_lookup_of_mapM h, lastValue?_lastFields]
  rw [Option.map_eq_some_iff]
  constructor
  · rintro ⟨entries, hentries, rfl⟩
    exact hread hentries
  · intro h
    have hall : ∀ o ∈ (lastFields fields).map (fun field ↦ (read field.2).map (field.1, ·)),
        o.isSome := by
      rintro _ ho
      obtain ⟨⟨key, value⟩, hfield, rfl⟩ := List.mem_map.1 ho
      have hkey := h key
      rw [lastValue?_of_mem_lastFields hfield, Option.map_some, eq_comm,
        Option.map_eq_some_iff] at hkey
      obtain ⟨result, -, hresult⟩ := hkey
      rw [← hresult, Option.map_some, Option.isSome_some]
    -- Some map is read, and it answers as the given one does.
    obtain ⟨entries, hentries⟩ := Option.isSome_iff_exists.1 (isSome_mapM_iff.2 hall)
    refine ⟨entries, hentries, NameMap.ext_find? fun key ↦ ?_⟩
    exact Option.map_injective (fun _ _ ↦ Option.some.inj) ((hread hentries key).symm.trans (h key))

end Reading

/-! ### Objects written otherwise -/

/-- What is read of an object, and which spellings of it are taken for the same. -/
structure FieldRules where
  /-- The keys that are read. -/
  Known : String → Prop
  /-- The value of a key that says the same as leaving it out. -/
  default? : String → Option Json
  /-- The spellings of a key's value. -/
  Respelled : String → Json → Json → Prop

namespace FieldRules

variable (rules : FieldRules)

/-- One change in how the fields of an object are written. -/
inductive Step : List (String × Json) → List (String × Json) → Prop
  /-- Fields with different keys may stand in any order. -/
  | swap (before after : List (String × Json)) {x y : String × Json} (h : x.1 ≠ y.1) :
      Step (before ++ x :: y :: after) (before ++ y :: x :: after)
  /-- A field does not count if its key is given again behind it. -/
  | overwritten (before after : List (String × Json)) {x : String × Json}
      (h : ∃ later ∈ after, later.1 = x.1) : Step (before ++ x :: after) (before ++ after)
  /-- A field does not count if nobody reads its key. -/
  | unknown (before after : List (String × Json)) {x : String × Json} (h : ¬ rules.Known x.1) :
      Step (before ++ x :: after) (before ++ after)
  /-- A default may be left out. -/
  | default (before after : List (String × Json)) {key : String} {value : Json}
      (h : rules.default? key = some value) (habsent : ∀ x ∈ before ++ after, x.1 ≠ key) :
      Step (before ++ (key, value) :: after) (before ++ after)
  /-- A value may be spelled otherwise. -/
  | value (before after : List (String × Json)) {key : String} {v w : Json}
      (h : rules.Respelled key v w) :
      Step (before ++ (key, v) :: after) (before ++ (key, w) :: after)

/-- Values of a key that are taken for the same. -/
inductive Alike (key : String) : Option Json → Option Json → Prop
  | refl (value : Option Json) : Alike key value value
  | default {value : Json} (h : rules.default? key = some value) : Alike key (some value) none
  | respelled {v w : Json} (h : rules.Respelled key v w) : Alike key (some v) (some w)

variable {rules}

/-- Whatever is changed in the fields, each key that is read keeps its value. -/
theorem Step.alike (h : rules.Step fields fields') (hkey : rules.Known key) :
    rules.Alike key (lastValue? key fields) (lastValue? key fields') := by
  cases h with
  | @swap before after x y hne =>
    -- At most one of the two fields has the key.
    have heq : lastValue? key (x :: y :: after) = lastValue? key (y :: x :: after) := by
      simp only [lastValue?_cons, Option.or_assoc]
      congr 1
      by_cases hx : x.1 = key
      · have hy : y.1 ≠ key := fun hy ↦ hne (hx.trans hy.symm)
        simp [hy]
      · simp [hx]
    rw [lastValue?_append, lastValue?_append, heq]
    exact .refl _
  | overwritten before after hlater =>
    rw [lastValue?_append, lastValue?_append, lastValue?_overwritten hlater]
    exact .refl _
  | @unknown before after x hx =>
    have hne : x.1 ≠ key := fun heq ↦ hx (heq ▸ hkey)
    rw [lastValue?_append, lastValue?_append, lastValue?_cons, if_neg hne, Option.or_none]
    exact .refl _
  | @default before after other value hdefault habsent =>
    -- The key is given nowhere else, so it is told here by its default and there by nothing.
    rw [lastValue?_append, lastValue?_append, lastValue?_cons]
    by_cases heq : other = key
    · have hnone := lastValue?_eq_none_iff.2 (heq ▸ habsent)
      rw [lastValue?_append, Option.or_eq_none_iff] at hnone
      rw [hnone.1, hnone.2, if_pos heq, Option.none_or, Option.or_none, Option.or_none]
      exact .default (heq ▸ hdefault)
    · rw [if_neg heq, Option.or_none]
      exact .refl _
  | @value before after other v w hvw =>
    rw [lastValue?_append, lastValue?_append, lastValue?_cons, lastValue?_cons]
    by_cases heq : other = key
    · subst heq
      rw [if_pos rfl, if_pos rfl]
      -- A later field of the key hides both spellings.
      cases lastValue? other after with
      | none => exact .respelled hvw
      | some later => exact .refl _
    · rw [if_neg heq, if_neg heq]
      exact .refl _

/-- What does not tell a default from nothing, nor the spellings of a value from each other, does
not tell values apart that are taken for the same. -/
theorem Alike.congr {β : Type} {F : Option Json → β} {value value' : Option Json}
    (h : rules.Alike key value value')
    (hdefault : ∀ v, rules.default? key = some v → F (some v) = F none)
    (hrespelled : ∀ {v w}, rules.Respelled key v w → F (some v) = F (some w)) :
    F value = F value' := by
  cases h with
  | refl => rfl
  | default hvalue => exact hdefault _ hvalue
  | respelled hvw => exact hrespelled hvw

variable {α : Type} {read : Json → Option α}

/-- A field that may be left out is read alike if its default is read as what stands for nothing,
and its spellings are read alike. -/
theorem Step.optional?_eq (h : rules.Step fields fields') (hkey : rules.Known key) {default : α}
    {value : Json} (hvalue : rules.default? key = some value) (hdefault : read value = some default)
    (hrespelled : ∀ {v w}, rules.Respelled key v w → read v = read w) :
    optional? fields key default read = optional? fields' key default read := by
  rw [optional?_eq_elim, optional?_eq_elim]
  refine (h.alike hkey).congr (F := fun value ↦ value.elim (some default) read) (fun v hv ↦ ?_)
    hrespelled
  rw [hvalue] at hv
  cases hv
  exact hdefault

/-- A field that has to be there is read alike if its spellings are. -/
theorem Step.required?_eq (h : rules.Step fields fields') (hkey : rules.Known key)
    (hdefault : rules.default? key = none)
    (hrespelled : ∀ {v w}, rules.Respelled key v w → read v = read w) :
    required? fields key read = required? fields' key read :=
  (h.alike hkey).congr (F := fun value ↦ value.bind read) (by simp [hdefault]) hrespelled

end FieldRules

end Json

end ModelSignatures
