import Mathlib.Logic.Relation
import ModelSignatures.Proofs.Descriptor.Json

/-!
# Spellings of one descriptor

The JSON values that are read as the same descriptor. `ClassDescriptor.Respelled` is one change in
how a descriptor is written, anywhere in it: the order of fields, fields that nobody reads,
defaults, arrays in place of records and kinds, the members of sets. A change in a nested value is a
change of the field that it stands in, so each kind of value has its own relation and its own lemma,
and any number of changes is read as the descriptor that stood there before
(`ofJson?_eq_of_respelled`).
-/

namespace ModelSignatures

/-! ### Lists, sets and records -/

namespace Json

/-- One item of an array spelled otherwise. -/
inductive ItemRespelled (item : Json → Json → Prop) : Json → Json → Prop
  | item (before after : List Json) {v w : Json} (h : item v w) :
      ItemRespelled item (.array (before ++ v :: after)) (.array (before ++ w :: after))

/-- The items of an array in another order or number, or one of them spelled otherwise. -/
inductive MembersRespelled (item : Json → Json → Prop) : Json → Json → Prop
  | item {j j' : Json} (h : ItemRespelled item j j') : MembersRespelled item j j'
  | members {items items' : List Json} (h : ∀ v, v ∈ items ↔ v ∈ items') :
      MembersRespelled item (.array items) (.array items')

/-- The fields of a record written otherwise, or its values alone in the order of the keys. -/
inductive RecordRespelled (keys : List String) (rules : FieldRules) : Json → Json → Prop
  | fields {fields fields' : List (String × Json)} (h : rules.Step fields fields') :
      RecordRespelled keys rules (.object fields) (.object fields')
  | positional (items : List Json) (h : items.length ≤ keys.length) :
      RecordRespelled keys rules (.object (keys.zip items)) (.array items)

variable {α β : Type} {item : Json → Json → Prop} {read : Json → Option α}

/-- A list is read alike if its items are written otherwise, each read alike. -/
theorem ItemRespelled.asListOf?_eq {j j' : Json} (h : ItemRespelled item j j')
    (hitem : ∀ {v w}, item v w → read v = read w) : asListOf? read j = asListOf? read j' := by
  obtain ⟨before, after, hvw⟩ := h
  simp only [asListOf?, asArray?, Option.bind_some]
  refine mapM_congr_map ?_
  simp only [List.map_append, List.map_cons, hitem hvw]

/-- A list that counts as a set is read alike if its members are written otherwise. -/
theorem MembersRespelled.map_asListOf?_eq {j j' : Json} (h : MembersRespelled item j j')
    {g : List α → β} (hg : ∀ {ys zs}, (∀ y, y ∈ ys ↔ y ∈ zs) → g ys = g zs)
    (hitem : ∀ {v w}, item v w → read v = read w) :
    (asListOf? read j).map g = (asListOf? read j').map g := by
  cases h with
  | item h => rw [h.asListOf?_eq hitem]
  | members hmem =>
    simp only [asListOf?, asArray?, Option.bind_some]
    exact map_mapM_congr hg fun o ↦ by simp only [List.mem_map, hmem]

/-- A record written otherwise has fields that differ by one change, if they differ. -/
theorem RecordRespelled.asRecord? {keys : List String} {rules : FieldRules} {j j' : Json}
    (h : RecordRespelled keys rules j j') :
    j.asRecord? keys = j'.asRecord? keys ∨
      ∃ fields fields', rules.Step fields fields' ∧ j.asRecord? keys = some fields ∧
        j'.asRecord? keys = some fields' := by
  cases h with
  | fields hstep => exact .inr ⟨_, _, hstep, rfl, rfl⟩
  | positional items hlength => exact .inl (if_pos hlength).symm

end Json

/-! ### Capabilities -/

/-- The two spellings of a capability. -/
inductive Capability.Respelled : Json → Json → Prop
  | object (name : String) : Respelled (.string name) (.object [(name, .null)])

/-- A capability is read alike in both of its spellings. -/
theorem Capability.Respelled.ofJson?_eq {j j' : Json} (h : Respelled j j') :
    ofJson? j = ofJson? j' := by
  cases h
  rfl

/-- The object that spells a capability has one key, and no room for another. -/
theorem Capability.ofJson?_object_of_ne {fields : List (String × Json)} {x y : String × Json}
    (hx : x ∈ fields) (hy : y ∈ fields) (h : x.1 ≠ y.1) : ofJson? (.object fields) = none := by
  have hkey {field : String × Json} (hfield : field ∈ fields) {text : String} {value : Json}
      (hlast : Json.lastFields fields = [(text, value)]) : field.1 = text := by
    have hsome := Json.isSome_lastValue? hfield
    rw [← Json.lastValue?_lastFields, hlast, Json.lastValue?_cons] at hsome
    have heq : text = field.1 := by simpa [Json.lastValue?] using hsome
    exact heq.symm
  unfold ofJson?
  split
  next hobject => cases hobject
  next text hobject _ =>
    have hlast : Json.lastFields fields = [(text, .null)] := Option.some.inj hobject
    exact absurd ((hkey hx hlast).trans (hkey hy hlast).symm) h
  next => rfl

/-! ### Kinds -/

namespace ConstantKind

/-- The fields of a kind. -/
def rules : Json.FieldRules where
  Known key := key = "kind" ∨ key = "superclass"
  default?
    | "superclass" => some .null
    | _ => none
  Respelled _ _ _ := False

/-- One change in how a kind is written. -/
inductive Respelled : Json → Json → Prop
  | fields {fields fields' : List (String × Json)} (h : rules.Step fields fields') :
      Respelled (.object fields) (.object fields')
  /-- A kind that has no superclass does not read that field. -/
  | superclass (before after : List (String × Json)) (value : Json) {kind : String}
      (hkind : Json.lastValue? "kind" (before ++ after) = some (.string kind))
      (h : kind ≠ "class") :
      Respelled (.object (before ++ ("superclass", value) :: after)) (.object (before ++ after))
  /-- An array may begin with the kind. -/
  | kindAlone (kind : String) : Respelled (.object [("kind", .string kind)]) (.array [.string kind])
  | classWith (superclass : Json) :
      Respelled (.object [("kind", .string "class"), ("superclass", superclass)])
        (.array [.string "class", superclass])

/-- The kind of a constant is read alike of fields that differ by one change. -/
theorem ofFields?_congr {fields fields' : List (String × Json)} (h : rules.Step fields fields') :
    ofFields? fields = ofFields? fields' := by
  have hkind : Json.required? fields "kind" Json.asString? =
      Json.required? fields' "kind" Json.asString? :=
    h.required?_eq (.inl rfl) rfl False.elim
  have hsuper : Json.optional? fields "superclass" none Json.asNullableString? =
      Json.optional? fields' "superclass" none Json.asNullableString? :=
    h.optional?_eq (.inr rfl) rfl rfl False.elim
  rw [ofFields?, ofFields?, hkind, hsuper]

/-- Of a kind other than a class nothing is read but the kind. -/
theorem ofFields?_of_ne_class {fields : List (String × Json)} {kind : String}
    (hkind : Json.lastValue? "kind" fields = some (.string kind)) (h : kind ≠ "class") :
    ofFields? fields = ofJson? (.array [.string kind]) := by
  simp only [ofFields?, Json.required?, hkind, Option.bind_eq_bind, Option.bind_some,
    Json.asString?]
  split
  next => exact absurd rfl h
  next => rfl
  next => rfl
  next hmodule hvalue =>
    -- The kind has none of the three names, so neither form is read.
    unfold ofJson?
    split <;> simp_all

/-- The kind of a constant is read alike after one change. -/
theorem Respelled.ofJson?_eq {j j' : Json} (h : Respelled j j') : ofJson? j = ofJson? j' := by
  cases h with
  | fields hstep => exact ofFields?_congr hstep
  | @superclass before after value kind hkind hclass =>
    -- Both objects have the same kind, and their other fields are not read.
    have hkind' : Json.lastValue? "kind" (before ++ ("superclass", value) :: after) =
        some (.string kind) := by
      rw [← hkind, Json.lastValue?_append, Json.lastValue?_cons, if_neg (by simp), Option.or_none,
        Json.lastValue?_append]
    exact (ofFields?_of_ne_class hkind' hclass).trans (ofFields?_of_ne_class hkind hclass).symm
  | kindAlone kind =>
    by_cases hclass : kind = "class"
    · subst hclass
      rfl
    · exact ofFields?_of_ne_class rfl hclass
  | classWith superclass => rfl

end ConstantKind

/-! ### Attributes -/

namespace AttributeDecl

/-- The fields of an attribute. -/
def rules : Json.FieldRules where
  Known key := key ∈ keys
  default?
    | "has_default" => some (.bool false)
    | _ => none
  Respelled _ _ _ := False

/-- One change in how an attribute is written. -/
def Respelled : Json → Json → Prop :=
  Json.RecordRespelled keys rules

/-- An attribute is read alike after one change. -/
theorem ofJson?_eq_of_step {j j' : Json} (h : Respelled j j') : ofJson? j = ofJson? j' := by
  rcases h.asRecord? with heq | ⟨fields, fields', hstep, hfields, hfields'⟩
  · rw [ofJson?, ofJson?, heq]
  · have hname : Json.required? fields "name" Json.asString? =
        Json.required? fields' "name" Json.asString? :=
      hstep.required?_eq (by simp [rules, keys]) rfl False.elim
    have htype : Json.required? fields "type" Json.asString? =
        Json.required? fields' "type" Json.asString? :=
      hstep.required?_eq (by simp [rules, keys]) rfl False.elim
    have hdefault : Json.optional? fields "has_default" false Json.asBool? =
        Json.optional? fields' "has_default" false Json.asBool? :=
      hstep.optional?_eq (by simp [rules, keys]) rfl rfl False.elim
    simp only [ofJson?, hfields, hfields', Option.bind_eq_bind, Option.bind_some, hname, htype,
      hdefault]

end AttributeDecl

/-! ### Descriptors -/

namespace ClassDescriptor

/-- The fields of the constants around a class, of which every key is a path. -/
def enclosingRules : Json.FieldRules where
  Known _ := True
  default? _ := none
  Respelled _ := ConstantKind.Respelled

/-- One change in how the constants around a class are written. -/
inductive EnclosingRespelled : Json → Json → Prop
  | fields {fields fields' : List (String × Json)} (h : enclosingRules.Step fields fields') :
      EnclosingRespelled (.object fields) (.object fields')

/-- The fields of a descriptor. -/
def rules : Json.FieldRules where
  Known key := key ∈ keys
  default?
    | "superclass" => some .null
    | "enclosing" => some (.object [])
    | "capabilities" | "attributes" | "presence_validated" | "instance_methods" => some (.array [])
    | "secure_password" | "orm_subclass" => some (.bool false)
    | _ => none
  Respelled
    | "enclosing" => EnclosingRespelled
    | "capabilities" => Json.MembersRespelled Capability.Respelled
    | "attributes" => Json.ItemRespelled AttributeDecl.Respelled
    | "presence_validated" => Json.MembersRespelled fun _ _ ↦ False
    | _ => fun _ _ ↦ False

/-- One change in how a descriptor is written. -/
def Respelled : Json → Json → Prop :=
  Json.RecordRespelled keys rules

/-- The constants around a class are read alike after one change. -/
theorem EnclosingRespelled.enclosingOfJson?_eq {j j' : Json} (h : EnclosingRespelled j j') :
    enclosingOfJson? j = enclosingOfJson? j' := by
  obtain @⟨fields, fields', hstep⟩ := h
  ext m
  rw [enclosingOfJson?_object, enclosingOfJson?_object]
  refine forall_congr' fun path ↦ ?_
  have halike : enclosingRules.Alike path (Json.lastValue? path fields)
      (Json.lastValue? path fields') := hstep.alike trivial
  -- Every key is a path, none has a default, so all that can differ is how a kind is spelled.
  rw [halike.congr (F := Option.map ConstantKind.ofJson?) (fun v ↦ nofun)
    fun hvw ↦ congrArg some (ConstantKind.Respelled.ofJson?_eq hvw)]

/-- A set of capabilities is read alike after one change. -/
theorem capabilitiesOfJson?_eq {j j' : Json} (h : Json.MembersRespelled Capability.Respelled j j') :
    capabilitiesOfJson? j = capabilitiesOfJson? j' :=
  h.map_asListOf?_eq (CapabilitySet.insertAll_congr _) Capability.Respelled.ofJson?_eq

/-- A set of names is read alike after one change. -/
theorem namesOfJson?_eq {j j' : Json} (h : Json.MembersRespelled (fun _ _ ↦ False) j j') :
    namesOfJson? j = namesOfJson? j' :=
  h.map_asListOf?_eq NameSet.ofList_congr False.elim

/-- One change in the fields leaves what they tell. -/
theorem toldBy_congr {d : ClassDescriptor} {fields fields' : List (String × Json)}
    (h : rules.Step fields fields') : d.ToldBy fields ↔ d.ToldBy fields' := by
  -- Field by field: the default is read as what stands for nothing, and only the two sets, the
  -- attributes and the constants around the class have values that can be spelled otherwise.
  have hname : Json.required? fields "qualified_name" Json.asString? =
      Json.required? fields' "qualified_name" Json.asString? :=
    h.required?_eq (by simp [rules, keys]) rfl False.elim
  have hsuper : Json.optional? fields "superclass" none Json.asNullableString? =
      Json.optional? fields' "superclass" none Json.asNullableString? :=
    h.optional?_eq (by simp [rules, keys]) rfl rfl False.elim
  have henclosing : Json.optional? fields "enclosing" .empty enclosingOfJson? =
      Json.optional? fields' "enclosing" .empty enclosingOfJson? :=
    h.optional?_eq (by simp [rules, keys]) rfl rfl EnclosingRespelled.enclosingOfJson?_eq
  have hcapabilities : Json.optional? fields "capabilities" .empty capabilitiesOfJson? =
      Json.optional? fields' "capabilities" .empty capabilitiesOfJson? :=
    h.optional?_eq (by simp [rules, keys]) rfl rfl capabilitiesOfJson?_eq
  have hattributes :
      Json.optional? fields "attributes" [] (Json.asListOf? AttributeDecl.ofJson?) =
        Json.optional? fields' "attributes" [] (Json.asListOf? AttributeDecl.ofJson?) :=
    h.optional?_eq (by simp [rules, keys]) rfl rfl
      fun hitems ↦ Json.ItemRespelled.asListOf?_eq hitems AttributeDecl.ofJson?_eq_of_step
  have hvalidated : Json.optional? fields "presence_validated" .empty namesOfJson? =
      Json.optional? fields' "presence_validated" .empty namesOfJson? :=
    h.optional?_eq (by simp [rules, keys]) rfl rfl namesOfJson?_eq
  have hpassword : Json.optional? fields "secure_password" false Json.asBool? =
      Json.optional? fields' "secure_password" false Json.asBool? :=
    h.optional?_eq (by simp [rules, keys]) rfl rfl False.elim
  have hmethods : Json.optional? fields "instance_methods" [] (Json.asListOf? Json.asString?) =
      Json.optional? fields' "instance_methods" [] (Json.asListOf? Json.asString?) :=
    h.optional?_eq (by simp [rules, keys]) rfl rfl False.elim
  have horm : Json.optional? fields "orm_subclass" false Json.asBool? =
      Json.optional? fields' "orm_subclass" false Json.asBool? :=
    h.optional?_eq (by simp [rules, keys]) rfl rfl False.elim
  rw [toldBy_iff, toldBy_iff, hname, hsuper, henclosing, hcapabilities, hattributes, hvalidated,
    hpassword, hmethods, horm]

/-- A descriptor is read alike after one change. -/
theorem ofJson?_eq_of_step {j j' : Json} (h : Respelled j j') : ofJson? j = ofJson? j' := by
  rcases h.asRecord? with heq | ⟨fields, fields', hstep, hfields, hfields'⟩
  · rw [ofJson?, ofJson?, heq]
  · -- The lists read of a set may differ, so what is read is compared through what is told.
    ext d
    simp only [ofJson?_eq_some_iff, hfields, hfields', Option.some.injEq, exists_eq_left',
      toldBy_congr hstep]

/-- However often a descriptor is written otherwise, it is read as the same descriptor. -/
theorem ofJson?_eq_of_respelled {j j' : Json} (h : Relation.EqvGen Respelled j j') :
    ofJson? j' = ofJson? j := by
  induction h with
  | rel _ _ hstep => exact (ofJson?_eq_of_step hstep).symm
  | refl _ => rfl
  | symm _ _ _ ih => exact ih.symm
  | trans _ _ _ _ _ ih ih' => exact ih'.trans ih

/-- A field that nobody reads is taken out, two defaults are put in, a capability is written as an
object, and the values are put into an array. -/
theorem ofJson?_eq_of_respelled_sample :
    let j : Json := .object [("qualified_name", .string "Foo"),
      ("capabilities", .array [.string "model"]), ("comment", .bool true)]
    let j' : Json := .array [.string "Foo", .null, .object [],
      .array [.object [("model", .null)]]]
    Relation.EqvGen Respelled j j' ∧ ofJson? j' = ofJson? j ∧
      ofJson? j =
        some { ClassDescriptor.named "Foo" with capabilities := .insert .empty .model } := by
  intro j j'
  let name : String × Json := ("qualified_name", .string "Foo")
  let superclass : String × Json := ("superclass", .null)
  let enclosing : String × Json := ("enclosing", .object [])
  let capabilities : String × Json := ("capabilities", .array [.string "model"])
  let capabilities' : String × Json := ("capabilities", .array [.object [("model", .null)]])
  have hunknown : Respelled j (.object [name, capabilities]) :=
    .fields (.unknown [name, capabilities] [] (by simp [rules, keys]))
  have hsuperclass : Respelled (.object [name, superclass, capabilities])
      (.object [name, capabilities]) :=
    .fields (.default [name] [capabilities] rfl (by simp [name, capabilities]))
  have henclosing : Respelled (.object [name, superclass, enclosing, capabilities])
      (.object [name, superclass, capabilities]) :=
    .fields (.default [name, superclass] [capabilities] rfl
      (by simp [name, superclass, capabilities]))
  have hobject : Respelled (.object [name, superclass, enclosing, capabilities])
      (.object [name, superclass, enclosing, capabilities']) :=
    .fields (.value [name, superclass, enclosing] [] (.item (.item [] [] (.object "model"))))
  have harray : Respelled (.object [name, superclass, enclosing, capabilities']) j' :=
    .positional [.string "Foo", .null, .object [], .array [.object [("model", .null)]]]
      (by simp [keys])
  have h : Relation.EqvGen Respelled j j' :=
    .trans _ _ _ (.rel _ _ hunknown) <| .trans _ _ _ (.symm _ _ (.rel _ _ hsuperclass)) <|
      .trans _ _ _ (.symm _ _ (.rel _ _ henclosing)) <| .trans _ _ _ (.rel _ _ hobject) <|
      .rel _ _ harray
  exact ⟨h, ofJson?_eq_of_respelled h, rfl⟩

/-- A field that nobody knows is passed over in a descriptor, but not in the object that spells a
capability. -/
theorem ofJson?_unknown_key_of_capability :
    ofJson? (.object [("qualified_name", .string "Foo"),
        ("capabilities", .array [.object [("model", .null)]])]) =
      some { ClassDescriptor.named "Foo" with capabilities := .insert .empty .model } ∧
    ofJson? (.object [("qualified_name", .string "Foo"),
        ("capabilities", .array [.object [("model", .null), ("extra", .bool true)]])]) = none :=
  ⟨rfl, rfl⟩

end ClassDescriptor

end ModelSignatures
