import ModelSignatures.Proofs.Generator.Batch
import ModelSignatures.Proofs.Generator.Report
import ModelSignatures.Proofs.Json.Fields
import ModelSignatures.Proofs.Json.Text

/-!
# Generating many classes

What the program prints for many classes tells the signatures and their files, whether it is printed
as text or as JSON (`Report.filesOfText?_text`, `Report.filesOfJson?_pretty`). Every other class has
a line of its own, and the exit code and the error tell whether a class failed. A class that is no
descriptor keeps all the others from being generated, a class that fails none
(`Report.respond_generate`).
-/

namespace ModelSignatures

/-! ### What is printed -/

/-- The file and the text that a declaration below the comment with its file stands for. -/
def Declaration.asFile? (d : Declaration) : Option (String × String) :=
  match d.comments with
  | [comment] =>
    some (String.ofList (comment.toList.drop 1), Signature.text ⟨[{ d with comments := [] }], []⟩)
  | _ => none

namespace Report

/-- The files of a report and what belongs in them. -/
def files (r : Report) : List (String × String) :=
  r.generated.map fun g ↦ (g.path, g.text)

/-- The files, with what belongs in them, that are told by a text. -/
def filesOfText? (printed : String) : Option (List (String × String)) :=
  (Signature.parse printed).toOption.bind fun s ↦ s.declarations.mapM Declaration.asFile?

/-- The file, with what belongs in it, that is told by a JSON value. -/
def fileOfJson? (j : Json) : Option (String × String) := do
  let fields ← j.asObject?
  let path ← Json.required? fields "path" Json.asString?
  let text ← Json.required? fields "rbs" Json.asString?
  return (path, text)

/-- The files, with what belongs in them, that are told by a JSON text. -/
def filesOfJson? (printed : String) : Option (List (String × String)) :=
  (Json.parse? printed).bind (Json.asListOf? fileOfJson?)

/-- A declaration below the path of its file is printed as the file. -/
theorem Generated.Shows.asFile?_belowFile {g : Generated} {d : Declaration} (h : g.Shows d) :
    (d.belowFile g.path).asFile? = some (g.path, g.text) := by
  have hcomments := h.comments
  have htext := h.text_eq
  obtain ⟨kind, name, comments, annots, headerComment, members, trailingComments, endComment⟩ := d
  obtain rfl : comments = [] := hcomments
  have hpath : (" " ++ g.path).toList.drop 1 = g.path.toList := by
    rw [String.toList_append]
    rfl
  rw [Declaration.belowFile, Declaration.asFile?]
  dsimp only
  rw [hpath, String.ofList_toList, htext]

/-- Files that show declarations are printed as these, in their order. -/
theorem map_asFile?_zipWith {gs : List Generated} {ds : List Declaration}
    (h : List.Forall₂ Generated.Shows gs ds) :
    (List.zipWith (fun g d ↦ d.belowFile g.path) gs ds).map Declaration.asFile? =
      (gs.map fun g ↦ (g.path, g.text)).map some := by
  induction h with
  | nil => rfl
  | cons hfirst _ ih =>
    rw [List.zipWith_cons_cons, List.map_cons, hfirst.asFile?_belowFile, ih]
    rfl

/-- The text for some classes tells their files. -/
theorem filesOfText?_text (ds : List ClassDescriptor) :
    filesOfText? (ofDescriptors ds).text = some (ofDescriptors ds).files := by
  obtain ⟨declarations, hshows⟩ := exists_forall₂_shows ds
  have hprinted : (ofDescriptors ds).text =
      "\n".intercalate ((ofDescriptors ds).generated.map Generated.lines) := rfl
  -- the text is that of one signature, in which each file is a comment above its declaration
  have hparse : Signature.parse (ofDescriptors ds).text =
      .ok ⟨List.zipWith (fun g d ↦ d.belowFile g.path) (ofDescriptors ds).generated declarations,
        []⟩ := by
    rw [hprinted, intercalate_lines hshows]
    exact Signature.parse_eq_ok_iff.2 (wellFormed_zipWith hshows).ofTokens_text
  rw [filesOfText?, hparse]
  exact mapM_eq_some_iff.2 (map_asFile?_zipWith hshows)

theorem within_toJson (r : Report) (depth : ℕ) : Json.Within (depth + 2) r.toJson := by
  refine .array fun item hitem ↦ ?_
  obtain ⟨g, -, rfl⟩ := List.mem_map.1 hitem
  refine .object fun field hfield ↦ ?_
  simp only [List.mem_cons, List.not_mem_nil, or_false] at hfield
  rcases hfield with rfl | rfl | rfl <;> exact .string _ _

/-- The JSON text for some classes tells their files. -/
theorem filesOfJson?_pretty (r : Report) :
    filesOfJson? (r.toJson.pretty 0 ++ "\n") = some r.files := by
  rw [filesOfJson?, Json.parse?_pretty (within_toJson r 125), Option.bind_some, toJson,
    Json.asListOf?, Json.asArray?, Option.bind_some, mapM_eq_some_iff, files, List.map_map,
    List.map_map]
  exact List.map_congr_left fun g _ ↦ rfl

end Report

/-! ### What is read -/

/-- The values of which each has to be a descriptor: the items of a list, or a single value. -/
def Json.candidates : Json → List Json
  | array items => items
  | j => [j]

namespace ClassDescriptor

/-- Either all values are descriptors, or none is read. -/
theorem exists_allOfJson_eq (j : Json) :
    ∃ e, allOfJson j = (j.candidates.mapM ofJson?).elim (.error e) .ok := by
  have hsingle : ([j].mapM ofJson?) = (ofJson? j).map fun d ↦ [d] := by
    rw [List.mapM_cons, List.mapM_nil]
    cases ofJson? j <;> rfl
  cases j with
  | array items =>
    refine ⟨.invalidList, ?_⟩
    rw [allOfJson, Json.candidates]
    cases items.mapM ofJson? <;> rfl
  | _ =>
    refine ⟨.invalidDescriptor, ?_⟩
    rw [allOfJson, Json.candidates, hsingle]
    · cases ofJson? _ <;> rfl
    · simp
    · simp

variable {text : String}

/-- A text of descriptors that are all read is read as them. -/
theorem allOfText_eq_ok {j : Json} {ds : List ClassDescriptor} (hj : Json.parse? text = some j)
    (hds : j.candidates.map ofJson? = ds.map some) : allOfText text = .ok ds := by
  obtain ⟨e, he⟩ := exists_allOfJson_eq j
  rw [allOfText, hj]
  dsimp only
  rw [he, mapM_eq_some_iff.2 hds]
  rfl

/-- A text with a descriptor that is not read has an error. -/
theorem exists_allOfText_eq_error
    (h : ∀ j, Json.parse? text = some j → ∃ item ∈ j.candidates, ofJson? item = none) :
    ∃ e, allOfText text = .error e := by
  rw [allOfText]
  cases hj : Json.parse? text with
  | none => exact ⟨_, rfl⟩
  | some j =>
    obtain ⟨item, hitem, hnone⟩ := h j hj
    have hmapM : j.candidates.mapM ofJson? = none := by
      rw [← Option.not_isSome_iff_eq_none, isSome_mapM_iff]
      intro hall
      have hsome := hall _ (List.mem_map_of_mem hitem)
      rw [hnone] at hsome
      cases hsome
    obtain ⟨e, he⟩ := exists_allOfJson_eq j
    dsimp only
    rw [he, hmapM]
    exact ⟨e, rfl⟩

end ClassDescriptor

namespace Report

/-- Whether an answer has a line for each class without a signature, in their order, and tells how
many of all classes failed, if any did. -/
structure Settles (answer : Response) (r : Report) : Prop where
  status : answer.status =
    (r.skipped.map fun name ↦ "skipped " ++ name ++ ": nothing to declare") ++
      r.failures.map fun failure ↦ "failed " ++ failure.1 ++ ": " ++ failure.2.message
  failed : 0 < r.failures.length ↔ answer.exitCode = 1 ∧
    answer.errors = [toString r.failures.length ++ " of " ++ toString r.length ++ " classes failed"]
  succeeded : r.failures.length = 0 ↔ answer.exitCode = 0 ∧ answer.errors = []

/-- A response settles the report that it answers. -/
theorem settles_respond (r : Report) (json : Bool) : Settles (r.respond json) r := by
  cases hfailures : r.failures with
  | nil =>
    have hanswer : r.respond json =
        ⟨0, if json then r.toJson.pretty 0 ++ "\n" else r.text, r.statusLines, []⟩ := by
      rw [respond, hfailures]
      rfl
    rw [hanswer]
    refine ⟨rfl, ?_, ?_⟩
    · simp [hfailures]
    · simp [hfailures]
  | cons failure failures =>
    have hanswer : r.respond json =
        ⟨1, if json then r.toJson.pretty 0 ++ "\n" else r.text, r.statusLines,
          [r.failureMessage]⟩ := by
      rw [respond, hfailures]
      rfl
    rw [hanswer]
    refine ⟨rfl, ?_, ?_⟩
    · simp [hfailures, failureMessage]
    · simp [hfailures]

/-- The output is the report as JSON or as text. -/
theorem standardOutput_respond (r : Report) (json : Bool) :
    (r.respond json).standardOutput =
      if json then r.toJson.pretty 0 ++ "\n" else r.text := by
  rw [respond]
  split <;> rfl

/-- Each class has one entry in a report, which says what comes of it on its own and is the same
among any other classes, and the three lists of the report divide the entries among them. What is
printed for the classes tells the same files in both forms, each class without a signature has a
line of its own, and the command fails when one of the classes does. If one of the classes is no
descriptor, the command fails before it prints anything. -/
theorem respond_generate :
    (∀ ds : List ClassDescriptor,
      List.Forall₂ ReportEntry.IsOf (ofDescriptors ds) ds ∧
      (∀ (ds' : List ClassDescriptor) (i j : ℕ), ds[i]? = ds'[j]? →
        (ofDescriptors ds)[i]? = (ofDescriptors ds')[j]?) ∧
      Divided (ofDescriptors ds) ∧ (ofDescriptors ds).length = ds.length) ∧
    ∀ (input : Option String) (text : String),
      let answer (json : Bool) : Response :=
        (Invocation.run (.generate json) input).respond (some text)
      (∀ value ds, Json.parse? text = some value →
        value.candidates.map ClassDescriptor.ofJson? = ds.map some →
          filesOfText? (answer false).standardOutput = some (files (ofDescriptors ds)) ∧
          filesOfJson? (answer true).standardOutput = some (files (ofDescriptors ds)) ∧
          ∀ json, Settles (answer json) (ofDescriptors ds)) ∧
      ((∀ value, Json.parse? text = some value →
          ∃ item ∈ value.candidates, ClassDescriptor.ofJson? item = none) →
        ∀ json, ∃ e, answer json = ⟨1, "", [], [e]⟩) := by
  refine ⟨fun ds ↦ ⟨forall₂_isOf ds, fun ds' i j ↦ getElem?_ofDescriptors_congr,
    divided _, List.length_map _⟩, ?_⟩
  intro input text answer
  refine ⟨fun value ds hvalue hds ↦ ?_, fun hnone json ↦ ?_⟩
  · have hanswer : ∀ json, answer json = (ofDescriptors ds).respond json := by
      intro json
      show Command.respond (.generate json) (input.getD "<stdin>") text = _
      rw [Command.respond, ClassDescriptor.allOfText_eq_ok hvalue hds]
    rw [hanswer, hanswer, standardOutput_respond, standardOutput_respond]
    refine ⟨filesOfText?_text ds, filesOfJson?_pretty _, fun json ↦ ?_⟩
    rw [hanswer]
    exact settles_respond _ json
  · obtain ⟨e, he⟩ := ClassDescriptor.exists_allOfText_eq_error hnone
    refine ⟨e.message, ?_⟩
    show Command.respond (.generate json) (input.getD "<stdin>") text = _
    rw [Command.respond, he]
    rfl

theorem respond_generate_sample :
    let answer (text : String) (json : Bool) : Response :=
      (Invocation.run (.generate json) none).respond (some text)
    let text := "[[\"A\",null,\x7b\x7d,[\"model\"]],[\"B\"],[\"c\",null,\x7b\x7d,[\"model\"]]]"
    (∃ value ds, Json.parse? text = some value ∧
      value.candidates.map ClassDescriptor.ofJson? = ds.map some ∧
      filesOfText? (answer text false).standardOutput = some (files (ofDescriptors ds)) ∧
      filesOfJson? (answer text true).standardOutput = some (files (ofDescriptors ds)) ∧
      (files (ofDescriptors ds)).length = 1 ∧
      ∀ json, (answer text json).exitCode = 1 ∧
        (answer text json).errors = ["1 of 3 classes failed"]) ∧
    ∀ json, ∃ e, answer "[[\"A\"],[null]]" json = ⟨1, "", [], [e]⟩ := by
  intro answer text
  have hgood : ((Json.parse? text).any fun value ↦
      (value.candidates.mapM ClassDescriptor.ofJson?).any fun ds ↦
        ds.length = 3 ∧ (files (ofDescriptors ds)).length = 1 ∧
          (failures (ofDescriptors ds)).length = 1) = true := by
    decide +kernel
  have hbad : ((Json.parse? "[[\"A\"],[null]]").all fun value ↦
      value.candidates.any fun item ↦ (ClassDescriptor.ofJson? item).isNone) = true := by
    decide +kernel
  refine ⟨?_, (respond_generate.2 none _).2 fun value hvalue ↦ ?_⟩
  · cases hvalue : Json.parse? text with
    | none =>
      rw [hvalue] at hgood
      cases hgood
    | some value =>
      rw [hvalue, Option.any_some] at hgood
      cases hds : value.candidates.mapM ClassDescriptor.ofJson? with
      | none =>
        rw [hds] at hgood
        cases hgood
      | some ds =>
        rw [hds, Option.any_some] at hgood
        obtain ⟨hlength, hfiles, hfailures⟩ := of_decide_eq_true hgood
        have hall := mapM_eq_some_iff.1 hds
        obtain ⟨htext, hjson, hsettles⟩ := (respond_generate.2 none text).1 value ds hvalue hall
        refine ⟨value, ds, rfl, hall, htext, hjson, hfiles, fun json ↦ ?_⟩
        have hfailed := (hsettles json).failed.1 (by omega)
        rw [(respond_generate.1 ds).2.2.2, hlength, hfailures] at hfailed
        exact hfailed
  · rw [hvalue, Option.all_some] at hbad
    obtain ⟨item, hitem, hnone⟩ := List.any_eq_true.1 hbad
    exact ⟨item, hitem, Option.isNone_iff_eq_none.1 hnone⟩

end Report

end ModelSignatures
