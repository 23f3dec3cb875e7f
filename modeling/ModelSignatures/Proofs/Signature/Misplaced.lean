import ModelSignatures.Proofs.Signature.BodyPrediction

/-!
# The first misplaced comment is refused

The lexemes of a text that is accepted but for its comments are those of headers, of members and of
the words that close declarations (`Lexeme.Lines`). The lines among them are read in their order,
and each ends with the refusal of the first comment inside it. So the first comment inside any of
them is the one that is refused (`Lexeme.Lines.isRefused`), at whatever depth it stands.
-/

namespace ModelSignatures

open Reading (innerComments endOfLine taken_append takeAnnotations_of_head NoSymbol)

/-! ### The lines of lexemes -/

namespace Lexeme

/-- The comments inside the lines of some lexemes. -/
inductive Lines : (body : Bool) → List Lexeme → List Comment → Prop
  | done (body : Bool) : Lines body [] []
  | member {above code more : List Lexeme} {annots : List String} {content : MemberContent}
      {cs : List Comment} (annotated : above.map kind = annots.map .annot)
      (spelled : content.Spells (code.map piece)) (behind : Lines true more cs) :
      Lines true (above ++ (code ++ more)) (innerComments (above ++ code) ++ cs)
  | declaration {body : Bool} {above code inner more : List Lexeme} {closing : Lexeme}
      {annots : List String} {declared : DeclarationKind} {name : TypeName}
      {cs others : List Comment}
      (annotated : above.map kind = annots.map .annot)
      (headed : declared.Spells name (code.map kind)) (members : Lines true inner cs)
      (closed : closing.kind = .word "end") (behind : Lines body more others) :
      Lines body (above ++ (code ++ (inner ++ closing :: more)))
        (innerComments (above ++ code) ++ (cs ++ others))

end Lexeme

/-! ### Refusals in turn -/

/-- Whether the first of some comments is refused or, where there are none, the result is good. -/
def Refuses {α : Type} (cs : List Comment) (good : α → Prop) (result : Except Failure α) : Prop :=
  match cs with
  | [] => ∃ x, result = .ok x ∧ good x
  | c :: _ => result = .error (.misplaced c)

namespace Refuses

variable {α β : Type} {cs ds : List Comment} {good : α → Prop} {result : Except Failure α}

theorem ok {x : α} (h : good x) : Refuses [] good (.ok x) := ⟨x, rfl, h⟩

/-- What is refused first is refused in turn. -/
theorem bind {good' : β → Prop} {f : α → Except Failure β} (h : Refuses cs good result)
    (hf : ∀ x, good x → Refuses ds good' (f x)) : Refuses (cs ++ ds) good' (result >>= f) := by
  cases cs with
  | nil =>
    obtain ⟨x, rfl, hx⟩ := h
    exact hf x hx
  | cons c cs =>
    rw [show result = _ from h]
    rfl

/-- What is answered then is refused as before. -/
theorem answer {good' : β → Prop} {f : α → β} (h : Refuses cs good result)
    (hf : ∀ x, good x → good' (f x)) : Refuses cs good' (result >>= fun x ↦ .ok (f x)) := by
  rw [← List.append_nil cs]
  exact h.bind fun x hx ↦ ok (hf x hx)

end Refuses

theorem Reading.refuses_endOfLine (pre rest : List Lexeme) :
    Refuses (innerComments pre) (fun _ ↦ True) (endOfLine (pre ++ rest) rest) := by
  rw [endOfLine, taken_append]
  cases innerComments pre with
  | nil => exact .ok trivial
  | cons c cs => rfl

section Lines

variable {declaration : List Lexeme → Reader Declaration} {above code rest : List Lexeme}
  {annots : List String}

theorem Reading.noSymbol_of_annotated {v : View} {text : String}
    (annotated : above.map Lexeme.kind = annots.map .annot)
    (hcode : (code.map Lexeme.view).head? = some v) (hv : v.kind = .word text) :
    NoSymbol (above ++ (code ++ rest)) := by
  intro l hl
  have hview : (above.map Lexeme.view ++ (code.map Lexeme.view ++ rest.map Lexeme.view)).head? =
      some l.view := by
    rw [← List.map_append, ← List.map_append, List.head?_map, hl]
    rfl
  exact View.not_symbol_of_annotated (by rwa [Lexeme.map_kind_map_view]) hcode hv l.view hview

/-- A line is read, and the first comment inside it is refused. -/
theorem MemberContent.refuses_read {content : MemberContent} {bound : ℕ}
    (spelled : content.Spells (code.map Lexeme.piece)) (hbound : code.length ≤ bound)
    (hrest : NoSymbol rest) :
    Refuses (innerComments (above ++ code)) (fun p ↦ p.2 = rest)
      (MemberContent.read declaration bound (above ++ (code ++ rest)) (code ++ rest)) := by
  rw [MemberContent.read_eq_of_spells spelled hbound hrest, ← List.append_assoc]
  exact (Reading.refuses_endOfLine (above ++ code) rest).answer fun _ _ ↦ rfl

/-- A declaration is read, and the first comment inside its header is refused or, where there is
none, that which is refused first in its body. -/
theorem Declaration.refuses_read {kind : DeclarationKind} {name : TypeName} {bound : ℕ}
    {inner : List Lexeme} {closing : Lexeme} {cs : List Comment}
    (headed : kind.Spells name (code.map Lexeme.kind)) (hbound : code.length ≤ bound)
    (closed : closing.kind = .word "end") (hinner : NoSymbol (inner ++ closing :: rest))
    (hmembers : Refuses cs (fun p ↦ p.2 = closing :: rest)
      (Member.readAll (Declaration.read bound) bound true (inner ++ closing :: rest))) :
    Refuses (innerComments (above ++ code) ++ cs) (fun p ↦ p.2 = rest)
      (Declaration.read (bound + 1) (above ++ (code ++ (inner ++ closing :: rest)))
        (code ++ (inner ++ closing :: rest))) := by
  rw [Declaration.read_eq_of_spells headed hbound hinner, ← List.append_assoc]
  refine (Reading.refuses_endOfLine (above ++ code) _).bind fun headerComment _ ↦ ?_
  rw [← List.append_nil cs]
  refine hmembers.bind fun p hp ↦ ?_
  rw [hp, Declaration.readEnd_cons closed]
  exact .ok rfl

end Lines

namespace Lexeme

/-- Whether the reader of some lexemes refuses the first of the comments. -/
def IsRefused : (body : Bool) → List Lexeme → List Comment → Prop
  | true, ls, cs => ∀ (bound : ℕ) {n : ℕ} (first : Bool) {rest : List Lexeme},
    (∃ l more, rest = l :: more ∧ l.kind = .word "end") → ls.length ≤ bound → ls.length < n →
      Refuses cs (fun p ↦ p.2 = rest)
        (Member.readAll (Declaration.read bound) n first (ls ++ rest))
  | false, ls, cs => ∀ (bound : ℕ), ls.length ≤ bound →
    Refuses cs (fun _ ↦ True) (Declaration.readRest bound ls)

/-- No line begins with a symbol. -/
theorem Lines.noSymbol {ls : List Lexeme} {cs : List Comment} (h : Lines true ls cs)
    {closing : Lexeme} (closed : closing.kind = .word "end") (rest : List Lexeme) :
    NoSymbol (ls ++ closing :: rest) := by
  cases h with
  | done => exact Reading.noSymbol_cons closed rest
  | member annotated spelled =>
    obtain ⟨v, text, hv, htext, -⟩ := spelled.head_code
    rw [List.append_assoc, List.append_assoc]
    exact Reading.noSymbol_of_annotated annotated hv htext
  | declaration annotated headed =>
    obtain ⟨v, text, hv, htext, -⟩ := headed.head_code
    rw [List.append_assoc, List.append_assoc]
    exact Reading.noSymbol_of_annotated annotated hv htext

end Lexeme

/-- A body goes on behind a member. -/
theorem Member.readAll_annotated {declaration : List Lexeme → Reader Declaration}
    {above code rest : List Lexeme} {annots : List String} {v : View} {text : String}
    (annotated : above.map Lexeme.kind = annots.map .annot)
    (hcode : (code.map Lexeme.view).head? = some v) (hv : v.kind = .word text)
    (htext : text ≠ "end") (bound : ℕ) (first : Bool) :
    Member.readAll declaration (bound + 1) first (above ++ (code ++ rest)) =
      Member.read declaration bound first annots above (code ++ rest) >>= fun p ↦
        Member.readAll declaration bound false p.2 >>= fun q ↦ .ok (p.1 :: q.1, q.2) := by
  rw [Member.readAll_eq, takeAnnotations_of_head annotated hcode hv, Except.ok_bind, taken_append]
  rcases code with - | ⟨l, code⟩
  · cases hcode
  · cases hcode
    rw [List.cons_append, Member.readBehind]
    · exact List.cons_ne_nil _ _
    · rintro position leading trailing glued spaced tail ⟨⟩
      cases hv
      exact htext rfl

namespace Lexeme

section IsRefused

variable {above code more : List Lexeme} {annots : List String} {cs others : List Comment}

theorem isRefused_member {content : MemberContent} (annotated : above.map kind = annots.map .annot)
    (spelled : content.Spells (code.map piece)) (behind : Lines true more cs)
    (hmore : IsRefused true more cs) :
    IsRefused true (above ++ (code ++ more)) (innerComments (above ++ code) ++ cs) := by
  rintro bound n first _ ⟨closing, rest, rfl, closed⟩ hbound hn
  obtain ⟨v, text, hv, htext, hkeyword⟩ := spelled.head_code
  have hpos := spelled.length_pos
  rw [List.length_map] at hpos
  simp only [List.length_append] at hbound hn
  obtain ⟨n, rfl⟩ : ∃ m, n = m + 1 := ⟨n - 1, by omega⟩
  have hread : Refuses (innerComments (above ++ code)) (fun p ↦ p.2 = more ++ closing :: rest)
      (Member.read (Declaration.read bound) n first annots above
        (code ++ (more ++ closing :: rest))) :=
    (MemberContent.refuses_read spelled (by omega) (behind.noSymbol closed rest)).answer
      fun _ hp ↦ hp
  rw [List.append_assoc, List.append_assoc, Member.readAll_annotated annotated hv htext
    (MemberContent.no_declaration_of_mem_keywords hkeyword).2]
  refine hread.bind fun p hp ↦ ?_
  rw [hp]
  exact (hmore bound false ⟨closing, rest, rfl, closed⟩ (by omega) (by omega)).answer
    fun _ hq ↦ hq

variable {inner : List Lexeme} {closing : Lexeme} {declared : DeclarationKind} {name : TypeName}

/-- A declaration is refused as its header and its body are. -/
theorem refuses_declaration {bound : ℕ} (headed : declared.Spells name (code.map kind))
    (members : Lines true inner cs) (closed : closing.kind = .word "end")
    (hinner : IsRefused true inner cs) (hcode : code.length ≤ bound)
    (hlength : inner.length < bound) (rest : List Lexeme) :
    Refuses (innerComments (above ++ code) ++ cs) (fun p ↦ p.2 = rest)
      (Declaration.read (bound + 1) (above ++ (code ++ (inner ++ closing :: rest)))
        (code ++ (inner ++ closing :: rest))) :=
  Declaration.refuses_read headed hcode closed (members.noSymbol closed rest)
    (hinner _ true ⟨closing, rest, rfl, closed⟩ (Nat.le_of_lt hlength) hlength)

theorem isRefused_nested (annotated : above.map kind = annots.map .annot)
    (headed : declared.Spells name (code.map kind)) (members : Lines true inner cs)
    (closed : closing.kind = .word "end") (hinner : IsRefused true inner cs)
    (hmore : IsRefused true more others) :
    IsRefused true (above ++ (code ++ (inner ++ closing :: more)))
      (innerComments (above ++ code) ++ cs ++ others) := by
  rintro bound n first rest hend hbound hn
  obtain ⟨v, text, hv, htext, hkeyword⟩ := headed.head_code
  have hpos := headed.length_pos
  rw [List.length_map] at hpos
  simp only [List.length_append, List.length_cons] at hbound hn
  obtain ⟨n, rfl⟩ : ∃ m, n = m + 1 := ⟨n - 1, by omega⟩
  obtain ⟨bound, rfl⟩ : ∃ m, bound = m + 1 := ⟨bound - 1, by omega⟩
  have hmember : Refuses (innerComments (above ++ code) ++ cs) (fun p ↦ p.2 = more ++ rest)
      (Member.read (Declaration.read (bound + 1)) n first annots above
        (code ++ (inner ++ closing :: (more ++ rest)))) := by
    rw [Member.read, MemberContent.read, if_pos (headed.isNext _)]
    exact ((refuses_declaration headed members closed hinner (by omega) (by omega)
      (more ++ rest)).answer fun _ hp ↦ hp).answer fun _ hp ↦ hp
  have hend' : text ≠ "end" := by
    rcases hkeyword with rfl | rfl <;> decide
  have hsplit : above ++ (code ++ (inner ++ closing :: more)) ++ rest =
      above ++ (code ++ (inner ++ closing :: (more ++ rest))) := by simp
  rw [hsplit, Member.readAll_annotated annotated hv htext hend']
  refine hmember.bind fun p hp ↦ ?_
  rw [hp]
  exact (hmore (bound + 1) false hend (by omega) (by omega)).answer fun _ hq ↦ hq

theorem isRefused_declaration (annotated : above.map kind = annots.map .annot)
    (headed : declared.Spells name (code.map kind)) (members : Lines true inner cs)
    (closed : closing.kind = .word "end") (hinner : IsRefused true inner cs)
    (hmore : IsRefused false more others) :
    IsRefused false (above ++ (code ++ (inner ++ closing :: more)))
      (innerComments (above ++ code) ++ cs ++ others) := by
  intro bound hbound
  obtain ⟨v, text, hv, htext, -⟩ := headed.head_code
  have hpos := headed.length_pos
  rw [List.length_map] at hpos
  simp only [List.length_append, List.length_cons] at hbound
  obtain ⟨bound, rfl⟩ : ∃ m, bound = m + 1 := ⟨bound - 1, by omega⟩
  have hread : Refuses (innerComments (above ++ code) ++ cs) (fun p ↦ p.2 = more)
      (Declaration.read (bound + 1) (above ++ (code ++ (inner ++ closing :: more)))
        (code ++ (inner ++ closing :: more))) :=
    refuses_declaration headed members closed hinner (by omega) (by omega) more
  rw [Declaration.readRest_eq, takeAnnotations_of_head annotated hv htext, Except.ok_bind,
    taken_append, Declaration.readBehind, if_neg (by simp)]
  refine Refuses.bind (show Refuses _ (fun p ↦ p.2 = more) _ from hread.answer fun _ hp ↦ hp)
    fun p hp ↦ ?_
  rw [hp]
  exact (hmore bound (by omega)).answer fun _ _ ↦ trivial

end IsRefused

/-- The lines are read in their order, and the first comment inside one is refused. -/
theorem Lines.isRefused {body : Bool} {ls : List Lexeme} {cs : List Comment}
    (h : Lines body ls cs) : IsRefused body ls cs := by
  induction h with
  | done body =>
    cases body with
    | true =>
      rintro bound n first _ ⟨l, more, rfl, hl⟩ - hn
      obtain ⟨n, rfl⟩ : ∃ m, n = m + 1 := ⟨n - 1, by simp at hn; omega⟩
      cases l
      cases hl
      exact .ok rfl
    | false =>
      intro bound _
      cases bound <;> exact .ok trivial
  | member annotated spelled behind ih => exact isRefused_member annotated spelled behind ih
  | @declaration body _ _ _ _ _ _ _ _ _ _ annotated headed members closed _ ihinner ih =>
    rw [← List.append_assoc (innerComments _)]
    cases body with
    | true => exact isRefused_nested annotated headed members closed ihinner ih
    | false => exact isRefused_declaration annotated headed members closed ihinner ih

/-- Without misplaced comments a document is accepted. -/
theorem Lines.ofDocument_ok {document : Document} (h : Lines false document.lexemes []) :
    ∃ s, Signature.ofDocument document = .ok s := by
  obtain ⟨p, hp, -⟩ := h.isRefused document.lexemes.length (Nat.le_refl _)
  obtain ⟨ds, hds, -⟩ := Except.bind_eq_ok_iff.1 hp
  rw [Signature.ofDocument, hds]
  exact ⟨_, rfl⟩

/-- The first misplaced comment of a document is reported. -/
theorem Lines.ofDocument_error {document : Document} {cs : List Comment}
    (h : Lines false document.lexemes cs) {c : Comment} (hc : cs.head? = some c) :
    Signature.ofDocument document = .error ⟨c.position, .misplacedComment⟩ := by
  obtain ⟨cs, rfl⟩ := List.head?_eq_some_iff.1 hc
  have hrefused : Declaration.readRest document.lexemes.length document.lexemes =
      .error (.misplaced c) := h.isRefused _ (Nat.le_refl _)
  rw [Declaration.readRest, Except.bind_eq_error_iff] at hrefused
  obtain herror | ⟨ds, -, hds⟩ := hrefused
  · rw [Signature.ofDocument, herror]
    rfl
  · cases hds

end Lexeme

end ModelSignatures
