import ModelSignatures.Proofs.TypeExpr.Termination
import ModelSignatures.Proofs.Signature.Grammar

/-!
# The readers of signatures come to an end

A member takes at least one lexeme before the next one is looked for, and a nested declaration its
keyword before its members are. So the members of a body, the declarations nested in each other and
those of a whole text come to an end within the number of lexemes (`Member.readAll_ends`,
`Declaration.read_ends`, `Declaration.readAll_ends`), and no bound that is as large as that is felt
by any of the readers.
-/

namespace ModelSignatures

open Reading (unexpected takeAnnotations leadingComments endOfLine separated_alike
  exists_takeAnnotations length_of_afterSymbol? length_of_symbol)

section Bounds

variable {size bound bound' : ℕ} (hbound : size ≤ bound) (hbound' : size ≤ bound')
include hbound hbound'

/-! ### Methods -/

/-- A parameter is read alike under all bounds that its lexemes do not exceed. -/
theorem Param.read_alike : AlikeUpTo size (Param.read bound) (Param.read bound') := by
  intro ls hls
  rw [Param.read, Param.read]
  generalize hkind : ParamKind.read ls = kind
  obtain ⟨kind, behind⟩ := kind
  obtain ⟨pre, rfl, -⟩ := ParamKind.eq_append_of_read hkind
  rw [List.length_append] at hls
  dsimp only
  rw [TypeExpr.read_alike hbound hbound' behind (by omega)]

/-- The parameters of a method are read alike under such bounds. -/
theorem Overload.readParams_alike :
    AlikeUpTo size (Overload.readParams bound) (Overload.readParams bound') := by
  intro ls hls
  have hparam := Param.read_alike hbound hbound'
  unfold Overload.readParams
  split
  · rfl
  · rw [← hparam ls hls]
    refine Except.bind_congr_of_ok ?_
    rintro ⟨first, rest⟩ hfirst
    have hrest := (Param.read_reads bound).length_le hfirst
    have hleaves := (Param.read_reads bound).leavesNoMore size
    dsimp only
    rw [separated_alike hparam hleaves hbound hbound' rest (by omega)]

/-- An overload is read alike under such bounds. -/
theorem Overload.read_alike : AlikeUpTo size (Overload.read bound) (Overload.read bound') := by
  intro ls hls
  rw [Overload.read, Overload.read]
  refine Except.bind_congr_of_ok fun behind hopening ↦ ?_
  have hbehind := length_of_symbol hopening
  rw [← readParams_alike hbound hbound' behind (by omega)]
  refine Except.bind_congr_of_ok ?_
  rintro ⟨params, rest⟩ hparams
  have hrest := (readParams_reads bound).length_le hparams
  refine Except.bind_congr_of_ok fun behind' hclosing ↦
    Except.bind_congr_of_ok fun behind'' harrow ↦ ?_
  have hbehind' := length_of_symbol hclosing
  have hbehind'' := length_of_symbol harrow
  have hresult := TypeExpr.readOptional_alike (TypeExpr.readPrimary_alike hbound hbound')
  rw [hresult behind'' (by omega)]

/-- A method is read alike under such bounds. -/
theorem Method.read_alike : AlikeUpTo size (Method.read bound) (Method.read bound') := by
  intro ls hls
  have hoverload := Overload.read_alike hbound hbound'
  rw [Method.read, Method.read]
  generalize hsingleton : readSingleton ls = marked
  obtain ⟨singleton, behind⟩ := marked
  obtain ⟨pre, rfl, -⟩ := eq_append_of_readSingleton hsingleton
  rw [List.length_append] at hls
  refine Except.bind_congr_of_ok ?_
  rintro ⟨name, behind'⟩ hname
  refine Except.bind_congr_of_ok fun behind'' hcolon ↦ ?_
  have hbehind' := readName_reads.length_le hname
  have hbehind'' := length_of_symbol hcolon
  dsimp only
  rw [← hoverload behind'' (by omega)]
  refine Except.bind_congr_of_ok ?_
  rintro ⟨first, rest⟩ hfirst
  have hrest := (Overload.read_reads bound).length_le hfirst
  have hleaves := (Overload.read_reads bound).leavesNoMore size
  dsimp only
  rw [separated_alike hoverload hleaves hbound hbound' rest (by omega)]

/-! ### Members and headers -/

/-- An attribute is read alike under all bounds that its lexemes do not exceed. -/
theorem MemberContent.readAttr_alike (kind : AttributeKind) :
    AlikeUpTo size (MemberContent.readAttr kind bound) (MemberContent.readAttr kind bound') := by
  intro ls hls
  rw [readAttr, readAttr]
  refine Except.bind_congr_of_ok ?_
  rintro ⟨name, behind⟩ hname
  refine Except.bind_congr_of_ok fun behind' hcolon ↦ ?_
  have hbehind := Method.readName_reads.length_le hname
  have hbehind' := length_of_symbol hcolon
  dsimp only
  rw [TypeExpr.read_alike hbound hbound' behind' (by omega)]

/-- A member that is not a declaration is read behind its keyword. -/
theorem MemberContent.readLine_alike :
    AlikeUpTo (size + 1) (MemberContent.readLine bound) (MemberContent.readLine bound') := by
  intro ls hls
  have hclass := ClassType.read_alike hbound hbound'
  have hattr := MemberContent.readAttr_alike hbound hbound'
  have hmethod := Method.read_alike hbound hbound'
  unfold readLine
  split
  · rw [hclass _ (Nat.le_of_succ_le_succ hls)]
  · rw [hclass _ (Nat.le_of_succ_le_succ hls)]
  · exact hattr .reader _ (Nat.le_of_succ_le_succ hls)
  · exact hattr .writer _ (Nat.le_of_succ_le_succ hls)
  · exact hattr .accessor _ (Nat.le_of_succ_le_succ hls)
  · rw [hmethod _ (Nat.le_of_succ_le_succ hls)]
  · rfl
  · rfl

/-- A superclass is read alike under such bounds. -/
theorem ClassType.readSuperclass_alike :
    AlikeUpTo size (ClassType.readSuperclass bound) (ClassType.readSuperclass bound') := by
  intro ls hls
  rw [readSuperclass, readSuperclass]
  cases hsymbol : Reading.afterSymbol? .less ls with
  | none => rfl
  | some behind =>
    have hbehind := length_of_afterSymbol? hsymbol
    dsimp only
    rw [ClassType.read_alike hbound hbound' behind (by omega)]

/-- A header is read behind its keyword. -/
theorem DeclarationKind.read_alike :
    AlikeUpTo (size + 1) (DeclarationKind.read bound) (DeclarationKind.read bound') := by
  intro ls hls
  have hname := (TypeName.read_alike hbound hbound').mono (Nat.le_succ size)
  unfold DeclarationKind.read
  split
  next behind =>
    rw [← hname behind (Nat.le_of_succ_le_succ hls)]
    refine Except.bind_congr_of_ok ?_
    rintro ⟨name, rest⟩ hread
    have hrest := (TypeName.read_reads bound).length_le hread
    rw [List.length_cons] at hls
    dsimp only
    rw [ClassType.readSuperclass_alike hbound hbound' rest (by omega)]
  next behind => rw [hname behind (Nat.le_of_succ_le_succ hls)]
  · rfl

end Bounds

/-! ### Bodies -/

section Body

variable {declaration declaration' : List Lexeme → Reader Declaration}

/-- What the reader of a body does with `members` in place of itself behind a member, and with a
bound for the lines. -/
def Member.readAllWith (declaration : List Lexeme → Reader Declaration) (bound : ℕ)
    (members : Bool → Reader (List Member)) (first : Bool) : Reader (List Member) := fun above ↦
  let (annots, ls) := takeAnnotations above
  match ls with
  | [] => unexpected .endKeyword ls
  | { kind := .word "end", .. } :: _ =>
    if annots.isEmpty then .ok ([], above) else unexpected .memberAfterAnnotations ls
  | _ => do
    let ((content, comment), after) ← MemberContent.read declaration bound above ls
    let (others, after) ← members false after
    let member : Member :=
      { content
        comments := leadingComments above
        annotations := annots
        lineComment := comment
        blankBefore := !first && above.head?.any (·.spaced) }
    return (member :: others, after)

theorem Member.readAll_succ_eq (bound : ℕ) (first : Bool) :
    Member.readAll declaration (bound + 1) first =
      readAllWith declaration bound (Member.readAll declaration bound) first :=
  rfl

theorem Member.readAll_nil (bound : ℕ) (first : Bool) :
    Member.readAll declaration bound first [] = unexpected .endKeyword [] := by
  cases bound <;> rfl

variable (hreads : Declaration.Reads declaration)
include hreads

omit hreads in
/-- A declaration takes at least one lexeme. -/
theorem Declaration.Reads.length_lt (hreads : Declaration.Reads declaration)
    {above ls rest : List Lexeme} {annots : List String} {d : Declaration}
    (habove : above.map Lexeme.kind = annots.map .annot)
    (h : declaration (above ++ ls) ls = .ok (d, rest)) : rest.length < ls.length := by
  obtain ⟨pre, rfl, hpre⟩ := hreads habove h
  have hlength := hpre.length_lt
  have habove := congrArg List.length habove
  simp only [List.length_map, List.length_append] at hlength habove ⊢
  omega

/-- What a member is takes at least one lexeme. -/
theorem MemberContent.length_lt_of_read {bound : ℕ} {above ls rest : List Lexeme}
    {annots : List String} {content : MemberContent} {comment : Option String}
    (habove : above.map Lexeme.kind = annots.map .annot)
    (h : MemberContent.read declaration bound (above ++ ls) ls = .ok ((content, comment), rest)) :
    rest.length < ls.length := by
  rw [MemberContent.read] at h
  split at h
  · obtain ⟨⟨d, after⟩, hd, h⟩ := Except.bind_eq_ok_iff.1 h
    cases h
    exact hreads.length_lt habove hd
  · obtain ⟨⟨content', after⟩, hline, h⟩ := Except.bind_eq_ok_iff.1 h
    obtain ⟨comment', -, h⟩ := Except.bind_eq_ok_iff.1 h
    cases h
    exact (readLine_reads bound).length_lt (fun _ hnil ↦ absurd hnil.length_pos (by simp)) hline

variable {size bound bound' : ℕ}

/-- Bodies are read alike if the declarations and the bodies in them are, on fewer lexemes. -/
theorem Member.readAllWith_alike {members members' : Bool → Reader (List Member)}
    (hdeclaration : ∀ above, AlikeUpTo (size + 1) (declaration above) (declaration' above))
    (hmembers : AlikeUpTo size (members false) (members' false)) (hbound : size ≤ bound)
    (hbound' : size ≤ bound') (first : Bool) :
    AlikeUpTo (size + 1) (readAllWith declaration bound members first)
      (readAllWith declaration' bound' members' first) := by
  intro ls hls
  obtain ⟨annots, above, behind, rfl, htake, habove⟩ := exists_takeAnnotations ls
  unfold readAllWith
  rw [htake]
  rw [List.length_append] at hls
  have hcontent : MemberContent.read declaration bound (above ++ behind) behind =
      MemberContent.read declaration' bound' (above ++ behind) behind := by
    rw [MemberContent.read, MemberContent.read, hdeclaration _ behind (by omega),
      MemberContent.readLine_alike hbound hbound' behind (by omega)]
  dsimp only
  split
  · rfl
  · rfl
  · rw [← hcontent]
    refine Except.bind_congr_of_ok ?_
    rintro ⟨⟨content, comment⟩, after⟩ hread
    have hafter := MemberContent.length_lt_of_read hreads habove hread
    dsimp only
    rw [hmembers after (by omega)]

/-- Bodies are read alike if the declarations in them are. -/
theorem Member.readAll_alike
    (hdeclaration : ∀ above, AlikeUpTo size (declaration above) (declaration' above))
    (hbound : size ≤ bound) (hbound' : size ≤ bound') (first : Bool) :
    AlikeUpTo size (Member.readAll declaration bound first)
      (Member.readAll declaration' bound' first) := by
  refine alike_of_step (fun first bound ↦ Member.readAll declaration bound first)
    (fun first bound ↦ Member.readAll declaration' bound first) (fun _ _ _ ↦ ?_)
    (fun below _ _ hbelow ih hbound hbound' first ↦ ?_) hbound hbound' first
  · rw [readAll_nil, readAll_nil]
  · rw [readAll_succ_eq, readAll_succ_eq]
    exact readAllWith_alike hreads (fun above ↦ (hdeclaration above).mono hbelow) (ih false) hbound
      hbound' first

/-- What the reader of a body does with `members` in place of itself behind a member, where the
repetitions in the lines go on as long as they can. -/
def Member.readAllCalling (declaration : List Lexeme → Reader Declaration)
    (members : Bool → Reader (List Member)) (first : Bool) : Reader (List Member) := fun ls ↦
  readAllWith declaration ls.length members first ls

/-- A body calls the readers of bodies on fewer lexemes only. -/
theorem Member.readAllCalling_alike {members : Bool → Reader (List Member)}
    (h : ∀ first, AlikeUpTo size (Member.readAll declaration size first) (members first))
    (first : Bool) :
    AlikeUpTo (size + 1) (Member.readAll declaration (size + 1) first)
      (readAllCalling declaration members first) := by
  intro ls hls
  rw [readAll_succ_eq, readAllCalling]
  have hmore : AlikeUpTo (ls.length - 1) (Member.readAll declaration size false) (members false) :=
    (h false).mono (by omega)
  exact readAllWith_alike hreads (fun _ _ _ ↦ rfl) hmore (by omega) (by omega) first ls (by omega)

/-- A body ends after at most as many members as lexemes are left. -/
theorem Member.readAll_ends (first : Bool) {ls : List Lexeme} (hbound : ls.length ≤ bound) :
    EndsWithin (readAllCalling declaration) (ls.length + 1) (· first ls)
      (Member.readAll declaration bound first ls) := by
  refine ends_of_step (readAllCalling declaration)
    (fun size members ↦ ∀ first, AlikeUpTo size (Member.readAll declaration size first)
      (members first))
    (fun _ _ ↦ alikeUpTo_zero rfl) (fun _ _ _ h ↦ readAllCalling_alike hreads h)
    (fun _ _ h ↦ h first) ?_
  exact readAll_alike hreads (fun _ _ _ ↦ rfl) hbound (Nat.le_refl _) first ls (Nat.le_refl _)

end Body

/-! ### Declarations -/

namespace Declaration

variable {size bound bound' : ℕ} {declaration declaration' : List Lexeme → Reader Declaration}

/-- What the reader of a declaration does with `declaration` in place of itself inside the body, and
with a bound for the members. -/
def readWith (declaration : List Lexeme → Reader Declaration) (bound : ℕ) (above : List Lexeme) :
    Reader Declaration := fun ls ↦ do
  let ((kind, name), body) ← DeclarationKind.read bound ls
  let headerComment ← endOfLine above body
  let (members, last) ← Member.readAll declaration bound true body
  let ((trailingComments, endComment), after) ← readEnd last
  let d : Declaration :=
    { kind, name, comments := [], annotations := [], headerComment, members, trailingComments,
      endComment }
  return (d, after)

theorem read_succ (bound : ℕ) : read (bound + 1) = readWith (read bound) bound := rfl

theorem read_nil (bound : ℕ) (above : List Lexeme) :
    read bound above [] = unexpected .classOrModule [] := by
  cases bound <;> rfl

/-- The header is read before anything that is nested in the body. -/
theorem readWith_alike (hreads : Declaration.Reads declaration)
    (h : ∀ above, AlikeUpTo size (declaration above) (declaration' above)) (hbound : size ≤ bound)
    (hbound' : size ≤ bound') (above : List Lexeme) :
    AlikeUpTo (size + 1) (readWith declaration bound above)
      (readWith declaration' bound' above) := by
  intro ls hls
  rw [readWith, readWith, ← DeclarationKind.read_alike hbound hbound' ls hls]
  refine Except.bind_congr_of_ok ?_
  rintro ⟨⟨kind, name⟩, body⟩ hheader
  have hbody := (DeclarationKind.read_reads bound).length_lt
    (fun _ hnil ↦ absurd hnil.length_pos (by simp)) hheader
  dsimp only
  rw [Member.readAll_alike hreads h hbound hbound' true body (by omega)]

/-- A declaration is read alike under all bounds that its lexemes do not exceed. -/
theorem read_alike (hbound : size ≤ bound) (hbound' : size ≤ bound') (above : List Lexeme) :
    AlikeUpTo size (read bound above) (read bound' above) := by
  refine alike_of_step (fun above bound ↦ read bound above) (fun above bound ↦ read bound above)
    (fun _ _ _ ↦ ?_) (fun _ bound _ _ ih hbound hbound' above ↦ ?_) hbound hbound' above
  · rw [read_nil, read_nil]
  · rw [read_succ, read_succ]
    exact readWith_alike (read_reads bound) ih hbound hbound' above

/-- What the reader of a declaration does with `declaration` in place of itself inside the body,
where the members go on as long as they can. -/
def readCalling (declaration : List Lexeme → Reader Declaration) (above : List Lexeme) :
    Reader Declaration := fun ls ↦
  readWith declaration ls.length above ls

/-- A declaration calls the readers of declarations on fewer lexemes only. -/
theorem readCalling_alike (h : ∀ above, AlikeUpTo size (read size above) (declaration above))
    (above : List Lexeme) :
    AlikeUpTo (size + 1) (read (size + 1) above) (readCalling declaration above) := by
  intro ls hls
  rw [read_succ, readCalling]
  have hsmaller : ∀ above, AlikeUpTo (ls.length - 1) (read size above) (declaration above) :=
    fun above ↦ (h above).mono (by omega)
  exact readWith_alike (read_reads size) hsmaller (by omega) (by omega) above ls (by omega)

/-- Declarations are not nested deeper than there are lexemes. -/
theorem read_ends (above : List Lexeme) {ls : List Lexeme} (hbound : ls.length ≤ bound) :
    EndsWithin readCalling (ls.length + 1) (· above ls) (read bound above ls) := by
  refine ends_of_step readCalling
    (fun size declaration ↦ ∀ above, AlikeUpTo size (read size above) (declaration above))
    (fun _ _ ↦ alikeUpTo_zero rfl) (fun _ _ _ h ↦ readCalling_alike h) (fun _ _ h ↦ h above) ?_
  exact read_alike hbound (Nat.le_refl _) above ls (Nat.le_refl _)

/-! ### Whole texts -/

/-- What the reader of a text does with `declarations` in place of itself behind a declaration, and
with a bound for that. -/
def readAllWith (bound : ℕ) (declarations : List Lexeme → Except Failure (List Declaration)) :
    List Lexeme → Except Failure (List Declaration) := fun above ↦
  let (annots, ls) := takeAnnotations above
  if ls.isEmpty then
    if annots.isEmpty then .ok [] else unexpected .declarationAfterAnnotations ls
  else do
    let (d, after) ← read bound above ls
    let ds ← declarations after
    return { d with comments := leadingComments above, annotations := annots } :: ds

theorem readAll_succ_eq (bound : ℕ) :
    readAll (bound + 1) = readAllWith (bound + 1) (readAll bound) :=
  rfl

theorem readAll_nil (bound : ℕ) : readAll bound [] = .ok [] := by
  cases bound <;> rfl

/-- Texts are read alike if what stands behind their first declaration is. -/
theorem readAllWith_alike {declarations declarations' : List Lexeme → Except Failure _}
    (h : AlikeUpTo size declarations declarations') (hbound : size + 1 ≤ bound)
    (hbound' : size + 1 ≤ bound') :
    AlikeUpTo (size + 1) (readAllWith bound declarations) (readAllWith bound' declarations') := by
  intro ls hls
  obtain ⟨annots, above, behind, rfl, htake, habove⟩ := exists_takeAnnotations ls
  unfold readAllWith
  rw [htake]
  rw [List.length_append] at hls
  dsimp only
  split
  · rfl
  · rw [← read_alike hbound hbound' (above ++ behind) behind (by omega)]
    refine Except.bind_congr_of_ok ?_
    rintro ⟨d, after⟩ hd
    have hafter := (read_reads bound).length_lt habove hd
    dsimp only
    rw [h after (by omega)]

/-- A text is read alike under all bounds that its lexemes do not exceed. -/
theorem readAll_alike (hbound : size ≤ bound) (hbound' : size ≤ bound') :
    AlikeUpTo size (readAll bound) (readAll bound') := by
  refine alike_of_step (fun _ : Unit ↦ readAll) (fun _ ↦ readAll) (fun _ _ _ ↦ ?_)
    (fun _ _ _ _ ih hbound hbound' _ ↦ ?_) hbound hbound' ()
  · rw [readAll_nil, readAll_nil]
  · rw [readAll_succ_eq, readAll_succ_eq]
    exact readAllWith_alike (ih ()) (Nat.succ_le_succ hbound) (Nat.succ_le_succ hbound')

/-- What the reader of a text does with `declarations` in place of itself behind a declaration,
where that is nested as deep as it can be. -/
def readAllCalling (declarations : List Lexeme → Except Failure (List Declaration)) :
    List Lexeme → Except Failure (List Declaration) := fun ls ↦
  readAllWith ls.length declarations ls

/-- The reader of a text calls itself on fewer lexemes only. -/
theorem readAllCalling_alike {declarations : List Lexeme → Except Failure (List Declaration)}
    (h : AlikeUpTo size (readAll size) declarations) :
    AlikeUpTo (size + 1) (readAll (size + 1)) (readAllCalling declarations) := by
  intro ls hls
  rcases ls with - | ⟨l, ls⟩
  · rfl
  · rw [List.length_cons] at hls
    rw [readAll_succ_eq, readAllCalling]
    have hsmaller : AlikeUpTo ls.length (readAll size) declarations := h.mono (by omega)
    exact readAllWith_alike hsmaller (by omega) (Nat.le_refl _) _ (Nat.le_refl _)

/-- A text ends after at most as many declarations as it has lexemes. -/
theorem readAll_ends {ls : List Lexeme} (hbound : ls.length ≤ bound) :
    EndsWithin readAllCalling (ls.length + 1) (· ls) (readAll bound ls) := by
  refine ends_of_step readAllCalling (fun size ↦ AlikeUpTo size (readAll size))
    (fun _ ↦ alikeUpTo_zero rfl) (fun _ _ _ h ↦ readAllCalling_alike h) (fun _ _ h ↦ h) ?_
  exact readAll_alike hbound (Nat.le_refl _) ls (Nat.le_refl _)

end Declaration

end ModelSignatures
