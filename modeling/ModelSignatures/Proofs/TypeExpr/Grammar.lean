import ModelSignatures.TypeExpr.Reading
import ModelSignatures.Proofs.Lexeme.Reader

/-!
# The grammar of types

`TypeForm.Spells` relates a type, at each of the levels of precedence, to the token kinds that spell
it. The reader of each level takes just the lexemes that spell what it answers with
(`readPrimary_reads`), and it takes all lexemes that spell something, provided that those behind
them could not be taken too (`TypeForm.isRead_of_spells`). Nothing but the kinds of the lexemes
matters to it.
-/

namespace ModelSignatures

open Reading (Avoids avoids_cons avoids_append afterSymbol? afterSymbol?_cons afterSymbol?_eq_none
  eq_cons_of_afterSymbol? symbol symbol_cons eq_cons_of_symbol word word_cons word_reads separated
  separated_of_avoids separated_cons_append separated_reads separated_of_repeated)

/-! ### Names -/

namespace TypeName

/-- The token kinds that spell a name. -/
def kinds (name : TypeName) : List TokenKind :=
  (if name.absolute then [.symbol .colonColon] else []) ++
    match name.path with
    | [] => []
    | first :: others =>
      .word first :: others.flatMap fun segment ↦ [.symbol .colonColon, .word segment]

/-- Whether the name is read as a name where a type may stand: it does not begin with a keyword
type. -/
def IsNoKeyword (name : TypeName) : Prop :=
  name.absolute = true ∨ ∀ segment ∈ name.path.head?, BaseType.ofKeyword? segment = none

instance : DecidablePred IsNoKeyword := fun _ ↦ inferInstanceAs (Decidable (_ ∨ _))

theorem length_kinds_pos {name : TypeName} (h : name.path ≠ []) : 0 < name.kinds.length := by
  rcases hpath : name.path with - | ⟨first, others⟩
  · exact absurd hpath h
  · rw [kinds, hpath, List.length_append, List.length_cons]
    omega

/-- The segments behind the first are spelled in one way only, each with a `::` before it. -/
theorem repeated_segments {segments : List String} {ks : List TokenKind} :
    Repeated .colonColon (fun segment ks ↦ ks = [.word segment]) segments ks ↔
      ks = segments.flatMap fun segment ↦ [.symbol .colonColon, .word segment] := by
  induction segments generalizing ks with
  | nil =>
    constructor
    · intro h
      cases h
      rfl
    · rintro rfl
      exact .nil
  | cons segment segments ih =>
    rw [List.flatMap_cons]
    constructor
    · intro h
      obtain - | ⟨rfl, htail⟩ := h
      rw [ih.1 htail]
      rfl
    · rintro rfl
      exact .cons rfl (ih.2 rfl)

/-- What is read behind the `::` in front of a name, if there is one. -/
theorem eq_of_readPath {absolute : Bool} {bound : Nat} {ls rest : List Lexeme} {name : TypeName}
    (h : (do
      let (first, ls) ← word .constantName ls
      let (others, ls) ← separated .colonColon (word .constantName) bound ls
      return ((⟨absolute, first :: others⟩ : TypeName), ls)) = Except.ok (name, rest)) :
    ∃ first others pre, name = ⟨absolute, first :: others⟩ ∧ ls = pre ++ rest ∧
      pre.map Lexeme.kind = .word first :: others.flatMap fun segment ↦
        [.symbol .colonColon, .word segment] := by
  obtain ⟨⟨first, ls'⟩, hfirst, h⟩ := Except.bind_eq_ok_iff.1 h
  obtain ⟨⟨others, ls''⟩, hothers, h⟩ := Except.bind_eq_ok_iff.1 h
  cases h
  obtain ⟨pre, rfl, hpre⟩ := word_reads _ hfirst
  obtain ⟨pre', rfl, hpre'⟩ :=
    separated_reads (P := fun segment ks ↦ ks = [.word segment]) (word_reads _) bound hothers
  refine ⟨first, others, pre ++ pre', rfl, by rw [List.append_assoc], ?_⟩
  rw [List.map_append, hpre, repeated_segments.1 hpre']
  rfl

/-- What is read as a name spells it and has a segment at least. -/
theorem read_reads (bound : Nat) :
    Reader.Reads (TypeName.read bound) fun name pre ↦
      name.path ≠ [] ∧ pre.map Lexeme.kind = name.kinds := by
  intro ls name rest h
  rw [TypeName.read] at h
  split at h
  next absolute ls' hls =>
    obtain ⟨first, others, pre, rfl, rfl, hpre⟩ := eq_of_readPath h
    split at hls
    next ls'' hls'' =>
      cases hls
      obtain ⟨l, rfl, hl⟩ := eq_cons_of_afterSymbol? hls''
      refine ⟨l :: pre, rfl, by simp, ?_⟩
      rw [List.map_cons, hl, hpre]
      rfl
    · cases hls
      exact ⟨pre, rfl, by simp, hpre⟩

/-- What spells a name is read as that name, unless one more segment follows. -/
theorem read_of_kinds {name : TypeName} (hname : name.path ≠ []) {pre rest : List Lexeme}
    (hpre : pre.map Lexeme.kind = name.kinds) {bound : Nat} (hbound : pre.length ≤ bound + 1)
    (hrest : Avoids [.colonColon] rest) :
    TypeName.read bound (pre ++ rest) = .ok (name, rest) := by
  obtain ⟨absolute, path⟩ := name
  rcases path with - | ⟨first, others⟩
  · exact absurd rfl hname
  · have hothers : ∀ {pre : List Lexeme}, pre.map Lexeme.kind =
        (others.flatMap fun segment ↦ [.symbol .colonColon, .word segment]) →
        pre.length ≤ bound →
        separated .colonColon (word .constantName) bound (pre ++ rest) = .ok (others, rest) := by
      intro pre hpre hlength
      have hsize := congrArg List.length hpre
      rw [List.length_map] at hsize
      have hsegment : ∀ {segment : String} {ks : List TokenKind} {pre rest : List Lexeme},
          ks = [.word segment] → ks.length ≤ bound → pre.map Lexeme.kind = ks → True →
            word .constantName (pre ++ rest) = .ok (segment, rest) := by
        intro segment ks pre rest hks _ hpre _
        rw [hks, List.map_eq_singleton_iff] at hpre
        obtain ⟨l, rfl, hl⟩ := hpre
        exact word_cons hl _ _
      exact separated_of_repeated hsegment (fun _ ↦ trivial) (repeated_segments.2 rfl) hpre
        (by omega) (by omega) trivial hrest
    cases absolute with
    | false =>
      obtain ⟨l, pre, rfl, hl, hpre⟩ := List.map_eq_cons_iff.1 hpre
      have hcolons : afterSymbol? .colonColon (l :: (pre ++ rest)) = none := by
        rw [afterSymbol?, if_neg (by simp [hl])]
      rw [List.length_cons] at hbound
      rw [List.cons_append, TypeName.read, hcolons]
      show (word .constantName (l :: (pre ++ rest)) >>= _) = _
      rw [word_cons hl]
      show (separated .colonColon (word .constantName) bound (pre ++ rest) >>= _) = _
      rw [hothers hpre (by omega)]
      rfl
    | true =>
      obtain ⟨colons, pre, rfl, hcolons, hpre⟩ := List.map_eq_cons_iff.1 hpre
      obtain ⟨l, pre, rfl, hl, hpre⟩ := List.map_eq_cons_iff.1 hpre
      rw [List.length_cons, List.length_cons] at hbound
      rw [List.cons_append, TypeName.read, afterSymbol?_cons hcolons]
      show (word .constantName (l :: (pre ++ rest)) >>= _) = _
      rw [word_cons hl]
      show (separated .colonColon (word .constantName) bound (pre ++ rest) >>= _) = _
      rw [hothers hpre (by omega)]
      rfl

end TypeName

/-! ### Types -/

/-- A type, or several, at one of the levels of the grammar. -/
inductive TypeForm
  /-- A type without a `?` and outside of a union. -/
  | primary (t : TypeExpr)
  /-- A type outside of a union. -/
  | optional (t : TypeExpr)
  | union (t : TypeExpr)
  /-- The members of a union behind the first, each with a bar before it. -/
  | alternatives (ts : List TypeExpr)
  /-- The arguments of a class with their brackets, or nothing for no arguments. -/
  | args (ts : List TypeExpr)
  /-- The arguments behind the first, each with a comma before it. -/
  | moreArgs (ts : List TypeExpr)

/-- The grammar of types. -/
inductive TypeForm.Spells : TypeForm → List TokenKind → Prop
  | base (b : BaseType) : Spells (.primary (.base b)) [.word b.keyword]
  | group {t : TypeExpr} {ks : List TokenKind} (inner : Spells (.union t) ks) :
      Spells (.primary t) (.symbol .leftParen :: (ks ++ [.symbol .rightParen]))
  | aliasRef {name : TypeName} (nonempty : name.path ≠ []) (noKeyword : name.IsNoKeyword)
      (isAlias : name.namesAlias = true) : Spells (.primary (.aliasRef name)) name.kinds
  | classRef {name : TypeName} {ts : List TypeExpr} {ks : List TokenKind}
      (nonempty : name.path ≠ []) (noKeyword : name.IsNoKeyword)
      (isClass : name.namesAlias = false) (args : Spells (.args ts) ks) :
      Spells (.primary (.classRef name ts)) (name.kinds ++ ks)
  | plain {t : TypeExpr} {ks : List TokenKind} (operand : Spells (.primary t) ks) :
      Spells (.optional t) ks
  | marked {t : TypeExpr} {ks : List TokenKind} (operand : Spells (.primary t) ks) :
      Spells (.optional t.orNil) (ks ++ [.symbol .question])
  | union {t : TypeExpr} {ts : List TypeExpr} {ks more : List TokenKind}
      (first : Spells (.optional t) ks) (others : Spells (.alternatives ts) more) :
      Spells (.union (.oneOf t ts)) (ks ++ more)
  | noAlternative : Spells (.alternatives []) []
  | alternative {t : TypeExpr} {ts : List TypeExpr} {ks more : List TokenKind}
      (first : Spells (.optional t) ks) (others : Spells (.alternatives ts) more) :
      Spells (.alternatives (t :: ts)) (.symbol .pipe :: (ks ++ more))
  | noArgs : Spells (.args []) []
  | args {t : TypeExpr} {ts : List TypeExpr} {ks more : List TokenKind}
      (first : Spells (.union t) ks) (others : Spells (.moreArgs ts) more) :
      Spells (.args (t :: ts))
        (.symbol .leftBracket :: (ks ++ more ++ [.symbol .rightBracket]))
  | noMoreArgs : Spells (.moreArgs []) []
  | moreArgs {t : TypeExpr} {ts : List TypeExpr} {ks more : List TokenKind}
      (first : Spells (.union t) ks) (others : Spells (.moreArgs ts) more) :
      Spells (.moreArgs (t :: ts)) (.symbol .comma :: (ks ++ more))

namespace TypeForm

/-- Operands that are repeated behind bars are the alternatives of a union. -/
theorem spells_alternatives {ts : List TypeExpr} {ks : List TokenKind}
    (h : Repeated .pipe (fun t ks ↦ Spells (.optional t) ks) ts ks) :
    Spells (.alternatives ts) ks := by
  induction h with
  | nil => exact .noAlternative
  | cons head tail ih => exact .alternative head ih

/-- Alternatives begin with a bar, if there are any. -/
theorem Spells.alternatives_eq_nil_or {ts : List TypeExpr} {ks : List TokenKind}
    (h : Spells (.alternatives ts) ks) : ks = [] ∨ ∃ more, ks = .symbol .pipe :: more := by
  cases h with
  | noAlternative => exact Or.inl rfl
  | alternative => exact Or.inr ⟨_, rfl⟩

/-- Arguments behind the first begin with a comma, if there are any. -/
theorem Spells.moreArgs_eq_nil_or {ts : List TypeExpr} {ks : List TokenKind}
    (h : Spells (.moreArgs ts) ks) : ks = [] ∨ ∃ more, ks = .symbol .comma :: more := by
  cases h with
  | noMoreArgs => exact Or.inl rfl
  | moreArgs => exact Or.inr ⟨_, rfl⟩

/-- Arguments begin with a bracket, if there are any. -/
theorem Spells.args_eq_nil_or {ts : List TypeExpr} {ks : List TokenKind}
    (h : Spells (.args ts) ks) : ks = [] ∨ ∃ more, ks = .symbol .leftBracket :: more := by
  cases h with
  | noArgs => exact Or.inl rfl
  | args => exact Or.inr ⟨_, rfl⟩

/-- Arguments that are repeated behind commas are those behind the first. -/
theorem spells_moreArgs {ts : List TypeExpr} {ks : List TokenKind}
    (h : Repeated .comma (fun t ks ↦ Spells (.union t) ks) ts ks) : Spells (.moreArgs ts) ks := by
  induction h with
  | nil => exact .noMoreArgs
  | cons head tail ih => exact .moreArgs head ih

end TypeForm

namespace TypeExpr

/-! ### What the readers take -/

section Reads

variable {primary : Reader TypeExpr}
  (hprimary : primary.Reads fun t pre ↦ TypeForm.Spells (.primary t) (pre.map Lexeme.kind))
include hprimary

/-- What is read as an operand spells a primary type, with a `?` behind it or none. -/
theorem readOptional_reads :
    Reader.Reads (readOptional primary) fun t pre ↦
      TypeForm.Spells (.optional t) (pre.map Lexeme.kind) := by
  intro ls t rest h
  rw [readOptional, Except.bind_eq_ok_iff] at h
  obtain ⟨⟨operand, ls'⟩, hoperand, h⟩ := h
  obtain ⟨pre, rfl, hpre⟩ := hprimary hoperand
  dsimp only at h
  split at h
  next behind hbehind =>
    cases h
    obtain ⟨l, rfl, hl⟩ := eq_cons_of_afterSymbol? hbehind
    refine ⟨pre ++ [l], by simp, ?_⟩
    show TypeForm.Spells _ _
    rw [List.map_append, List.map_singleton, hl]
    exact .marked hpre
  · cases h
    exact ⟨pre, rfl, .plain hpre⟩

/-- What is read as a union spells its operands, one behind the other. -/
theorem readUnion_reads (bound : Nat) :
    Reader.Reads (readUnion primary bound) fun t pre ↦
      TypeForm.Spells (.union t) (pre.map Lexeme.kind) := by
  intro ls t rest h
  obtain ⟨⟨first, behind⟩, hfirst, h⟩ := Except.bind_eq_ok_iff.1 h
  obtain ⟨⟨others, behind'⟩, hothers, h⟩ := Except.bind_eq_ok_iff.1 h
  cases h
  obtain ⟨pre, rfl, hpre⟩ := readOptional_reads hprimary hfirst
  obtain ⟨pre', rfl, hpre'⟩ := separated_reads
    (P := fun t ks ↦ TypeForm.Spells (.optional t) ks) (readOptional_reads hprimary) bound hothers
  refine ⟨pre ++ pre', by rw [List.append_assoc], ?_⟩
  show TypeForm.Spells _ _
  rw [List.map_append]
  exact .union hpre (TypeForm.spells_alternatives hpre')

/-- What is read as arguments spells them, with their brackets. -/
theorem readArgs_reads (bound : Nat) :
    Reader.Reads (readArgs primary bound) fun ts pre ↦
      TypeForm.Spells (.args ts) (pre.map Lexeme.kind) := by
  intro ls ts rest h
  unfold readArgs at h
  split at h
  · cases h
    exact ⟨[], rfl, .noArgs⟩
  next behind hbehind =>
    obtain ⟨bracket, rfl, hbracket⟩ := eq_cons_of_afterSymbol? hbehind
    obtain ⟨⟨first, behind'⟩, hfirst, h⟩ := Except.bind_eq_ok_iff.1 h
    obtain ⟨⟨others, behind''⟩, hothers, h⟩ := Except.bind_eq_ok_iff.1 h
    obtain ⟨rest', hclosing, h⟩ := Except.bind_eq_ok_iff.1 h
    cases h
    obtain ⟨closing, rfl, hkind⟩ := eq_cons_of_symbol hclosing
    obtain ⟨pre, rfl, hpre⟩ := readUnion_reads hprimary bound hfirst
    obtain ⟨pre', rfl, hpre'⟩ := separated_reads
      (P := fun t ks ↦ TypeForm.Spells (.union t) ks) (readUnion_reads hprimary bound) bound hothers
    refine ⟨bracket :: (pre ++ pre' ++ [closing]), by simp, ?_⟩
    show TypeForm.Spells _ _
    rw [List.map_cons, List.map_append, List.map_append, List.map_singleton, hbracket, hkind]
    exact .args hpre (TypeForm.spells_moreArgs hpre')

/-- A name where no keyword stands is read as an alias or as a class with its arguments. -/
theorem readNamed_reads (bound : Nat) {ls rest : List Lexeme} {t : TypeExpr}
    (hfirst : ∀ l ∈ ls.head?, ∀ text, l.kind = .word text → BaseType.ofKeyword? text = none)
    (h : readNamed primary bound ls = .ok (t, rest)) :
    ∃ pre, ls = pre ++ rest ∧ TypeForm.Spells (.primary t) (pre.map Lexeme.kind) := by
  rw [readNamed, Except.bind_eq_ok_iff] at h
  obtain ⟨⟨name, behind⟩, hname, h⟩ := h
  obtain ⟨pre, rfl, hne, hpre⟩ := TypeName.read_reads bound hname
  have hkeyword : name.IsNoKeyword := by
    obtain ⟨absolute, path⟩ := name
    rcases path with - | ⟨first, others⟩
    · exact absurd rfl hne
    · cases absolute with
      | true => exact Or.inl rfl
      | false =>
        obtain ⟨l, pre, rfl, hl, -⟩ := List.map_eq_cons_iff.1 hpre
        refine Or.inr fun segment hsegment ↦ ?_
        cases hsegment
        exact hfirst l rfl first hl
  dsimp only at h
  split at h
  next halias =>
    cases h
    refine ⟨pre, rfl, ?_⟩
    rw [hpre]
    exact .aliasRef hne hkeyword halias
  next halias =>
    obtain ⟨⟨args, behind'⟩, hargs, h⟩ := Except.bind_eq_ok_iff.1 h
    cases h
    obtain ⟨pre', rfl, hpre'⟩ := readArgs_reads hprimary bound hargs
    refine ⟨pre ++ pre', by rw [List.append_assoc], ?_⟩
    rw [List.map_append, hpre]
    exact .classRef hne hkeyword (by simpa using halias) hpre'

end Reads

/-- What is read as a primary type spells it: the induction is on the bound, since parentheses and
arguments lead back to unions. -/
theorem readPrimary_reads (bound : Nat) :
    Reader.Reads (readPrimary bound) fun t pre ↦
      TypeForm.Spells (.primary t) (pre.map Lexeme.kind) := by
  induction bound with
  | zero =>
    intro ls t rest h
    cases h
  | succ bound ih =>
    intro ls t rest h
    rw [readPrimary.eq_def] at h
    dsimp only at h
    split at h
    next position leading trailing glued spaced inner =>
      obtain ⟨⟨t', behind⟩, hinner, h⟩ := Except.bind_eq_ok_iff.1 h
      obtain ⟨outer, houter, h⟩ := Except.bind_eq_ok_iff.1 h
      cases h
      obtain ⟨pre, rfl, hpre⟩ := readUnion_reads ih bound hinner
      obtain ⟨closing, rfl, hclosing⟩ := eq_cons_of_symbol houter
      refine ⟨⟨.symbol .leftParen, position, leading, trailing, glued, spaced⟩ ::
        (pre ++ [closing]), by simp, ?_⟩
      show TypeForm.Spells _ _
      rw [List.map_cons, List.map_append, List.map_singleton, hclosing]
      exact .group hpre
    next text position leading trailing glued spaced after =>
      split at h
      next b hb =>
        cases h
        refine ⟨[_], rfl, ?_⟩
        show TypeForm.Spells _ _
        rw [List.map_singleton, ← BaseType.keyword_of_ofKeyword? hb]
        exact .base b
      next hb =>
        refine readNamed_reads ih bound (fun l hl text' htext' ↦ ?_) h
        cases hl
        cases htext'
        exact hb
    next position leading trailing glued spaced after =>
      refine readNamed_reads ih bound (fun l hl text htext ↦ ?_) h
      cases hl
      cases htext
    · cases h

/-- What is read as a type spells it on the level of unions. -/
theorem read_reads (bound : Nat) :
    Reader.Reads (read bound) fun t pre ↦ TypeForm.Spells (.union t) (pre.map Lexeme.kind) :=
  readUnion_reads (readPrimary_reads bound) bound

/-! ### What the readers succeed on -/

/-- A union in parentheses is a primary type. -/
theorem readPrimary_group {bound : Nat} {opening closing : Lexeme} {inner rest : List Lexeme}
    {t : TypeExpr} (hopening : opening.kind = .symbol .leftParen)
    (hclosing : closing.kind = .symbol .rightParen)
    (hinner : readUnion (readPrimary bound) bound inner = .ok (t, closing :: rest)) :
    readPrimary (bound + 1) (opening :: inner) = .ok (t, rest) := by
  cases opening
  cases hopening
  show (readUnion (readPrimary bound) bound inner >>= _) = _
  rw [hinner]
  show (symbol .rightParen .closingParen (closing :: rest) >>= _) = _
  rw [symbol_cons hclosing]
  rfl

/-- The word of a keyword type is never read as a name. -/
theorem readPrimary_base {l : Lexeme} {b : BaseType} (hl : l.kind = .word b.keyword) (bound : Nat)
    (rest : List Lexeme) : readPrimary (bound + 1) (l :: rest) = .ok (base b, rest) := by
  cases l
  cases hl
  rw [readPrimary, BaseType.ofKeyword?_keyword]

/-- Where a name stands that is no keyword, it is read as a name. -/
theorem readPrimary_named {name : TypeName} (hne : name.path ≠ []) (hkeyword : name.IsNoKeyword)
    {pre : List Lexeme} (hpre : pre.map Lexeme.kind = name.kinds) (bound : Nat)
    (rest : List Lexeme) :
    readPrimary (bound + 1) (pre ++ rest) = readNamed (readPrimary bound) bound (pre ++ rest) := by
  obtain ⟨absolute, path⟩ := name
  rcases path with - | ⟨first, others⟩
  · exact absurd rfl hne
  · cases absolute with
    | true =>
      obtain ⟨l, pre, rfl, hl, -⟩ := List.map_eq_cons_iff.1 hpre
      cases l
      cases hl
      rfl
    | false =>
      obtain ⟨l, pre, rfl, hl, -⟩ := List.map_eq_cons_iff.1 hpre
      cases l
      cases hl
      have hfirst : BaseType.ofKeyword? first = none := by
        rcases hkeyword with h | h
        · cases h
        · exact h first rfl
      rw [List.cons_append, readPrimary, hfirst]

/-- A name that begins with a small letter takes no arguments. -/
theorem readNamed_aliasRef {primary : Reader TypeExpr} {name : TypeName} {bound : Nat}
    {ls rest : List Lexeme} (hname : TypeName.read bound ls = .ok (name, rest))
    (halias : name.namesAlias = true) :
    readNamed primary bound ls = .ok (aliasRef name, rest) := by
  show (TypeName.read bound ls >>= _) = _
  rw [hname]
  show (if name.namesAlias then _ else _) = _
  rw [if_pos halias]
  rfl

/-- A name that begins with a capital is a class, with the arguments that are read behind it. -/
theorem readNamed_classRef {primary : Reader TypeExpr} {name : TypeName} {bound : Nat}
    {ls behind rest : List Lexeme} {args : List TypeExpr}
    (hname : TypeName.read bound ls = .ok (name, behind)) (hclass : name.namesAlias = false)
    (hargs : readArgs primary bound behind = .ok (args, rest)) :
    readNamed primary bound ls = .ok (classRef name args, rest) := by
  show (TypeName.read bound ls >>= _) = _
  rw [hname]
  show (if name.namesAlias then _ else _) = _
  rw [if_neg (by simp [hclass])]
  show (readArgs primary bound behind >>= _) = _
  rw [hargs]
  rfl

/-- Without a `?` behind it the operand is the type itself. -/
theorem readOptional_plain {primary : Reader TypeExpr} {ls rest : List Lexeme} {t : TypeExpr}
    (hoperand : primary ls = .ok (t, rest)) (hrest : Avoids [.question] rest) :
    readOptional primary ls = .ok (t, rest) := by
  rw [readOptional, hoperand]
  simp only [Except.ok_bind]
  rw [afterSymbol?_eq_none hrest List.mem_cons_self]
  rfl

/-- With a `?` behind it the operand may be missing, and nothing further is looked at. -/
theorem readOptional_marked {primary : Reader TypeExpr} {ls rest : List Lexeme} {l : Lexeme}
    {t : TypeExpr} (hoperand : primary ls = .ok (t, l :: rest))
    (hl : l.kind = .symbol .question) : readOptional primary ls = .ok (t.orNil, rest) := by
  rw [readOptional, hoperand]
  simp only [Except.ok_bind]
  rw [afterSymbol?_cons hl]
  rfl

/-- A union is put together from its first operand and those behind bars. -/
theorem readUnion_of_alternatives {primary : Reader TypeExpr} {bound : Nat}
    {ls behind rest : List Lexeme} {t : TypeExpr} {ts : List TypeExpr}
    (hfirst : readOptional primary ls = .ok (t, behind))
    (hothers : separated .pipe (readOptional primary) bound behind = .ok (ts, rest)) :
    readUnion primary bound ls = .ok (.oneOf t ts, rest) := by
  show (readOptional primary ls >>= _) = _
  rw [hfirst]
  show (separated .pipe (readOptional primary) bound behind >>= _) = _
  rw [hothers]
  rfl

/-- Where no bracket comes next there are no arguments. -/
theorem readArgs_of_avoids {primary : Reader TypeExpr} {symbols : List Symbol}
    {rest : List Lexeme} (hrest : Avoids symbols rest) (hmem : .leftBracket ∈ symbols)
    (bound : Nat) : readArgs primary bound rest = .ok ([], rest) := by
  rw [readArgs, afterSymbol?_eq_none hrest hmem]

/-- Arguments are the first one, those behind commas, and the closing bracket. -/
theorem readArgs_of_moreArgs {primary : Reader TypeExpr} {bound : Nat} {opening closing : Lexeme}
    {ls behind rest : List Lexeme} {t : TypeExpr} {ts : List TypeExpr}
    (hopening : opening.kind = .symbol .leftBracket)
    (hclosing : closing.kind = .symbol .rightBracket)
    (hfirst : readUnion primary bound ls = .ok (t, behind))
    (hothers : separated .comma (readUnion primary bound) bound behind =
      .ok (ts, closing :: rest)) :
    readArgs primary bound (opening :: ls) = .ok (t :: ts, rest) := by
  rw [readArgs, afterSymbol?_cons hopening]
  show (readUnion primary bound ls >>= _) = _
  rw [hfirst]
  show (separated .comma (readUnion primary bound) bound behind >>= _) = _
  rw [hothers]
  show (symbol .rightBracket .commaOrClosingBracket (closing :: rest) >>= _) = _
  rw [symbol_cons hclosing]
  rfl

end TypeExpr

namespace TypeForm

open TypeExpr (readPrimary readOptional readUnion readArgs)

/-- The symbols that a type could go on with, from the level of primary types to that of
arguments. -/
def continuations : TypeForm → List Symbol
  | primary _ => [.colonColon, .leftBracket]
  | optional _ => [.colonColon, .leftBracket, .question]
  | union _ | alternatives _ => [.colonColon, .leftBracket, .question, .pipe]
  | args _ => [.leftBracket]
  | moreArgs _ => [.colonColon, .leftBracket, .question, .pipe, .comma]

/-- A type ends in front of a symbol that it could not go on with. -/
theorem avoids_continuations {form : TypeForm} {l : Lexeme} {s : Symbol} (hl : l.kind = .symbol s)
    (hs : s ∉ form.continuations) (ls : List Lexeme) : Avoids form.continuations (l :: ls) := by
  refine avoids_cons fun s' hs' ↦ ?_
  rw [hl]
  rintro ⟨⟩
  exact hs hs'

/-- Whether the reader of the level reads what stands in front of `rest`. -/
def IsRead (bound : Nat) (ls rest : List Lexeme) : TypeForm → Prop
  | primary t => readPrimary bound ls = .ok (t, rest)
  | optional t => readOptional (readPrimary bound) ls = .ok (t, rest)
  | union t => readUnion (readPrimary bound) bound ls = .ok (t, rest)
  | alternatives ts => ∀ n ≥ ls.length - rest.length,
    separated .pipe (readOptional (readPrimary bound)) n ls = .ok (ts, rest)
  | args ts => readArgs (readPrimary bound) bound ls = .ok (ts, rest)
  | moreArgs ts => ∀ n ≥ ls.length - rest.length,
    separated .comma (readUnion (readPrimary bound) bound) n ls = .ok (ts, rest)

/-- Whether lexemes are read as the form by every reader whose bound is not below their number, in
front of all that the form could not go on with. -/
def Takes (form : TypeForm) (pre : List Lexeme) : Prop :=
  ∀ ⦃bound : Nat⦄ ⦃rest : List Lexeme⦄, pre.length ≤ bound → Avoids form.continuations rest →
    form.IsRead bound (pre ++ rest) rest

section Takes

variable {t : TypeExpr} {ts : List TypeExpr} {pre head tail rest : List Lexeme}

/-- Behind the operand of a union stand the other operands, each with a bar before it, so the
operand does not go on. -/
theorem Spells.avoids_alternatives (h : Spells (.alternatives ts) (tail.map Lexeme.kind))
    (hrest : Avoids (alternatives ts).continuations rest) :
    Avoids (optional t).continuations (tail ++ rest) :=
  avoids_append rfl h.alternatives_eq_nil_or (by simp [continuations])
    (hrest.mono (by simp [continuations]))

/-- Behind an argument stand the other arguments, each with a comma before it, so the argument does
not go on. -/
theorem Spells.avoids_moreArgs (h : Spells (.moreArgs ts) (tail.map Lexeme.kind))
    (hrest : Avoids (TypeForm.moreArgs ts).continuations rest) :
    Avoids (TypeForm.union t).continuations (tail ++ rest) :=
  avoids_append rfl h.moreArgs_eq_nil_or (by simp [continuations])
    (hrest.mono (by simp [continuations]))

/-- A keyword type is a single word. -/
theorem takes_base {l : Lexeme} {b : BaseType} (hl : l.kind = .word b.keyword) :
    (primary (.base b)).Takes [l] := by
  intro bound rest hbound _
  obtain ⟨bound, rfl⟩ : ∃ n, bound = n + 1 := Nat.exists_eq_succ_of_ne_zero (Nat.ne_of_gt hbound)
  exact TypeExpr.readPrimary_base hl bound rest

/-- A type in parentheses is read whatever stands behind, since the closing one ends it. -/
theorem Takes.group (h : (union t).Takes pre) {opening closing : Lexeme}
    (hopening : opening.kind = .symbol .leftParen)
    (hclosing : closing.kind = .symbol .rightParen) :
    (primary t).Takes (opening :: (pre ++ [closing])) := by
  intro bound rest hbound _
  rw [List.length_cons, List.length_append] at hbound
  obtain ⟨bound, rfl⟩ : ∃ n, bound = n + 1 := ⟨bound - 1, by omega⟩
  have hends : Avoids (union t).continuations (closing :: rest) :=
    avoids_continuations hclosing (by simp [continuations]) rest
  rw [List.cons_append, List.append_assoc]
  exact TypeExpr.readPrimary_group hopening hclosing (h (by omega) hends)

/-- The name of an alias is a type of its own. -/
theorem takes_aliasRef {name : TypeName} (nonempty : name.path ≠ [])
    (noKeyword : name.IsNoKeyword) (isAlias : name.namesAlias = true)
    (hpre : pre.map Lexeme.kind = name.kinds) : (primary (.aliasRef name)).Takes pre := by
  intro bound rest hbound hrest
  have hpos := TypeName.length_kinds_pos nonempty
  rw [← hpre, List.length_map] at hpos
  obtain ⟨bound, rfl⟩ : ∃ n, bound = n + 1 := ⟨bound - 1, by omega⟩
  have hname : TypeName.read bound (pre ++ rest) = .ok (name, rest) :=
    TypeName.read_of_kinds nonempty hpre hbound (hrest.mono (by simp [continuations]))
  show readPrimary _ _ = _
  rw [TypeExpr.readPrimary_named nonempty noKeyword hpre]
  exact TypeExpr.readNamed_aliasRef hname isAlias

/-- The name of a class is a type with the arguments behind it. -/
theorem Takes.classRef {name : TypeName} (h : (args ts).Takes tail)
    (spelled : Spells (.args ts) (tail.map Lexeme.kind)) (nonempty : name.path ≠ [])
    (noKeyword : name.IsNoKeyword) (isClass : name.namesAlias = false)
    (hhead : head.map Lexeme.kind = name.kinds) :
    (primary (.classRef name ts)).Takes (head ++ tail) := by
  intro bound rest hbound hrest
  have hpos := TypeName.length_kinds_pos nonempty
  rw [← hhead, List.length_map] at hpos
  rw [List.length_append] at hbound
  obtain ⟨bound, rfl⟩ : ∃ n, bound = n + 1 := ⟨bound - 1, by omega⟩
  have hends : Avoids [.colonColon] (tail ++ rest) :=
    avoids_append rfl spelled.args_eq_nil_or (by decide) (hrest.mono (by simp [continuations]))
  have hname : TypeName.read bound (head ++ (tail ++ rest)) = .ok (name, tail ++ rest) :=
    TypeName.read_of_kinds nonempty hhead (by omega) hends
  show readPrimary _ _ = _
  rw [List.append_assoc, TypeExpr.readPrimary_named nonempty noKeyword hhead]
  exact TypeExpr.readNamed_classRef hname isClass
    (h (by omega) (hrest.mono (by simp [continuations])))

/-- A primary type that no `?` stands behind is an operand as it is. -/
theorem Takes.plain (h : (primary t).Takes pre) : (optional t).Takes pre := fun _ _ hbound hrest ↦
  TypeExpr.readOptional_plain (h hbound (hrest.mono (by simp [continuations])))
    (hrest.mono (by simp [continuations]))

/-- A primary type with a `?` behind it is read whatever stands behind that. -/
theorem Takes.marked (h : (primary t).Takes pre) {question : Lexeme}
    (hquestion : question.kind = .symbol .question) :
    (optional t.orNil).Takes (pre ++ [question]) := by
  intro bound rest hbound _
  rw [List.length_append] at hbound
  have hends : Avoids (primary t).continuations (question :: rest) :=
    avoids_continuations hquestion (by simp [continuations]) rest
  rw [List.append_assoc]
  exact TypeExpr.readOptional_marked (h (by omega) hends) hquestion

/-- The first operand of a union is read, and then all others. -/
theorem Takes.union (hfirst : (optional t).Takes head) (hothers : (alternatives ts).Takes tail)
    (spelled : Spells (.alternatives ts) (tail.map Lexeme.kind)) :
    (union (.oneOf t ts)).Takes (head ++ tail) := by
  intro bound rest hbound hrest
  rw [List.length_append] at hbound
  have hoperand := hfirst (Nat.le_of_add_right_le hbound) (spelled.avoids_alternatives hrest)
  have hmore := hothers (Nat.le_of_add_left_le hbound) hrest bound
    (by rw [List.length_append]; omega)
  rw [List.append_assoc]
  exact TypeExpr.readUnion_of_alternatives hoperand hmore

/-- One more operand of a union is read behind its bar, and then those behind. -/
theorem Takes.alternative (hfirst : (optional t).Takes head)
    (hothers : (alternatives ts).Takes tail)
    (spelled : Spells (.alternatives ts) (tail.map Lexeme.kind)) {bar : Lexeme}
    (hbar : bar.kind = .symbol .pipe) :
    (alternatives (t :: ts)).Takes (bar :: (head ++ tail)) := by
  intro bound rest hbound hrest
  rw [List.length_cons, List.length_append] at hbound
  exact separated_cons_append hbar (hfirst (by omega) (spelled.avoids_alternatives hrest))
    (hothers (by omega) hrest)

/-- Arguments in brackets are read whatever stands behind, since the closing one ends them. -/
theorem Takes.args (hfirst : (TypeForm.union t).Takes head) (hothers : (moreArgs ts).Takes tail)
    (spelled : Spells (.moreArgs ts) (tail.map Lexeme.kind)) {opening closing : Lexeme}
    (hopening : opening.kind = .symbol .leftBracket)
    (hclosing : closing.kind = .symbol .rightBracket) :
    (TypeForm.args (t :: ts)).Takes (opening :: (head ++ tail ++ [closing])) := by
  intro bound rest hbound _
  simp only [List.length_cons, List.length_append, List.length_nil] at hbound
  have hends : Avoids (moreArgs ts).continuations (closing :: rest) :=
    avoids_continuations hclosing (by simp [continuations]) rest
  have hargument : IsRead bound (head ++ (tail ++ closing :: rest)) (tail ++ closing :: rest)
      (.union t) := hfirst (by omega) (spelled.avoids_moreArgs hends)
  have hmore : IsRead bound (tail ++ closing :: rest) (closing :: rest) (.moreArgs ts) :=
    hothers (by omega) hends
  rw [List.cons_append, List.append_assoc, List.append_assoc]
  exact TypeExpr.readArgs_of_moreArgs hopening hclosing hargument
    (hmore bound (by rw [List.length_append]; omega))

/-- One more argument is read behind its comma, and then those behind. -/
theorem Takes.moreArgs (hfirst : (TypeForm.union t).Takes head)
    (hothers : (TypeForm.moreArgs ts).Takes tail)
    (spelled : Spells (.moreArgs ts) (tail.map Lexeme.kind)) {comma : Lexeme}
    (hcomma : comma.kind = .symbol .comma) :
    (TypeForm.moreArgs (t :: ts)).Takes (comma :: (head ++ tail)) := by
  intro bound rest hbound hrest
  rw [List.length_cons, List.length_append] at hbound
  exact separated_cons_append hcomma
    (hfirst (by omega) (spelled.avoids_moreArgs hrest)) (hothers (by omega) hrest)

end Takes

/-- What spells a form is read as that form. -/
theorem takes_of_spells {form : TypeForm} {ks : List TokenKind} (h : form.Spells ks)
    {pre : List Lexeme} (hpre : pre.map Lexeme.kind = ks) : form.Takes pre := by
  -- over the derivation: the lexemes are split where the token kinds of the parts are
  induction h generalizing pre with
  | base b =>
    obtain ⟨l, rfl, hl⟩ := List.map_eq_singleton_iff.1 hpre
    exact takes_base hl
  | group inner ih =>
    obtain ⟨opening, behind, rfl, hopening, hbehind⟩ := List.map_eq_cons_iff.1 hpre
    obtain ⟨operand, last, rfl, hoperand, hlast⟩ := List.map_eq_append_iff.1 hbehind
    obtain ⟨closing, rfl, hclosing⟩ := List.map_eq_singleton_iff.1 hlast
    exact (ih hoperand).group hopening hclosing
  | aliasRef nonempty noKeyword isAlias => exact takes_aliasRef nonempty noKeyword isAlias hpre
  | classRef nonempty noKeyword isClass args ih =>
    obtain ⟨head, tail, rfl, hhead, rfl⟩ := List.map_eq_append_iff.1 hpre
    exact (ih rfl).classRef args nonempty noKeyword isClass hhead
  | plain operand ih => exact (ih hpre).plain
  | marked operand ih =>
    obtain ⟨first, last, rfl, hfirst, hlast⟩ := List.map_eq_append_iff.1 hpre
    obtain ⟨question, rfl, hquestion⟩ := List.map_eq_singleton_iff.1 hlast
    exact (ih hfirst).marked hquestion
  | union first others ihfirst ihothers =>
    obtain ⟨head, tail, rfl, hhead, rfl⟩ := List.map_eq_append_iff.1 hpre
    exact (ihfirst hhead).union (ihothers rfl) others
  | noAlternative =>
    intro bound rest _ hrest n _
    rw [List.map_eq_nil_iff.1 hpre]
    exact separated_of_avoids hrest (by simp [continuations]) n
  | alternative first others ihfirst ihothers =>
    obtain ⟨bar, behind, rfl, hbar, hbehind⟩ := List.map_eq_cons_iff.1 hpre
    obtain ⟨head, tail, rfl, hhead, rfl⟩ := List.map_eq_append_iff.1 hbehind
    exact (ihfirst hhead).alternative (ihothers rfl) others hbar
  | noArgs =>
    intro bound rest _ hrest
    rw [List.map_eq_nil_iff.1 hpre]
    exact TypeExpr.readArgs_of_avoids hrest (by simp [continuations]) bound
  | args first others ihfirst ihothers =>
    obtain ⟨opening, behind, rfl, hopening, hbehind⟩ := List.map_eq_cons_iff.1 hpre
    obtain ⟨list, last, rfl, hlist, hlast⟩ := List.map_eq_append_iff.1 hbehind
    obtain ⟨head, tail, rfl, hhead, rfl⟩ := List.map_eq_append_iff.1 hlist
    obtain ⟨closing, rfl, hclosing⟩ := List.map_eq_singleton_iff.1 hlast
    exact (ihfirst hhead).args (ihothers rfl) others hopening hclosing
  | noMoreArgs =>
    intro bound rest _ hrest n _
    rw [List.map_eq_nil_iff.1 hpre]
    exact separated_of_avoids hrest (by simp [continuations]) n
  | moreArgs first others ihfirst ihothers =>
    obtain ⟨comma, behind, rfl, hcomma, hbehind⟩ := List.map_eq_cons_iff.1 hpre
    obtain ⟨head, tail, rfl, hhead, rfl⟩ := List.map_eq_append_iff.1 hbehind
    exact (ihfirst hhead).moreArgs (ihothers rfl) others hcomma

/-- What spells a type is read as that type, unless it goes on behind. -/
theorem isRead_of_spells {form : TypeForm} {ks : List TokenKind} (h : form.Spells ks)
    {bound : Nat} {pre rest : List Lexeme} (hpre : pre.map Lexeme.kind = ks)
    (hbound : ks.length ≤ bound) (hrest : Avoids form.continuations rest) :
    form.IsRead bound (pre ++ rest) rest := by
  rw [← hpre, List.length_map] at hbound
  exact takes_of_spells h hpre hbound hrest

end TypeForm

end ModelSignatures
