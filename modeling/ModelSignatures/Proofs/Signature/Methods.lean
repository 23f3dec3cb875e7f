import ModelSignatures.Signature.Reading
import ModelSignatures.Proofs.TypeExpr.Grammar

/-!
# The grammar of methods

What spells a method behind its keyword. Only names of methods depend on more than the kinds of
their tokens: a suffix has to touch the word before it. As for types, the readers take just what
spells what they answer with, and they take all of it where it cannot go on.
-/

namespace ModelSignatures

open Reading (Avoids avoids_cons avoids_append avoids_append_of_not_mem symbol symbol_cons
  eq_cons_of_symbol word word_cons word_reads separated separated_of_avoids separated_reads
  separated_of_repeated)

@[simp] theorem Lexeme.map_kind_map_piece (ls : List Lexeme) :
    (ls.map Lexeme.piece).map Piece.kind = ls.map Lexeme.kind := by
  rw [List.map_map]
  rfl

/-- Things with a separator between each two of them. -/
inductive Listed {α : Type} (separator : Symbol) (P : α → List TokenKind → Prop) :
    List α → List TokenKind → Prop
  | nil : Listed separator P [] []
  | cons {x : α} {xs : List α} {ks more : List TokenKind} (head : P x ks)
      (tail : Repeated separator P xs more) : Listed separator P (x :: xs) (ks ++ more)

/-! ### Names of methods -/

namespace Method

/-- The character that a symbol adds to the name of a method. -/
def suffixChar? : Symbol → Option Char
  | .question => some '?'
  | .bang => some '!'
  | .equals => some '='
  | _ => none

/-- What spells the name of a method. -/
inductive NameSpells : String → List Piece → Prop
  | plain (text : String) (glued : Bool) : NameSpells text [⟨.word text, glued⟩]
  | suffixed (stem : String) (glued : Bool) {s : Symbol} {c : Char}
      (suffix : suffixChar? s = some c) :
      NameSpells (stem.push c) [⟨.word stem, glued⟩, ⟨.symbol s, true⟩]

/-- A method's name begins with a word, which may be a keyword. -/
theorem NameSpells.head {name : String} {ps : List Piece} (h : NameSpells name ps) :
    ∃ text glued more, ps = ⟨.word text, glued⟩ :: more := by
  cases h with
  | plain => exact ⟨_, _, _, rfl⟩
  | suffixed => exact ⟨_, _, _, rfl⟩

/-- A symbol that touches the name is its suffix. -/
theorem suffix?_cons {l : Lexeme} {s : Symbol} {c : Char} (hl : l.piece = ⟨.symbol s, true⟩)
    (hs : suffixChar? s = some c) (ls : List Lexeme) : suffix? (l :: ls) = some (c, ls) := by
  cases l
  cases hl
  cases s <;> cases hs <;> rfl

/-- A suffix that is read is a symbol that touches what stands before it. -/
theorem eq_cons_of_suffix? {ls rest : List Lexeme} {c : Char} (h : suffix? ls = some (c, rest)) :
    ∃ l s, ls = l :: rest ∧ l.piece = ⟨.symbol s, true⟩ ∧ suffixChar? s = some c := by
  unfold suffix? at h
  split at h
  · cases h
    exact ⟨_, _, rfl, rfl, rfl⟩
  · cases h
    exact ⟨_, _, rfl, rfl, rfl⟩
  · cases h
    exact ⟨_, _, rfl, rfl, rfl⟩
  · cases h

/-- Where no symbol of a suffix comes next there is no suffix. -/
theorem suffix?_eq_none {rest : List Lexeme} (h : Avoids [.question, .bang, .equals] rest) :
    suffix? rest = none := by
  unfold suffix?
  split
  · exact absurd rfl (h _ rfl .question (by simp))
  · exact absurd rfl (h _ rfl .bang (by simp))
  · exact absurd rfl (h _ rfl .equals (by simp))
  · rfl

/-- What is read as a name spells it, be it a word alone or with a suffix. -/
theorem readName_reads :
    Reader.Reads readName fun name pre ↦ NameSpells name (pre.map Lexeme.piece) := by
  intro ls name rest h
  rw [readName, Except.bind_eq_ok_iff] at h
  obtain ⟨⟨stem, behind⟩, hstem, h⟩ := h
  obtain ⟨pre, rfl, hpre⟩ := word_reads _ hstem
  obtain ⟨l, rfl, hl⟩ := List.map_eq_singleton_iff.1 hpre
  have hpiece : l.piece = ⟨.word stem, l.glued⟩ := by rw [← hl]; rfl
  dsimp only at h
  split at h
  next c behind' hsuffix =>
    cases h
    obtain ⟨l', s, rfl, hl', hs⟩ := eq_cons_of_suffix? hsuffix
    refine ⟨[l, l'], rfl, ?_⟩
    show NameSpells _ [l.piece, l'.piece]
    rw [hpiece, hl']
    exact .suffixed stem _ hs
  · cases h
    refine ⟨[l], rfl, ?_⟩
    show NameSpells _ [l.piece]
    rw [hpiece]
    exact .plain _ _

/-- What spells a name is read as that name, unless one more symbol could be its suffix. -/
theorem readName_of_spells {name : String} {ps : List Piece} (h : NameSpells name ps)
    {pre rest : List Lexeme} (hpre : pre.map Lexeme.piece = ps)
    (hrest : Avoids [.question, .bang, .equals] rest) :
    readName (pre ++ rest) = .ok (name, rest) := by
  cases h with
  | plain text glued =>
    obtain ⟨l, rfl, hl⟩ := List.map_eq_singleton_iff.1 hpre
    rw [List.singleton_append, readName, word_cons (congrArg Piece.kind hl)]
    simp only [Except.ok_bind, suffix?_eq_none hrest]
    rfl
  | suffixed stem glued suffix =>
    obtain ⟨l, tail, rfl, hl, htail⟩ := List.map_eq_cons_iff.1 hpre
    obtain ⟨l', rfl, hl'⟩ := List.map_eq_singleton_iff.1 htail
    rw [List.cons_append, List.singleton_append, readName, word_cons (congrArg Piece.kind hl)]
    simp only [Except.ok_bind, suffix?_cons hl' suffix]
    rfl

/-- What marks a method of the class itself. -/
def singletonKinds (singleton : Bool) : List TokenKind :=
  if singleton then [.word "self", .symbol .dot] else []

/-- Of a singleton's method `self` and the dot are read, and nothing of any other. -/
theorem eq_append_of_readSingleton {ls rest : List Lexeme} {singleton : Bool}
    (h : readSingleton ls = (singleton, rest)) :
    ∃ pre, ls = pre ++ rest ∧ pre.map Lexeme.kind = singletonKinds singleton := by
  unfold readSingleton at h
  split at h
  · cases h
    exact ⟨[_, _], rfl, rfl⟩
  · cases h
    exact ⟨[], rfl, rfl⟩

/-- What marks a method of the class itself is told from a name, behind which no dot stands. -/
theorem readSingleton_append {singleton : Bool} {pre rest : List Lexeme}
    (hpre : pre.map Lexeme.kind = singletonKinds singleton)
    (hrest : ∃ l ls, rest = l :: ls ∧ Avoids [.dot] ls) :
    readSingleton (pre ++ rest) = (singleton, rest) := by
  cases singleton with
  | true =>
    obtain ⟨l, tail, rfl, hl, htail⟩ := List.map_eq_cons_iff.1 hpre
    obtain ⟨l', rfl, hl'⟩ := List.map_eq_singleton_iff.1 htail
    cases l
    cases l'
    cases hl
    cases hl'
    rfl
  | false =>
    rw [List.map_eq_nil_iff.1 hpre, List.nil_append]
    obtain ⟨l, ls, rfl, hls⟩ := hrest
    unfold readSingleton
    split
    next heq =>
      cases heq
      exact absurd rfl (hls _ rfl .dot List.mem_cons_self)
    · rfl

end Method

/-! ### Parameters -/

/-- What tells how a parameter is passed. -/
def ParamKind.kinds : ParamKind → List TokenKind
  | required => []
  | optional => [.symbol .question]
  | rest => [.symbol .star]
  | requiredKeyword key => [.word key, .symbol .colon]
  | optionalKeyword key => [.symbol .question, .word key, .symbol .colon]
  | keywordRest => [.symbol .starStar]

/-- The kind of a parameter is told by the lexemes that are taken for it. -/
theorem ParamKind.eq_append_of_read {kind : ParamKind} {ls rest : List Lexeme}
    (h : ParamKind.read ls = (kind, rest)) :
    ∃ pre, ls = pre ++ rest ∧ pre.map Lexeme.kind = kind.kinds := by
  unfold ParamKind.read at h
  split at h
  · cases h
    exact ⟨[_], rfl, rfl⟩
  · cases h
    exact ⟨[_], rfl, rfl⟩
  · cases h
    exact ⟨[_, _, _], rfl, rfl⟩
  · cases h
    exact ⟨[_], rfl, rfl⟩
  · cases h
    exact ⟨[_, _], rfl, rfl⟩
  · cases h
    exact ⟨[], rfl, rfl⟩

namespace TypeForm

/-- A token that a type can begin with. -/
def BeginsType (kind : TokenKind) : Prop :=
  kind = .symbol .leftParen ∨ kind = .symbol .colonColon ∨ ∃ text, kind = .word text

/-- A name begins with a word or a `::`, as types may. -/
theorem beginsType_head_kinds {name : TypeName} (h : name.path ≠ []) :
    ∃ k more, name.kinds = k :: more ∧ BeginsType k := by
  obtain ⟨absolute, path⟩ := name
  rcases path with - | ⟨first, others⟩
  · exact absurd rfl h
  · cases absolute with
    | true => exact ⟨_, _, rfl, Or.inr (Or.inl rfl)⟩
    | false => exact ⟨_, _, rfl, Or.inr (Or.inr ⟨first, rfl⟩)⟩

/-- No single colon is part of a name, so names and keywords are told apart by it. -/
theorem colon_not_mem_kinds (name : TypeName) : .symbol .colon ∉ name.kinds := by
  obtain ⟨absolute, path⟩ := name
  cases path <;> cases absolute <;> simp [TypeName.kinds]

/-- No colon stands in a type. -/
theorem Spells.colon_not_mem {form : TypeForm} {ks : List TokenKind} (h : form.Spells ks) :
    .symbol .colon ∉ ks := by
  induction h with
  | aliasRef => exact colon_not_mem_kinds _
  | classRef _ _ _ _ ih =>
    rw [List.mem_append, not_or]
    exact ⟨colon_not_mem_kinds _, ih⟩
  | _ => simp [*]

/-- Whether the form is that of a single type. -/
def IsType : TypeForm → Prop
  | primary _ | optional _ | union _ => True
  | alternatives _ | args _ | moreArgs _ => False

/-- A type begins with a word, a `::` or a parenthesis, so no mark of a parameter's kind is mistaken
for it. -/
theorem Spells.head {form : TypeForm} {ks : List TokenKind} (h : form.Spells ks)
    (hform : form.IsType) : ∃ k more, ks = k :: more ∧ BeginsType k := by
  induction h with
  | base b => exact ⟨_, _, rfl, Or.inr (Or.inr ⟨_, rfl⟩)⟩
  | group => exact ⟨_, _, rfl, Or.inl rfl⟩
  | aliasRef nonempty => exact beginsType_head_kinds nonempty
  | classRef nonempty =>
    obtain ⟨k, more, heq, hk⟩ := beginsType_head_kinds nonempty
    exact ⟨k, _, by rw [heq]; rfl, hk⟩
  | plain _ ih => exact ih trivial
  | marked _ ih | union _ _ ih =>
    obtain ⟨k, more, rfl, hk⟩ := ih trivial
    exact ⟨k, _, rfl, hk⟩
  | _ => exact hform.elim

end TypeForm

open TypeForm (BeginsType)

/-- A type is not taken for a mark or a keyword, since it begins with neither. -/
theorem ParamKind.read_of_beginsType (mark : Lexeme) (hmark : mark.kind = .symbol .question)
    {l : Lexeme} {ls : List Lexeme} (hl : BeginsType l.kind) (hls : Avoids [.colon] ls) :
    ParamKind.read (l :: ls) = (required, l :: ls) ∧
      ParamKind.read (mark :: l :: ls) = (optional, l :: ls) := by
  cases mark
  cases hmark
  cases l
  rcases hl with rfl | rfl | ⟨text, rfl⟩
  · exact ⟨rfl, rfl⟩
  · exact ⟨rfl, rfl⟩
  · -- a word is a keyword only in front of a colon
    cases ls with
    | nil => exact ⟨rfl, rfl⟩
    | cons next ls =>
      have hnext : next.kind ≠ .symbol .colon := hls next rfl .colon List.mem_cons_self
      obtain ⟨kind⟩ := next
      cases kind with
      | symbol s =>
        cases s with
        | colon => exact absurd rfl hnext
        | _ => exact ⟨rfl, rfl⟩
      | _ => exact ⟨rfl, rfl⟩

/-- The kind of a parameter is read in front of its type, unless a colon makes a keyword of the
type's first word. -/
theorem ParamKind.read_append {kind : ParamKind} {pre : List Lexeme} {l : Lexeme}
    {ls : List Lexeme} (hpre : pre.map Lexeme.kind = kind.kinds) (hl : BeginsType l.kind)
    (hls : Avoids [.colon] ls) : ParamKind.read (pre ++ l :: ls) = (kind, l :: ls) := by
  cases kind with
  | required =>
    rw [List.map_eq_nil_iff.1 hpre]
    exact (read_of_beginsType { l with kind := .symbol .question } rfl hl hls).1
  | optional =>
    obtain ⟨mark, rfl, hmark⟩ := List.map_eq_singleton_iff.1 hpre
    exact (read_of_beginsType mark hmark hl hls).2
  | rest | keywordRest =>
    obtain ⟨mark, rfl, hmark⟩ := List.map_eq_singleton_iff.1 hpre
    cases mark
    cases hmark
    rfl
  | requiredKeyword key =>
    obtain ⟨word, tail, rfl, hword, htail⟩ := List.map_eq_cons_iff.1 hpre
    obtain ⟨colon, rfl, hcolon⟩ := List.map_eq_singleton_iff.1 htail
    cases word
    cases colon
    cases hword
    cases hcolon
    rfl
  | optionalKeyword key =>
    obtain ⟨mark, tail, rfl, hmark, htail⟩ := List.map_eq_cons_iff.1 hpre
    obtain ⟨word, last, rfl, hword, hlast⟩ := List.map_eq_cons_iff.1 htail
    obtain ⟨colon, rfl, hcolon⟩ := List.map_eq_singleton_iff.1 hlast
    cases mark
    cases word
    cases colon
    cases hmark
    cases hword
    cases hlast
    rfl

namespace Param

/-- What spells a parameter. -/
inductive Spells : Param → List TokenKind → Prop
  | mk {kind : ParamKind} {type : TypeExpr} {name : Option String} {ks : List TokenKind}
      (spelled : TypeForm.Spells (.union type) ks) :
      Spells ⟨kind, type, name⟩ (kind.kinds ++ (ks ++ (name.map .word).toList))

/-- A parameter's name is at most one word. -/
theorem eq_append_of_readName {ls rest : List Lexeme} {name : Option String}
    (h : Param.readName ls = (name, rest)) :
    ∃ pre, ls = pre ++ rest ∧ pre.map Lexeme.kind = (name.map TokenKind.word).toList := by
  unfold Param.readName at h
  split at h
  · cases h
    exact ⟨[_], rfl, rfl⟩
  · cases h
    exact ⟨[], rfl, rfl⟩

/-- A name is read where a symbol stands behind, or nothing. -/
theorem readName_append {name : Option String} {pre rest : List Lexeme}
    (hpre : pre.map Lexeme.kind = (name.map TokenKind.word).toList)
    (hrest : ∀ l ∈ rest.head?, ∃ s, l.kind = .symbol s) :
    Param.readName (pre ++ rest) = (name, rest) := by
  cases name with
  | none =>
    rw [List.map_eq_nil_iff.1 hpre, List.nil_append]
    unfold Param.readName
    split
    · obtain ⟨s, hs⟩ := hrest _ rfl
      cases hs
    · rfl
  | some name =>
    obtain ⟨l, rfl, hl⟩ := List.map_eq_singleton_iff.1 hpre
    cases l
    cases hl
    rfl

/-- What is read as a parameter spells it: its kind, its type and its name, if it has one. -/
theorem read_reads (bound : Nat) :
    Reader.Reads (Param.read bound) fun p pre ↦ Spells p (pre.map Lexeme.kind) := by
  intro ls p rest h
  rw [Param.read] at h
  generalize hkind : ParamKind.read ls = kind at h
  obtain ⟨kind, behind⟩ := kind
  rw [Except.bind_eq_ok_iff] at h
  obtain ⟨⟨type, behind'⟩, htype, h⟩ := h
  dsimp only at h
  generalize hname : Param.readName behind' = name at h
  obtain ⟨name, behind''⟩ := name
  cases h
  obtain ⟨pre, rfl, hpre⟩ := ParamKind.eq_append_of_read hkind
  obtain ⟨pre', rfl, hpre'⟩ := TypeExpr.read_reads bound htype
  obtain ⟨pre'', rfl, hpre''⟩ := eq_append_of_readName hname
  refine ⟨pre ++ (pre' ++ pre''), by simp, ?_⟩
  show Spells _ _
  rw [List.map_append, List.map_append, hpre, hpre'']
  exact .mk hpre'

/-- Whether a comma or the parenthesis that closes the parameters comes next. -/
def Ends (rest : List Lexeme) : Prop :=
  ∃ l ls, rest = l :: ls ∧ (l.kind = .symbol .comma ∨ l.kind = .symbol .rightParen)

/-- A parameter ends before a comma or a parenthesis, which no type goes on with. -/
theorem Ends.avoids {rest : List Lexeme} (h : Ends rest) {symbols : List Symbol}
    (hcomma : .comma ∉ symbols) (hparen : .rightParen ∉ symbols) : Avoids symbols rest := by
  obtain ⟨l, ls, rfl, hl | hl⟩ := h
  · refine avoids_cons fun s hs ↦ ?_
    rw [hl]
    rintro ⟨⟩
    exact hcomma hs
  · refine avoids_cons fun s hs ↦ ?_
    rw [hl]
    rintro ⟨⟩
    exact hparen hs

/-- What spells a parameter is read as it in front of a comma or a parenthesis. -/
theorem read_of_spells {p : Param} {ks : List TokenKind} (h : Spells p ks) {bound : Nat}
    {pre rest : List Lexeme} (hpre : pre.map Lexeme.kind = ks) (hbound : ks.length ≤ bound)
    (hrest : Ends rest) : Param.read bound (pre ++ rest) = .ok (p, rest) := by
  obtain @⟨kind, t, paramName, ks, spelled⟩ := h
  obtain ⟨mark, tail, rfl, hmark, htail⟩ := List.map_eq_append_iff.1 hpre
  obtain ⟨type, name, rfl, htype, hname⟩ := List.map_eq_append_iff.1 htail
  rw [List.length_append, List.length_append] at hbound
  -- neither the name nor what follows it could go on with the type
  have hbehind : ∀ {symbols : List Symbol}, .comma ∉ symbols → .rightParen ∉ symbols →
      Avoids symbols (name ++ rest) := by
    intro symbols hcomma hparen
    rcases name with - | ⟨l, name⟩
    · exact hrest.avoids hcomma hparen
    · refine avoids_cons fun s _ ↦ ?_
      rw [List.map_cons] at hname
      intro hl
      rw [hl] at hname
      obtain ⟨text, -, htext⟩ := List.mem_map.1
        (by rw [← Option.toList_map, ← hname]; exact List.mem_cons_self)
      cases htext
  obtain ⟨k, more, hks, hk⟩ := spelled.head trivial
  obtain ⟨l, type, rfl, hl, -⟩ := List.map_eq_cons_iff.1 (htype.trans hks)
  have hcolon : Avoids [.colon] (type ++ (name ++ rest)) := by
    refine avoids_append_of_not_mem (fun hmem ↦ spelled.colon_not_mem ?_)
      (hbehind (by decide) (by decide))
    rw [← htype]
    exact List.mem_cons_of_mem _ hmem
  have hread : TypeExpr.read bound (l :: (type ++ (name ++ rest))) = .ok (t, name ++ rest) :=
    TypeForm.isRead_of_spells spelled htype (by omega)
      (hbehind (by simp [TypeForm.continuations]) (by simp [TypeForm.continuations]))
  rw [List.append_assoc, List.append_assoc, Param.read, List.cons_append,
    ParamKind.read_append hmark (hl ▸ hk) hcolon]
  show (TypeExpr.read bound (l :: (type ++ (name ++ rest))) >>= _) = _
  rw [hread]
  simp only [Except.ok_bind]
  rw [readName_append hname fun l hl ↦ ?_]
  · rfl
  · obtain ⟨l', ls, rfl, h | h⟩ := hrest
    · cases hl
      exact ⟨_, h⟩
    · cases hl
      exact ⟨_, h⟩

end Param

/-! ### Overloads -/

/-- A parameter does not begin with a closing parenthesis, so an empty list is told apart from one
with parameters. -/
theorem Param.Spells.head {p : Param} {ks : List TokenKind} (h : p.Spells ks) :
    ∃ k more, ks = k :: more ∧ k ≠ .symbol .rightParen := by
  obtain @⟨kind, type, name, ks, spelled⟩ := h
  cases kind with
  | required =>
    obtain ⟨k, more, rfl, hk⟩ := spelled.head trivial
    refine ⟨k, more ++ _, rfl, ?_⟩
    rcases hk with rfl | rfl | ⟨text, rfl⟩ <;> simp
  | _ => exact ⟨_, _, rfl, by simp⟩

namespace Overload

/-- What spells one way to call a method. -/
inductive Spells : Overload → List TokenKind → Prop
  | mk {params : List Param} {result : TypeExpr} {ks more : List TokenKind}
      (listed : Listed .comma Param.Spells params ks)
      (spelled : TypeForm.Spells (.optional result) more) :
      Spells ⟨params, result⟩
        (.symbol .leftParen :: (ks ++ .symbol .rightParen :: .symbol .arrow :: more))

/-- What is read between parentheses is a list of parameters with commas between them. -/
theorem readParams_reads (bound : Nat) :
    Reader.Reads (readParams bound) fun ps pre ↦
      Listed .comma Param.Spells ps (pre.map Lexeme.kind) := by
  intro ls ps rest h
  unfold readParams at h
  split at h
  · cases h
    exact ⟨[], rfl, .nil⟩
  · rw [Except.bind_eq_ok_iff] at h
    obtain ⟨⟨first, behind⟩, hfirst, h⟩ := h
    dsimp only at h
    rw [Except.bind_eq_ok_iff] at h
    obtain ⟨⟨others, behind'⟩, hothers, h⟩ := h
    cases h
    obtain ⟨pre, rfl, hpre⟩ := Param.read_reads bound hfirst
    obtain ⟨pre', rfl, hpre'⟩ := separated_reads (Param.read_reads bound) bound hothers
    refine ⟨pre ++ pre', by rw [List.append_assoc], ?_⟩
    show Listed _ _ _ _
    rw [List.map_append]
    exact .cons hpre hpre'

/-- Behind the parameters only the parenthesis that closes them may stand. -/
theorem readParams_of_listed {ps : List Param} {ks : List TokenKind}
    (h : Listed .comma Param.Spells ps ks) {bound : Nat} {pre rest : List Lexeme} {l : Lexeme}
    (hpre : pre.map Lexeme.kind = ks) (hbound : ks.length ≤ bound)
    (hl : l.kind = .symbol .rightParen) :
    readParams bound (pre ++ l :: rest) = .ok (ps, l :: rest) := by
  cases h with
  | nil =>
    rw [List.map_eq_nil_iff.1 hpre, List.nil_append]
    cases l
    cases hl
    rfl
  | cons head tail =>
    obtain ⟨first, others, rfl, hfirst, hothers⟩ := List.map_eq_append_iff.1 hpre
    rw [List.length_append] at hbound
    have hends : ∀ {l : Lexeme} {ls : List Lexeme}, l.kind = .symbol .comma →
        Param.Ends (l :: ls) := fun hl ↦ ⟨_, _, rfl, Or.inl hl⟩
    have hrest : Param.Ends (l :: rest) := ⟨_, _, rfl, Or.inr hl⟩
    have hmore : separated .comma (Param.read bound) bound (others ++ l :: rest) =
        .ok (_, l :: rest) := separated_of_repeated
      (fun hspells hsize hpre hrest ↦ Param.read_of_spells hspells hpre hsize hrest) hends tail
      hothers (Nat.le_of_add_left_le hbound) (Nat.le_of_add_left_le hbound) hrest
      (avoids_cons (by simp [hl]))
    have hread : Param.read bound (first ++ (others ++ l :: rest)) = .ok (_, others ++ l :: rest) :=
      Param.read_of_spells head hfirst (by omega) ?_
    · obtain ⟨k, more, rfl, hk⟩ := head.head
      obtain ⟨l', first, rfl, rfl, -⟩ := List.map_eq_cons_iff.1 hfirst
      rw [List.append_assoc]
      rw [List.cons_append] at hread ⊢
      unfold readParams
      split
      next heq =>
        cases heq
        exact absurd rfl hk
      · rw [hread]
        simp only [Except.ok_bind, hmore]
        rfl
    · cases tail with
      | nil =>
        rw [List.map_eq_nil_iff.1 hothers]
        exact hrest
      | cons =>
        obtain ⟨l', others, rfl, hl', -⟩ := List.map_eq_cons_iff.1 hothers
        exact hends hl'

/-- What is read as an overload spells it: its parameters, an arrow and its result. -/
theorem read_reads (bound : Nat) :
    Reader.Reads (Overload.read bound) fun o pre ↦ Spells o (pre.map Lexeme.kind) := by
  intro ls o rest h
  rw [Overload.read, Except.bind_eq_ok_iff] at h
  obtain ⟨behind, hopening, h⟩ := h
  rw [Except.bind_eq_ok_iff] at h
  obtain ⟨⟨params, behind'⟩, hparams, h⟩ := h
  dsimp only at h
  rw [Except.bind_eq_ok_iff] at h
  obtain ⟨closed, hclosing, h⟩ := h
  rw [Except.bind_eq_ok_iff] at h
  obtain ⟨pointed, harrow, h⟩ := h
  rw [Except.bind_eq_ok_iff] at h
  obtain ⟨⟨result, behind''⟩, hresult, h⟩ := h
  cases h
  obtain ⟨opening, rfl, openingKind⟩ := eq_cons_of_symbol hopening
  obtain ⟨pre, rfl, hpre⟩ := readParams_reads bound hparams
  obtain ⟨closing, rfl, closingKind⟩ := eq_cons_of_symbol hclosing
  obtain ⟨arrow, rfl, arrowKind⟩ := eq_cons_of_symbol harrow
  obtain ⟨pre', rfl, hpre'⟩ :=
    TypeExpr.readOptional_reads (TypeExpr.readPrimary_reads bound) hresult
  refine ⟨opening :: (pre ++ closing :: arrow :: pre'), by simp, ?_⟩
  show Spells _ _
  rw [List.map_cons, List.map_append, List.map_cons, List.map_cons, openingKind, closingKind,
    arrowKind]
  exact .mk hpre hpre'

/-- What spells an overload is read as it, unless its result could go on. -/
theorem read_of_spells {o : Overload} {ks : List TokenKind} (h : o.Spells ks) {bound : Nat}
    {pre rest : List Lexeme} (hpre : pre.map Lexeme.kind = ks) (hbound : ks.length ≤ bound)
    (hrest : Avoids [.colonColon, .leftBracket, .question] rest) :
    Overload.read bound (pre ++ rest) = .ok (o, rest) := by
  obtain @⟨ps, t, ks, more, listed, spelled⟩ := h
  obtain ⟨opening, behind, rfl, hopening, hbehind⟩ := List.map_eq_cons_iff.1 hpre
  obtain ⟨params, behind, rfl, hparams, hbehind⟩ := List.map_eq_append_iff.1 hbehind
  obtain ⟨closing, behind, rfl, hclosing, hbehind⟩ := List.map_eq_cons_iff.1 hbehind
  obtain ⟨arrow, result, rfl, harrow, hresult⟩ := List.map_eq_cons_iff.1 hbehind
  simp only [List.length_cons, List.length_append] at hbound
  have hread : TypeExpr.readOptional (TypeExpr.readPrimary bound) (result ++ rest) =
      .ok (t, rest) := TypeForm.isRead_of_spells spelled hresult (by omega) hrest
  rw [List.cons_append, List.append_assoc, List.cons_append, List.cons_append, Overload.read,
    symbol_cons hopening]
  simp only [Except.ok_bind]
  rw [readParams_of_listed listed hparams (by omega) hclosing]
  simp only [Except.ok_bind]
  rw [symbol_cons hclosing]
  simp only [Except.ok_bind]
  rw [symbol_cons harrow]
  simp only [Except.ok_bind]
  rw [hread]
  rfl

end Overload

/-! ### Methods -/

namespace Method

/-- What spells a method behind its keyword. -/
inductive Spells : Method → List Piece → Prop
  | mk {name : String} {singleton : Bool} {first : Overload} {others : List Overload}
      {self stem signature : List Piece} {ks more : List TokenKind}
      (marked : self.map Piece.kind = singletonKinds singleton) (named : NameSpells name stem)
      (spelled : first.Spells ks) (repeated : Repeated .pipe Overload.Spells others more)
      (typed : signature.map Piece.kind = .symbol .colon :: (ks ++ more)) :
      Spells ⟨name, singleton, first :: others⟩ (self ++ (stem ++ signature))

/-- What is read as a method spells it, one overload behind the other. -/
theorem read_reads (bound : Nat) :
    Reader.Reads (Method.read bound) fun m pre ↦ Spells m (pre.map Lexeme.piece) := by
  intro ls m rest h
  rw [Method.read] at h
  generalize hsingleton : readSingleton ls = marked at h
  obtain ⟨singleton, behind⟩ := marked
  rw [Except.bind_eq_ok_iff] at h
  obtain ⟨⟨name, behind'⟩, hname, h⟩ := h
  dsimp only at h
  rw [Except.bind_eq_ok_iff] at h
  obtain ⟨typed, hcolon, h⟩ := h
  rw [Except.bind_eq_ok_iff] at h
  obtain ⟨⟨first, behind''⟩, hfirst, h⟩ := h
  dsimp only at h
  rw [Except.bind_eq_ok_iff] at h
  obtain ⟨⟨others, behindAll⟩, hothers, h⟩ := h
  cases h
  obtain ⟨self, rfl, hself⟩ := eq_append_of_readSingleton hsingleton
  obtain ⟨stem, rfl, hstem⟩ := readName_reads hname
  obtain ⟨colon, rfl, colonKind⟩ := eq_cons_of_symbol hcolon
  obtain ⟨pre, rfl, hpre⟩ := Overload.read_reads bound hfirst
  obtain ⟨pre', rfl, hpre'⟩ := separated_reads (Overload.read_reads bound) bound hothers
  refine ⟨self ++ (stem ++ colon :: (pre ++ pre')), by simp, ?_⟩
  show Spells _ _
  rw [List.map_append, List.map_append]
  refine .mk (by rw [Lexeme.map_kind_map_piece, hself]) hstem hpre hpre' ?_
  rw [Lexeme.map_kind_map_piece, List.map_cons, List.map_append, colonKind]

/-- Behind the word that begins a name no dot stands, where the name is that of a typed method. -/
theorem NameSpells.eq_cons {name : String} {ps : List Piece} (h : NameSpells name ps)
    {pre rest : List Lexeme} (hpre : pre.map Lexeme.piece = ps) (hrest : Avoids [.dot] rest) :
    ∃ l ls, pre ++ rest = l :: ls ∧ Avoids [.dot] ls := by
  cases h with
  | plain =>
    obtain ⟨l, rfl, -⟩ := List.map_eq_singleton_iff.1 hpre
    exact ⟨l, rest, rfl, hrest⟩
  | @suffixed stem glued s c suffix =>
    obtain ⟨l, tail, rfl, -, htail⟩ := List.map_eq_cons_iff.1 hpre
    obtain ⟨l', rfl, hl'⟩ := List.map_eq_singleton_iff.1 htail
    refine ⟨l, l' :: rest, rfl, avoids_cons fun s' hs' ↦ ?_⟩
    rw [List.mem_singleton.1 hs', show l'.kind = _ from congrArg Piece.kind hl']
    rintro ⟨⟩
    cases suffix

/-- What spells a method is read as it, unless its last result could go on or one more overload
follows. -/
theorem read_of_spells {m : Method} {ps : List Piece} (h : m.Spells ps) {bound : Nat}
    {pre rest : List Lexeme} (hpre : pre.map Lexeme.piece = ps) (hbound : ps.length ≤ bound)
    (hrest : Avoids [.colonColon, .leftBracket, .question, .pipe] rest) :
    Method.read bound (pre ++ rest) = .ok (m, rest) := by
  obtain @⟨name, singleton, first, others, _, _, _, ks, more, marked, named, spelled, repeated,
    typed⟩ := h
  obtain ⟨self, behind, rfl, rfl, hbehind⟩ := List.map_eq_append_iff.1 hpre
  obtain ⟨stem, behind, rfl, rfl, rfl⟩ := List.map_eq_append_iff.1 hbehind
  rw [Lexeme.map_kind_map_piece] at marked typed
  simp only [List.length_append, List.length_map] at hbound
  have hlength := congrArg List.length typed
  rw [List.length_map, List.length_cons, List.length_append] at hlength
  obtain ⟨colon, behind, rfl, hcolon, hbehind⟩ := List.map_eq_cons_iff.1 typed
  obtain ⟨head, tail, rfl, hhead, htail⟩ := List.map_eq_append_iff.1 hbehind
  have hstop : Avoids [.pipe] rest := hrest.mono (by simp)
  have hends : ∀ {l : Lexeme} {ls : List Lexeme}, l.kind = .symbol .pipe →
      Avoids [.colonColon, .leftBracket, .question] (l :: ls) := by
    intro l ls hl
    refine avoids_cons fun s hs ↦ ?_
    rw [hl]
    rintro ⟨⟩
    exact absurd hs (by decide)
  have hsize : more.length ≤ bound := by omega
  have hmore : separated .pipe (Overload.read bound) bound (tail ++ rest) = .ok (others, rest) :=
    separated_of_repeated
      (fun hspells hsize hpre hrest ↦ Overload.read_of_spells hspells hpre hsize hrest) hends
      repeated htail hsize hsize (hrest.mono (by simp)) hstop
  -- behind the first overload stands a bar, or what follows the method
  have hfirst : Overload.read bound (head ++ (tail ++ rest)) = .ok (first, tail ++ rest) := by
    refine Overload.read_of_spells spelled hhead (by omega) ?_
    refine avoids_append htail ?_ (s := .pipe) (by decide) (hrest.mono (by simp))
    cases repeated with
    | nil => exact Or.inl rfl
    | cons => exact Or.inr ⟨_, rfl⟩
  -- the colon behind the name is neither the dot of a receiver nor a suffix
  have hbehind : ∀ symbols : List Symbol, .colon ∉ symbols →
      Avoids symbols (colon :: (head ++ tail ++ rest)) := by
    intro symbols hcolon'
    refine avoids_cons fun s hs ↦ ?_
    rw [hcolon]
    rintro ⟨⟩
    exact hcolon' hs
  rw [List.append_assoc, List.append_assoc, List.cons_append, Method.read,
    readSingleton_append marked (named.eq_cons rfl (hbehind _ (by decide)))]
  dsimp only
  rw [readName_of_spells named rfl (hbehind _ (by decide))]
  simp only [Except.ok_bind]
  rw [symbol_cons hcolon, List.append_assoc]
  simp only [Except.ok_bind]
  rw [hfirst]
  simp only [Except.ok_bind]
  rw [hmore]
  rfl

end Method

end ModelSignatures
