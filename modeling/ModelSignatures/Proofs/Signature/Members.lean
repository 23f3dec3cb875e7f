import ModelSignatures.Proofs.Signature.Methods

/-!
# The grammar of members and headers

What spells the single line of a member or the header of a declaration. Behind either, the next
token is a word or an annotation, so nothing there could go on with what was read.
-/

namespace ModelSignatures

open Reading (Avoids avoids_cons avoids_append afterSymbol? afterSymbol?_cons afterSymbol?_eq_none
  eq_cons_of_afterSymbol? symbol symbol_cons eq_cons_of_symbol endOfLine)

/-- Whether no symbol comes next. -/
def Reading.NoSymbol (rest : List Lexeme) : Prop :=
  ∀ l ∈ rest.head?, ∀ s, l.kind ≠ .symbol s

/-- In front of no symbol every symbol is avoided. -/
theorem Reading.NoSymbol.avoids {rest : List Lexeme} (h : NoSymbol rest) (symbols : List Symbol) :
    Avoids symbols rest :=
  fun l hl s _ ↦ h l hl s

/-- A word is no symbol. -/
theorem Reading.noSymbol_cons {l : Lexeme} {text : String} (hl : l.kind = .word text)
    (rest : List Lexeme) : NoSymbol (l :: rest) := by
  rintro _ ⟨⟩ s
  rw [hl]
  simp

/-! ### Classes with arguments -/

namespace ClassType

/-- What spells a class with its arguments. -/
inductive Spells : ClassType → List TokenKind → Prop
  | mk {name : TypeName} {args : List TypeExpr} {ks : List TokenKind} (nonempty : name.path ≠ [])
      (spelled : TypeForm.Spells (.args args) ks) : Spells ⟨name, args⟩ (name.kinds ++ ks)

/-- What is read as a class with arguments is spelled by what is taken. -/
theorem read_reads (bound : Nat) :
    Reader.Reads (ClassType.read bound) fun c pre ↦ Spells c (pre.map Lexeme.kind) := by
  intro ls c rest h
  rw [ClassType.read, Except.bind_eq_ok_iff] at h
  obtain ⟨⟨name, behind⟩, hname, h⟩ := h
  dsimp only at h
  rw [Except.bind_eq_ok_iff] at h
  obtain ⟨⟨args, behind'⟩, hargs, h⟩ := h
  cases h
  obtain ⟨pre, rfl, hne, hpre⟩ := TypeName.read_reads bound hname
  obtain ⟨pre', rfl, hpre'⟩ :=
    TypeExpr.readArgs_reads (TypeExpr.readPrimary_reads bound) bound hargs
  refine ⟨pre ++ pre', by rw [List.append_assoc], ?_⟩
  show Spells _ _
  rw [List.map_append, hpre]
  exact .mk hne hpre'

/-- What spells a class with arguments is read as it, unless more of a name or arguments follow. -/
theorem read_of_spells {c : ClassType} {ks : List TokenKind} (h : c.Spells ks) {bound : Nat}
    {pre rest : List Lexeme} (hpre : pre.map Lexeme.kind = ks) (hbound : ks.length ≤ bound)
    (hrest : Avoids [.colonColon, .leftBracket] rest) :
    ClassType.read bound (pre ++ rest) = .ok (c, rest) := by
  obtain @⟨name, args, ks, nonempty, spelled⟩ := h
  obtain ⟨head, tail, rfl, hhead, htail⟩ := List.map_eq_append_iff.1 hpre
  have hlength := congrArg List.length hhead
  rw [List.length_map] at hlength
  rw [List.length_append] at hbound
  have hargs : TypeExpr.readArgs (TypeExpr.readPrimary bound) bound (tail ++ rest) =
      .ok (args, rest) := TypeForm.isRead_of_spells spelled htail (by omega)
    (hrest.mono (by simp [TypeForm.continuations]))
  rw [List.append_assoc, ClassType.read, TypeName.read_of_kinds nonempty hhead (by omega)
    (avoids_append htail spelled.args_eq_nil_or (by decide) (hrest.mono (by simp)))]
  simp only [Except.ok_bind]
  rw [hargs]
  rfl

end ClassType

/-! ### Members of one line -/

namespace MemberContent

/-- What spells a member that is not a declaration. -/
inductive Spells : MemberContent → List Piece → Prop
  | including {mixin : ClassType} {keyword : Piece} {ps : List Piece}
      (head : keyword.kind = .word "include") (spelled : mixin.Spells (ps.map Piece.kind)) :
      Spells (including mixin) (keyword :: ps)
  | extending {mixin : ClassType} {keyword : Piece} {ps : List Piece}
      (head : keyword.kind = .word "extend") (spelled : mixin.Spells (ps.map Piece.kind)) :
      Spells (extending mixin) (keyword :: ps)
  | attr {kind : AttributeKind} {name : String} {type : TypeExpr} {keyword : Piece}
      {stem signature : List Piece} {ks : List TokenKind} (head : keyword.kind = .word kind.keyword)
      (named : Method.NameSpells name stem) (spelled : TypeForm.Spells (.union type) ks)
      (typed : signature.map Piece.kind = .symbol .colon :: ks) :
      Spells (attr kind name type) (keyword :: (stem ++ signature))
  | method {m : Method} {keyword : Piece} {ps : List Piece} (head : keyword.kind = .word "def")
      (spelled : m.Spells ps) : Spells (method m) (keyword :: ps)
  | aliasing {newName oldName : String} {keyword : Piece} {ps more : List Piece}
      (head : keyword.kind = .word "alias") (new : Method.NameSpells newName ps)
      (old : Method.NameSpells oldName more) :
      Spells (aliasing newName oldName) (keyword :: (ps ++ more))

/-- The words that a member begins with, if it is no declaration. -/
def keywords : List String :=
  ["include", "extend", "attr_reader", "attr_writer", "attr_accessor", "def", "alias"]

/-- A member of one line begins with a keyword. -/
theorem Spells.head {content : MemberContent} {ps : List Piece} (h : content.Spells ps) :
    ∃ p more, ps = p :: more ∧ ∃ text ∈ keywords, p.kind = .word text := by
  cases h with
  | @attr kind _ _ _ _ _ _ head =>
    exact ⟨_, _, rfl, kind.keyword, by cases kind <;> decide, head⟩
  | including head | extending head | method head | aliasing head =>
    exact ⟨_, _, rfl, _, by decide, head⟩

/-- What is read as an attribute is spelled by its keyword and what is taken behind it. -/
theorem readAttr_reads (kind : AttributeKind) (bound : Nat) :
    Reader.Reads (readAttr kind bound) fun content pre ↦
      ∀ keyword : Piece, keyword.kind = .word kind.keyword →
        Spells content (keyword :: pre.map Lexeme.piece) := by
  intro ls content rest h
  rw [readAttr, Except.bind_eq_ok_iff] at h
  obtain ⟨⟨name, behind⟩, hname, h⟩ := h
  dsimp only at h
  rw [Except.bind_eq_ok_iff] at h
  obtain ⟨typed, hcolon, h⟩ := h
  rw [Except.bind_eq_ok_iff] at h
  obtain ⟨⟨type, behind'⟩, htype, h⟩ := h
  cases h
  obtain ⟨stem, rfl, hstem⟩ := Method.readName_reads hname
  obtain ⟨colon, rfl, colonKind⟩ := eq_cons_of_symbol hcolon
  obtain ⟨pre, rfl, hpre⟩ := TypeExpr.read_reads bound htype
  refine ⟨stem ++ colon :: pre, by simp, fun keyword hkeyword ↦ ?_⟩
  rw [List.map_append]
  refine .attr hkeyword hstem hpre ?_
  rw [Lexeme.map_kind_map_piece, List.map_cons, colonKind]

/-- What spells an attribute behind its keyword is read as it, in front of no symbol. -/
theorem readAttr_of_spells {kind : AttributeKind} {name : String} {type : TypeExpr}
    {stem signature rest : List Lexeme} {ks : List TokenKind}
    (named : Method.NameSpells name (stem.map Lexeme.piece))
    (spelled : TypeForm.Spells (.union type) ks)
    (typed : signature.map Lexeme.kind = .symbol .colon :: ks) {bound : Nat}
    (hbound : ks.length ≤ bound) (hrest : Reading.NoSymbol rest) :
    readAttr kind bound (stem ++ (signature ++ rest)) = .ok (attr kind name type, rest) := by
  obtain ⟨colon, pre, rfl, hcolon, hpre⟩ := List.map_eq_cons_iff.1 typed
  have hread : TypeExpr.read bound (pre ++ rest) = .ok (type, rest) :=
    TypeForm.isRead_of_spells spelled hpre hbound (hrest.avoids _)
  rw [List.cons_append, readAttr,
    Method.readName_of_spells named rfl (avoids_cons (by simp [hcolon]))]
  simp only [Except.ok_bind]
  rw [symbol_cons hcolon]
  simp only [Except.ok_bind]
  rw [hread]
  rfl

/-- What is read as a member of one line is spelled by what is taken. -/
theorem readLine_reads (bound : Nat) :
    Reader.Reads (readLine bound) fun content pre ↦ Spells content (pre.map Lexeme.piece) := by
  intro ls content rest h
  unfold readLine at h
  split at h
  · rw [Except.bind_eq_ok_iff] at h
    obtain ⟨⟨mixin, behind⟩, hmixin, h⟩ := h
    cases h
    obtain ⟨pre, rfl, hpre⟩ := ClassType.read_reads bound hmixin
    exact ⟨_ :: pre, rfl, .including rfl (by rwa [Lexeme.map_kind_map_piece])⟩
  · rw [Except.bind_eq_ok_iff] at h
    obtain ⟨⟨mixin, behind⟩, hmixin, h⟩ := h
    cases h
    obtain ⟨pre, rfl, hpre⟩ := ClassType.read_reads bound hmixin
    exact ⟨_ :: pre, rfl, .extending rfl (by rwa [Lexeme.map_kind_map_piece])⟩
  · obtain ⟨pre, rfl, hpre⟩ := readAttr_reads _ bound h
    exact ⟨_ :: pre, rfl, hpre _ rfl⟩
  · obtain ⟨pre, rfl, hpre⟩ := readAttr_reads _ bound h
    exact ⟨_ :: pre, rfl, hpre _ rfl⟩
  · obtain ⟨pre, rfl, hpre⟩ := readAttr_reads _ bound h
    exact ⟨_ :: pre, rfl, hpre _ rfl⟩
  · rw [Except.bind_eq_ok_iff] at h
    obtain ⟨⟨m, behind⟩, hm, h⟩ := h
    cases h
    obtain ⟨pre, rfl, hpre⟩ := Method.read_reads bound hm
    exact ⟨_ :: pre, rfl, .method rfl hpre⟩
  · rw [Except.bind_eq_ok_iff] at h
    obtain ⟨⟨newName, behind⟩, hnew, h⟩ := h
    dsimp only at h
    rw [Except.bind_eq_ok_iff] at h
    obtain ⟨⟨oldName, behind'⟩, hold, h⟩ := h
    cases h
    obtain ⟨pre, rfl, hpre⟩ := Method.readName_reads hnew
    obtain ⟨pre', rfl, hpre'⟩ := Method.readName_reads hold
    refine ⟨_ :: (pre ++ pre'), by rw [List.cons_append, List.append_assoc], ?_⟩
    show Spells _ _
    rw [List.map_cons, List.map_append]
    exact .aliasing rfl hpre hpre'
  · cases h

/-- What spells a member of one line is read as it, in front of no symbol. -/
theorem readLine_of_spells {content : MemberContent} {ps : List Piece} (h : content.Spells ps)
    {bound : Nat} {pre rest : List Lexeme} (hpre : pre.map Lexeme.piece = ps)
    (hbound : ps.length ≤ bound) (hrest : Reading.NoSymbol rest) :
    readLine bound (pre ++ rest) = .ok (content, rest) := by
  cases h with
  | including head spelled | extending head spelled =>
    obtain ⟨l, pre, rfl, rfl, rfl⟩ := List.map_eq_cons_iff.1 hpre
    rw [Lexeme.map_kind_map_piece] at spelled
    rw [List.length_cons, List.length_map] at hbound
    have hread : ClassType.read bound (pre ++ rest) = .ok (_, rest) :=
      ClassType.read_of_spells spelled rfl (by rw [List.length_map]; omega) (hrest.avoids _)
    cases l
    cases head
    show (ClassType.read bound (pre ++ rest) >>= _) = _
    rw [hread]
    rfl
  | @attr kind name type keyword stem signature ks head named spelled typed =>
    obtain ⟨l, pre, rfl, rfl, htail⟩ := List.map_eq_cons_iff.1 hpre
    obtain ⟨stem, signature, rfl, rfl, rfl⟩ := List.map_eq_append_iff.1 htail
    rw [Lexeme.map_kind_map_piece] at typed
    have hlength := congrArg List.length typed
    rw [List.length_map, List.length_cons] at hlength
    simp only [List.length_cons, List.length_append, List.length_map] at hbound
    have hread : readAttr kind bound (stem ++ (signature ++ rest)) =
        .ok (.attr kind name type, rest) :=
      readAttr_of_spells named spelled typed (by omega) hrest
    rw [List.cons_append, List.append_assoc]
    cases l
    cases head
    cases kind <;> exact hread
  | method head spelled =>
    obtain ⟨l, pre, rfl, rfl, rfl⟩ := List.map_eq_cons_iff.1 hpre
    rw [List.length_cons] at hbound
    have hread : Method.read bound (pre ++ rest) = .ok (_, rest) :=
      Method.read_of_spells spelled rfl (by omega) (hrest.avoids _)
    cases l
    cases head
    show (Method.read bound (pre ++ rest) >>= _) = _
    rw [hread]
    rfl
  | aliasing head new old =>
    obtain ⟨l, pre, rfl, rfl, htail⟩ := List.map_eq_cons_iff.1 hpre
    obtain ⟨first, second, rfl, rfl, rfl⟩ := List.map_eq_append_iff.1 htail
    have hbehind : Avoids [.question, .bang, .equals] (second ++ rest) := by
      obtain ⟨text, glued, more, heq⟩ := old.head
      obtain ⟨l', second, rfl, hl', -⟩ := List.map_eq_cons_iff.1 heq
      exact avoids_cons (by simp [show l'.kind = _ from congrArg Piece.kind hl'])
    have hfirst := Method.readName_of_spells new rfl hbehind
    have hsecond := Method.readName_of_spells old rfl (hrest.avoids _)
    rw [List.cons_append, List.append_assoc]
    cases l
    cases head
    show (Method.readName (first ++ (second ++ rest)) >>= _) = _
    rw [hfirst]
    show (Method.readName (second ++ rest) >>= _) = _
    rw [hsecond]
    rfl

end MemberContent

/-! ### Headers -/

namespace DeclarationKind

/-- What spells the header of a declaration. -/
inductive Spells : DeclarationKind → TypeName → List TokenKind → Prop
  | plainClass {name : TypeName} (nonempty : name.path ≠ []) :
      Spells (.ofClass none) name (.word "class" :: name.kinds)
  | subclass {name : TypeName} {superclass : ClassType} {ks : List TokenKind}
      (nonempty : name.path ≠ []) (spelled : superclass.Spells ks) :
      Spells (.ofClass (some superclass)) name
        (.word "class" :: (name.kinds ++ .symbol .less :: ks))
  | ofModule {name : TypeName} (nonempty : name.path ≠ []) :
      Spells .ofModule name (.word "module" :: name.kinds)

/-- A header begins with one of two keywords. -/
theorem Spells.head {kind : DeclarationKind} {name : TypeName} {ks : List TokenKind}
    (h : Spells kind name ks) :
    ∃ text more, ks = .word text :: more ∧ (text = "class" ∨ text = "module") := by
  cases h with
  | plainClass => exact ⟨_, _, rfl, Or.inl rfl⟩
  | subclass => exact ⟨_, _, rfl, Or.inl rfl⟩
  | ofModule => exact ⟨_, _, rfl, Or.inr rfl⟩

/-- What is read as a header is spelled by what is taken. -/
theorem read_reads (bound : Nat) :
    Reader.Reads (DeclarationKind.read bound) fun d pre ↦
      Spells d.1 d.2 (pre.map Lexeme.kind) := by
  intro ls d rest h
  unfold DeclarationKind.read at h
  split at h
  · rw [Except.bind_eq_ok_iff] at h
    obtain ⟨⟨name, behind⟩, hname, h⟩ := h
    dsimp only at h
    rw [Except.bind_eq_ok_iff] at h
    obtain ⟨⟨superclass, behind'⟩, hsuper, h⟩ := h
    cases h
    obtain ⟨pre, rfl, hne, hpre⟩ := TypeName.read_reads bound hname
    unfold ClassType.readSuperclass at hsuper
    split at hsuper
    · cases hsuper
      refine ⟨_ :: pre, rfl, ?_⟩
      show Spells _ _ _
      rw [List.map_cons, hpre]
      exact .plainClass hne
    next hless =>
      obtain ⟨less, rfl, lessKind⟩ := eq_cons_of_afterSymbol? hless
      rw [Except.bind_eq_ok_iff] at hsuper
      obtain ⟨⟨c, behind''⟩, hc, hsuper⟩ := hsuper
      cases hsuper
      obtain ⟨pre', rfl, hpre'⟩ := ClassType.read_reads bound hc
      refine ⟨_ :: (pre ++ less :: pre'), by rw [List.cons_append, List.append_assoc]; rfl, ?_⟩
      show Spells _ _ _
      rw [List.map_cons, List.map_append, List.map_cons, hpre, lessKind]
      exact .subclass hne hpre'
  · rw [Except.bind_eq_ok_iff] at h
    obtain ⟨⟨name, behind⟩, hname, h⟩ := h
    cases h
    obtain ⟨pre, rfl, hne, hpre⟩ := TypeName.read_reads bound hname
    refine ⟨_ :: pre, rfl, ?_⟩
    show Spells _ _ _
    rw [List.map_cons, hpre]
    exact .ofModule hne
  · cases h

/-- What spells a header is read as it, in front of no symbol. -/
theorem read_of_spells {kind : DeclarationKind} {name : TypeName} {ks : List TokenKind}
    (h : Spells kind name ks) {bound : Nat} {pre rest : List Lexeme}
    (hpre : pre.map Lexeme.kind = ks) (hbound : ks.length ≤ bound)
    (hrest : Reading.NoSymbol rest) :
    DeclarationKind.read bound (pre ++ rest) = .ok ((kind, name), rest) := by
  cases h with
  | plainClass nonempty =>
    obtain ⟨l, pre, rfl, hl, htail⟩ := List.map_eq_cons_iff.1 hpre
    have hlength := congrArg List.length htail
    rw [List.length_map] at hlength
    rw [List.length_cons] at hbound
    have hname : TypeName.read bound (pre ++ rest) = .ok (name, rest) :=
      TypeName.read_of_kinds nonempty htail (by omega) (hrest.avoids _)
    cases l
    cases hl
    show (TypeName.read bound (pre ++ rest) >>= _) = _
    rw [hname]
    show (ClassType.readSuperclass bound rest >>= _) = _
    rw [ClassType.readSuperclass, afterSymbol?_eq_none (hrest.avoids [.less]) List.mem_cons_self]
    rfl
  | subclass nonempty spelled =>
    obtain ⟨l, pre, rfl, hl, htail⟩ := List.map_eq_cons_iff.1 hpre
    obtain ⟨head, tail, rfl, hhead, htail⟩ := List.map_eq_append_iff.1 htail
    obtain ⟨less, tail, rfl, hless, htail⟩ := List.map_eq_cons_iff.1 htail
    have hlength := congrArg List.length hhead
    rw [List.length_map] at hlength
    simp only [List.length_cons, List.length_append] at hbound
    have hname : TypeName.read bound (head ++ less :: (tail ++ rest)) =
        .ok (name, less :: (tail ++ rest)) :=
      TypeName.read_of_kinds nonempty hhead (by omega) (avoids_cons (by simp [hless]))
    have hsuper : ClassType.read bound (tail ++ rest) = .ok (_, rest) :=
      ClassType.read_of_spells spelled htail (by omega) (hrest.avoids _)
    rw [List.cons_append, List.append_assoc, List.cons_append]
    cases l
    cases hl
    show (TypeName.read bound (head ++ less :: (tail ++ rest)) >>= _) = _
    rw [hname]
    show (ClassType.readSuperclass bound (less :: (tail ++ rest)) >>= _) = _
    rw [ClassType.readSuperclass, afterSymbol?_cons hless]
    simp only [hsuper, Except.ok_bind]
    rfl
  | ofModule nonempty =>
    obtain ⟨l, pre, rfl, hl, htail⟩ := List.map_eq_cons_iff.1 hpre
    have hlength := congrArg List.length htail
    rw [List.length_map] at hlength
    rw [List.length_cons] at hbound
    have hname : TypeName.read bound (pre ++ rest) = .ok (name, rest) :=
      TypeName.read_of_kinds nonempty htail (by omega) (hrest.avoids _)
    cases l
    cases hl
    show (TypeName.read bound (pre ++ rest) >>= _) = _
    rw [hname]
    rfl

end DeclarationKind

end ModelSignatures
