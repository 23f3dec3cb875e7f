import ModelSignatures.Proofs.Lexeme.Prediction
import ModelSignatures.Proofs.Signature.Productions

/-!
# The readers of types predict the grammar

Every reader predicts the words that are derivable from its part of the grammar. The proofs follow
the readers: a production is a sequence where its reader is one, and a choice where its reader
decides on the first lexeme. A name is a type unless it begins with a keyword, which the first
lexeme tells.
-/

namespace ModelSignatures

open Nonterminal (production derives_terminal derives_cons derives_more)
open Rule (Derives derives_token_iff derives_sequence_iff derives_append_assoc derives_append_empty)
open Reader (Predicts predicts_pure predicts_of_head_or predicts_word
  predicts_of_step eq_cons_of_head)
open Reading (afterSymbol? word separated unexpected)

/-- What a name with its arguments is derived from, where the name may begin with a keyword. -/
def Nonterminal.named : Rule Piece Nonterminal :=
  .ref .name ||| .restrict (.ref .name) (fun ps ↦ ¬EndsInLower ps) ++ .ref .args

/-- The language of a rule, whatever its words are read as. -/
def Rule.Language {α : Type} (rule : Rule Piece Nonterminal) (_ : α) (ps : List Piece) : Prop :=
  Derives production rule ps

section Combinators

variable {α β : Type} {size size' : ℕ} {rule other : Rule Piece Nonterminal}

/-- Readers behind each other predict a sequence. -/
theorem Reader.Predicts.sequence {a a' : Reader α} {b b' : α → Reader β}
    (ha : Predicts size size' a a' rule.Language)
    (hb : ∀ x, Predicts size size' (b x) (b' x) other.Language) :
    Predicts size size' (fun ls ↦ a ls >>= fun p ↦ b p.1 p.2)
      (fun ls ↦ a' ls >>= fun p ↦ b' p.1 p.2)
      (rule ++ other).Language :=
  ha.bind hb (fun _ _ _ ↦ ⟨Nat.le_add_left _ _, Nat.le_add_left _ _⟩)
    fun _ _ _ _ hx hy ↦ .sequence hx hy

/-- A symbol that has to be there and a reader behind it predict a sequence. -/
theorem Reader.Predicts.terminal {r r' : Reader α} (h : Predicts size size' r r' rule.Language)
    (s : Symbol) (wanted : Expectation) :
    Predicts size size' (fun ls ↦ Reading.symbol s wanted ls >>= r)
      (fun ls ↦ Reading.symbol s wanted ls >>= r') (Nonterminal.symbol s ++ rule).Language :=
  h.symbol wanted (Nat.le_succ size) (Nat.le_succ size')
    fun _ _ _ hp hx ↦ derives_cons hp hx

/-- Readers predict any rule that derives what theirs does. -/
theorem Reader.Predicts.derives {r r' : Reader α} (h : Predicts size size' r r' rule.Language)
    (hrule : ∀ ps, Derives production rule ps → Derives production other ps) :
    Predicts size size' r r' other.Language :=
  h.mono (Nat.le_refl size) (Nat.le_refl size') fun _ ps hps ↦ hrule ps hps

/-- An answer is changed, which no rule tells. -/
theorem Reader.Predicts.answer {a a' : Reader α} (h : Predicts size size' a a' rule.Language)
    (f : α → β) :
    Predicts size size' (fun ls ↦ a ls >>= fun p ↦ .ok (f p.1, p.2))
      (fun ls ↦ a' ls >>= fun p ↦ .ok (f p.1, p.2)) rule.Language :=
  h.map f fun _ _ hps ↦ hps

theorem Reader.predicts_empty (x : α) :
    Predicts size size' (fun ls ↦ .ok (x, ls)) (fun ls ↦ .ok (x, ls)) Rule.empty.Language :=
  predicts_pure .empty

/-- What each follows a separator is predicted, if each of them is. -/
theorem Reader.Predicts.many {item item' : Reader α} {bound bound' : ℕ}
    (h : Predicts bound bound' item item' rule.Language) (s : Symbol) :
    Predicts bound bound' (separated s item bound) (separated s item' bound')
      (Rule.many (Nonterminal.symbol s ++ rule)).Language :=
  h.repeated (Nat.le_refl _) (Nat.le_refl _) .done fun _ _ _ _ _ hp hx hxs ↦ derives_more hp hx hxs

/-- What a reader does where a token of some kind is first. -/
theorem Reader.Predicts.after {m m' : ℕ} {r r' a a' : Reader α} {kind : TokenKind} {glued : Bool}
    (h : Predicts m m' a a' rule.Language) (hsize : size ≤ m + 1) (hsize' : size' ≤ m' + 1)
    (hr : ∀ (l : Lexeme) behind, r ({ l with kind } :: behind) = a behind ∧
      r' ({ l with kind } :: behind) = a' behind)
    (hrule : ∀ ps, Derives production (Nonterminal.terminal kind ++ rule) ps →
      Derives production other ps) :
    ∃ a a' LA, Predicts size size' a a' LA ∧
      (∀ ls, ls.head?.map Lexeme.piece = some ⟨kind, glued⟩ → r ls = a ls ∧ r' ls = a' ls) ∧
      ∀ x ps, (∀ p ∈ ps.head?, some (⟨kind, glued⟩ : Piece) = some p) → LA x ps →
        other.Language x ps := by
  refine ⟨_, _, _, h.skip hsize hsize', fun ls hls ↦ ?_, ?_⟩
  · obtain ⟨l, behind, rfl, hl⟩ := eq_cons_of_head hls
    obtain rfl : l.kind = kind := congrArg Piece.kind hl
    exact hr l behind
  · rintro x _ hps ⟨p, more, rfl, hmore⟩
    exact hrule _ (derives_cons (congrArg Piece.kind (Option.some.inj (hps p rfl)).symm) hmore)

end Combinators

/-! ### Names -/

/-- The words of the language of names. -/
def TypeName.Language (name : TypeName) (ps : List Piece) : Prop :=
  name.path ≠ [] ∧ ps.map Piece.kind = name.kinds

/-- A name is predicted, with a `::` in front or without. -/
theorem TypeName.read_predicts (bound bound' : ℕ) :
    Predicts (bound + 1) (bound' + 1) (TypeName.read bound) (TypeName.read bound')
      TypeName.Language := by
  have hsegments : Predicts bound bound' (separated .colonColon (word .constantName) bound)
      (separated .colonColon (word .constantName) bound') fun segments ps ↦
        ps.map Piece.kind =
          segments.flatMap fun segment ↦ [.symbol .colonColon, .word segment] := by
    refine (predicts_word .constantName).repeated (Nat.le_refl _) (Nat.le_refl _) rfl ?_
    rintro x xs p _ more hp ⟨q, hq, rfl⟩ hmore
    simp [hp, hq, hmore]
  have hpath : ∀ absolute : Bool, Predicts (bound + 1) (bound' + 1)
      (fun ls ↦ word .constantName ls >>= fun p ↦
        separated .colonColon (word .constantName) bound p.2 >>= fun q ↦
          .ok ((⟨absolute, p.1 :: q.1⟩ : TypeName), q.2))
      (fun ls ↦ word .constantName ls >>= fun p ↦
        separated .colonColon (word .constantName) bound' p.2 >>= fun q ↦
          .ok ((⟨absolute, p.1 :: q.1⟩ : TypeName), q.2))
      fun name ps ↦ name.absolute = absolute ∧ TypeName.Language ⟨false, name.path⟩ ps := by
    intro absolute
    refine (predicts_word .constantName).bind (fun first ↦ hsegments.map (fun others ↦
      (⟨absolute, first :: others⟩ : TypeName)) (L := fun name ps ↦ ∃ others,
        name = ⟨absolute, first :: others⟩ ∧ ps.map Piece.kind =
          others.flatMap fun segment ↦ [.symbol .colonColon, .word segment])
      fun others ps hps ↦ ⟨others, rfl, hps⟩) ?_ ?_
    · rintro x _ ⟨p, -, rfl⟩
      exact ⟨by simp [Nat.add_comm], by simp [Nat.add_comm]⟩
    · rintro first _ _ more ⟨p, hp, rfl⟩ ⟨others, rfl, hmore⟩
      exact ⟨rfl, List.cons_ne_nil _ _, by simp [hp, hmore, kinds]⟩
  have heq : ∀ bound, TypeName.read bound = Reader.ifSymbol .colonColon
      (fun ls ↦ word .constantName ls >>= fun p ↦
        separated .colonColon (word .constantName) bound p.2 >>= fun q ↦
          .ok ((⟨true, p.1 :: q.1⟩ : TypeName), q.2))
      (fun ls ↦ word .constantName ls >>= fun p ↦
        separated .colonColon (word .constantName) bound p.2 >>= fun q ↦
          .ok ((⟨false, p.1 :: q.1⟩ : TypeName), q.2)) := by
    intro bound
    funext ls
    rw [TypeName.read, Reader.ifSymbol]
    cases afterSymbol? .colonColon ls <;> rfl
  rw [heq, heq]
  refine (hpath true).ifSymbol .colonColon (hpath false) (Nat.le_succ _) (Nat.le_succ _) ?_ ?_
  · rintro ⟨_, path⟩ p ps hp ⟨rfl, hne, hps⟩
    exact ⟨hne, by simpa [kinds, hp] using hps⟩
  · rintro ⟨_, path⟩ ps ⟨rfl, hps⟩
    exact hps

/-- What is read as a name is derived from the grammar of names. -/
theorem TypeName.Language.derives {name : TypeName} {ps : List Piece} (h : name.Language ps) :
    Derives production (.ref .name) ps :=
  TypeName.derives h.1 h.2

/-- What is read as a name has at least one piece. -/
theorem TypeName.Language.length_pos {name : TypeName} {ps : List Piece} (h : name.Language ps) :
    0 < ps.length := by
  have hlength := congrArg List.length h.2
  rw [List.length_map] at hlength
  rw [hlength]
  exact length_kinds_pos h.1

/-! ### Types -/

namespace TypeExpr

section Primary

variable {bound bound' : ℕ} {primary primary' : Reader TypeExpr}
  (hprimary : Predicts bound bound' primary primary' (Rule.ref .primaryType).Language)
include hprimary

/-- A type is predicted with the question mark behind it. -/
theorem readOptional_predicts :
    Predicts bound bound' (readOptional primary) (readOptional primary')
      (Rule.ref .optionalType).Language := by
  have hmark : ∀ t : TypeExpr, Predicts bound bound'
      (Reader.ifSymbol .question (fun ls ↦ .ok (t.orNil, ls)) fun ls ↦ .ok (t, ls))
      (Reader.ifSymbol .question (fun ls ↦ .ok (t.orNil, ls)) fun ls ↦ .ok (t, ls))
      (Rule.possibly (Nonterminal.symbol .question)).Language := by
    intro t
    refine (Reader.predicts_empty t.orNil).ifSymbol .question (Reader.predicts_empty t)
      (Nat.le_succ _) (Nat.le_succ _) ?_ fun _ ps hps ↦ .right hps
    rintro _ p _ hp ⟨⟩
    exact .left (derives_terminal hp)
  have hall : Predicts bound bound' _ _ (Rule.ref .optionalType).Language :=
    (hprimary.sequence hmark).derives fun ps hps ↦ .ref hps
  exact hall.congr (fun ls _ ↦ rfl) fun ls _ ↦ rfl

/-- Types between bars are predicted. -/
theorem readUnion_predicts :
    Predicts bound bound' (readUnion primary bound) (readUnion primary' bound')
      (Rule.ref .unionType).Language := by
  have hoptional := readOptional_predicts hprimary
  have hall := hoptional.sequence fun t ↦ (hoptional.many .pipe).answer (oneOf t)
  exact hall.derives fun ps hps ↦ .ref hps

/-- The arguments of a type are predicted. -/
theorem readArgs_predicts :
    Predicts bound bound' (readArgs primary bound) (readArgs primary' bound')
      (Rule.possibly (.ref .args)).Language := by
  have hunion := readUnion_predicts hprimary
  have hlist := hunion.sequence fun t ↦ (hunion.many .comma).sequence fun ts ↦
    (Reader.predicts_empty (t :: ts)).terminal .rightBracket .commaOrClosingBracket
  have hall : Predicts bound bound' _ _ (Rule.possibly (.ref .args)).Language :=
    hlist.ifSymbol .leftBracket (Reader.predicts_empty []) (Nat.le_succ _) (Nat.le_succ _)
      (fun _ p ps hp hps ↦ .left (.ref (derives_append_assoc.2 (derives_cons hp
        (derives_append_empty.1 (derives_append_assoc.2 (derives_append_assoc.2 hps)))))))
      fun _ ps hps ↦ .right hps
  refine hall.congr (fun ls _ ↦ ?_) fun ls _ ↦ ?_ <;>
    rw [readArgs, Reader.ifSymbol] <;> cases afterSymbol? .leftBracket ls <;> rfl

/-- A name is predicted with its arguments, which only those of classes and interfaces can have. -/
theorem readNamed_predicts :
    Predicts (bound + 1) (bound' + 1) (readNamed primary bound) (readNamed primary' bound')
      Nonterminal.named.Language := by
  have hargs := readArgs_predicts hprimary
  have hbehind : ∀ name : TypeName, Predicts bound bound'
      (fun ls ↦ if name.namesAlias then .ok (aliasRef name, ls)
        else readArgs primary bound ls >>= fun p ↦ .ok (classRef name p.1, p.2))
      (fun ls ↦ if name.namesAlias then .ok (aliasRef name, ls)
        else readArgs primary' bound' ls >>= fun p ↦ .ok (classRef name p.1, p.2))
      fun _ ps ↦ ps = [] ∨ name.namesAlias = false ∧ Derives production (.ref .args) ps := by
    intro name
    cases halias : name.namesAlias with
    | true => exact predicts_pure (Or.inl rfl)
    | false =>
      refine hargs.map (classRef name) fun ts ps hps ↦ ?_
      cases hps with
      | left hps => exact Or.inr ⟨rfl, hps⟩
      | right hps => cases hps; exact Or.inl rfl
  refine (TypeName.read_predicts bound bound').bind hbehind (fun name ps hname ↦ ?_) ?_
  · have hpos := hname.length_pos
    exact ⟨by omega, by omega⟩
  · rintro name _ ps more hname (rfl | ⟨halias, hmore⟩)
    · rw [List.append_nil]
      exact .left hname.derives
    · refine .right (.sequence (.restrict hname.derives ?_) hmore)
      rw [TypeName.endsInLower_iff hname.1 hname.2, halias]
      simp

end Primary

/-- Where no keyword is first, a name with its arguments is a type. -/
theorem derives_primaryType_of_named {first : Option Piece} {ps : List Piece}
    (hfirst : ∀ p b, first = some p → p.kind ≠ .word (BaseType.keyword b))
    (hps : ∀ p ∈ ps.head?, first = some p) (h : Derives production Nonterminal.named ps) :
    Derives production (.ref .primaryType) ps := by
  have hbegins : ∀ {qs : List Piece}, (∀ p ∈ qs.head?, first = some p) →
      ¬Nonterminal.BeginsWithKeyword qs := by
    rintro qs hqs ⟨p, hp, b, hb⟩
    exact hfirst p b (hqs p hp) hb
  cases h with
  | left h => exact .ref (.left (.right (.restrict h (hbegins hps))))
  | right h =>
    obtain ⟨name, args, rfl, hname, hargs⟩ := derives_sequence_iff.1 h
    obtain - | - | - | - | - | - | - | - | ⟨hname, hlower⟩ := hname
    refine .ref (.right (.sequence (.restrict hname ⟨hbegins fun p hp ↦ hps p ?_, hlower⟩) hargs))
    rcases name with - | ⟨q, name⟩
    · cases hp
    · exact hp

/-- The empty list begins a type. -/
theorem viable_type :
    Viable (Rule.Language (.ref .primaryType) : TypeExpr → List Piece → Prop) [] := by
  have hne : (⟨false, ["A"]⟩ : TypeName).path ≠ [] := List.cons_ne_nil _ _
  have hname : Derives production (.ref .name) [⟨.word "A", false⟩] := TypeName.derives hne rfl
  refine ⟨.base .nil, [.word "A"], by decide, .ref (.left (.right (.restrict hname ?_)))⟩
  rintro ⟨_, ⟨⟩, b, hb⟩
  revert hb
  cases b <;> decide

/-- A lexeme with which no type begins is unexpected. -/
theorem readPrimary_of_not_beginsType {bound : ℕ} {ls : List Lexeme}
    (h : ∀ p, ls.head?.map Lexeme.piece = some p → ¬TypeForm.BeginsType p.kind) :
    readPrimary (bound + 1) ls = unexpected .type ls := by
  rw [readPrimary.eq_def]
  dsimp only
  split
  · exact absurd (Or.inl rfl) (h _ rfl)
  · exact absurd (Or.inr (Or.inr ⟨_, rfl⟩)) (h _ rfl)
  · exact absurd (Or.inr (Or.inl rfl)) (h _ rfl)
  · rfl

/-- A type with nothing behind it is predicted, by induction on the bound. -/
theorem readPrimary_predicts (bound bound' : ℕ) :
    Predicts bound bound' (readPrimary bound) (readPrimary bound')
      (Rule.ref .primaryType).Language := by
  refine predicts_of_step (fun _ : Unit ↦ readPrimary) (fun _ ↦ readPrimary) (fun bound ↦ bound)
    (fun bound ↦ bound) rfl rfl .type viable_type (fun _ bound ↦ by cases bound <;> rfl)
    (fun _ bound ↦ by cases bound <;> rfl) (fun bound bound' ih _ ↦ ?_) bound bound' ()
  have hnamed := readNamed_predicts (ih ())
  have hgroup := (readUnion_predicts (ih ())).sequence fun t ↦
    (Reader.predicts_empty t).terminal .rightParen .closingParen
  refine predicts_of_head_or .type viable_type fun first ↦ ?_
  by_cases hfirst : ∃ p, first = some p ∧ TypeForm.BeginsType p.kind
  -- a type begins with a parenthesis, with the `::` of a name or with a word
  · obtain ⟨⟨_, glued⟩, rfl, rfl | rfl | ⟨text, rfl⟩⟩ := hfirst
    · refine Or.inl (hgroup.after (Nat.le_refl _) (Nat.le_refl _) (fun _ _ ↦ ⟨rfl, rfl⟩)
        fun ps hps ↦ ?_)
      have hclosed := derives_append_empty.1 (derives_append_assoc.2 (derives_append_assoc.2 hps))
      exact .ref (.left (.left (.left hclosed)))
    · refine Or.inl ⟨_, _, _, hnamed, fun ls hls ↦ ?_, fun _ ps hps ↦
        derives_primaryType_of_named (fun p b hp hb ↦ ?_) hps⟩
      · obtain ⟨l, behind, rfl, hl⟩ := eq_cons_of_head hls
        cases l
        cases hl
        exact ⟨rfl, rfl⟩
      · cases hp
        cases hb
    · refine Or.inl ?_
      cases hbase : BaseType.ofKeyword? text with
      | some b =>
        refine (Reader.predicts_empty (base b)).after (Nat.le_succ _) (Nat.le_succ _)
          (fun l behind ↦ ?_) fun ps hps ↦ ?_
        · rw [readPrimary, readPrimary, hbase]
          exact ⟨rfl, rfl⟩
        · obtain ⟨p, hp, rfl⟩ := derives_token_iff.1 (derives_append_empty.1 hps)
          rw [← BaseType.keyword_of_ofKeyword? hbase] at hp
          exact .ref (.left (.left (.right (.token ⟨b, hp⟩))))
      | none =>
        refine ⟨_, _, _, hnamed, fun ls hls ↦ ?_, fun _ ps hps ↦
          derives_primaryType_of_named (fun p b hp hb ↦ ?_) hps⟩
        · obtain ⟨l, behind, rfl, hl⟩ := eq_cons_of_head hls
          cases l
          cases hl
          rw [readPrimary, readPrimary, hbase]
          exact ⟨rfl, rfl⟩
        · cases hp
          cases hb
          rw [BaseType.ofKeyword?_keyword] at hbase
          cases hbase
  · refine Or.inr fun ls hls ↦ ?_
    have hnot : ∀ p, ls.head?.map Lexeme.piece = some p → ¬TypeForm.BeginsType p.kind :=
      fun p hp hkind ↦ hfirst ⟨p, hls.symm.trans hp, hkind⟩
    exact ⟨readPrimary_of_not_beginsType hnot, readPrimary_of_not_beginsType hnot⟩

/-- A type is predicted. -/
theorem read_predicts (bound bound' : ℕ) :
    Predicts bound bound' (TypeExpr.read bound) (TypeExpr.read bound')
      (Rule.ref .unionType).Language :=
  readUnion_predicts (readPrimary_predicts bound bound')

end TypeExpr

/-- A name is predicted as the grammar has it. -/
theorem TypeName.read_predicts_name (bound bound' : ℕ) :
    Predicts bound bound' (TypeName.read bound) (TypeName.read bound')
      (Rule.ref .name).Language :=
  (TypeName.read_predicts bound bound').mono (Nat.le_succ _) (Nat.le_succ _) fun _ _ h ↦ h.derives

/-- The name of a class with its arguments is predicted. -/
theorem ClassType.read_predicts (bound bound' : ℕ) :
    Predicts bound bound' (ClassType.read bound) (ClassType.read bound')
      (Rule.ref .classType).Language := by
  have hargs := TypeExpr.readArgs_predicts (TypeExpr.readPrimary_predicts bound bound')
  have hall := (TypeName.read_predicts_name bound bound').sequence fun name ↦
    hargs.answer (ClassType.mk name)
  exact hall.derives fun ps hps ↦ .ref hps

end ModelSignatures
