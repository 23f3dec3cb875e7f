import ModelSignatures.Proofs.Signature.Acceptance
import ModelSignatures.Proofs.TypeExpr.Prediction

/-!
# The readers of methods and members predict the grammar

Two decisions look beyond the first lexeme: whether a word is the key of a parameter, and whether
`self` marks a method of the class itself. Both look only at the token behind a word, and what
begins with a word never fails at it, so the word can be taken before the decision.
-/

namespace ModelSignatures

open Nonterminal (production derives_terminal derives_word derives_cons derives_without
  derives_behind_possibly)
open Rule (Derives derives_token_iff derives_sequence_iff derives_possibly_iff derives_append_assoc
  derives_append_empty)
open Reader (Predicts predicts_pure predicts_of_head predicts_of_head_or predicts_word
  predicts_of_step predicts_wordLexeme eq_cons_of_head)
open Reading (afterSymbol? eq_cons_of_afterSymbol? unexpected)

/-! ### Methods -/

namespace Method

/-- A method name that is followed by nothing that touches it and is a suffix has no suffix. -/
theorem suffix?_eq_none_of_head {first : Option Piece}
    (h : ∀ s c, suffixChar? s = some c → first ≠ some ⟨.symbol s, true⟩) {ls : List Lexeme}
    (hls : ls.head?.map Lexeme.piece = first) : suffix? ls = none := by
  cases hsuffix : suffix? ls with
  | none => rfl
  | some found =>
    obtain ⟨c, rest⟩ := found
    obtain ⟨l, s, rfl, hl, hs⟩ := eq_cons_of_suffix? hsuffix
    exact absurd (hls.symm.trans (congrArg some hl)) (h s c hs)

/-- Reads what is left of a name behind its word. -/
def readSuffix (stem : String) : Reader String := fun ls ↦
  match suffix? ls with
  | some (c, ls) => .ok (stem.push c, ls)
  | none => .ok (stem, ls)

/-- The suffix of a method name is predicted from its stem on. -/
theorem readSuffix_predicts (size size' : ℕ) (stem : String) :
    Predicts size size' (readSuffix stem) (readSuffix stem)
      fun name ps ↦ ∀ glued, NameSpells name (⟨.word stem, glued⟩ :: ps) := by
  have hplain := fun glued ↦ NameSpells.plain stem glued
  refine predicts_of_head (viable_of_mem hplain) fun first ↦ ?_
  by_cases hfirst : ∃ s c, suffixChar? s = some c ∧ first = some ⟨.symbol s, true⟩
  · obtain ⟨s, c, hs, rfl⟩ := hfirst
    refine ⟨_, _, _, (predicts_pure (x := stem.push c) (L := fun name ps ↦
      name = stem.push c ∧ ps = []) ⟨rfl, rfl⟩).skip (Nat.le_succ _) (Nat.le_succ _),
      fun ls hls ↦ ?_, ?_⟩
    · obtain ⟨l, behind, rfl, hl⟩ := eq_cons_of_head hls
      rw [readSuffix, suffix?_cons hl hs]
      exact ⟨rfl, rfl⟩
    · rintro _ _ hps ⟨p, _, rfl, rfl, rfl⟩ glued
      obtain rfl := Option.some.inj (hps p rfl)
      exact .suffixed stem glued hs
  · refine ⟨_, _, _, predicts_pure (x := stem) hplain, fun ls hls ↦ ?_, fun _ _ _ h ↦ h⟩
    have hnone : suffix? ls = none :=
      suffix?_eq_none_of_head (fun s c hs heq ↦ hfirst ⟨s, c, hs, heq⟩) hls
    rw [readSuffix, hnone]
    exact ⟨rfl, rfl⟩

/-- The name of a method is predicted. -/
theorem readName_predicts (size size' : ℕ) :
    Predicts size size' readName readName (Rule.ref .methodName).Language := by
  refine (predicts_word .methodName).bind (fun stem ↦ readSuffix_predicts size size' stem)
    (fun _ _ _ ↦ ⟨Nat.le_add_left _ _, Nat.le_add_left _ _⟩) ?_
  rintro stem name _ more ⟨⟨_, glued⟩, rfl, rfl⟩ hname
  exact (hname glued).derives

end Method

namespace TypeForm

/-- A word makes a type. -/
theorem exists_spells_word (text : String) : ∃ t, Spells (.union t) [.word text] := by
  obtain ⟨t, ht⟩ : ∃ t, Spells (.primary t) [.word text] := by
    have hne : (⟨false, [text]⟩ : TypeName).path ≠ [] := List.cons_ne_nil _ _
    cases hbase : BaseType.ofKeyword? text with
    | some b => exact ⟨.base b, by rw [← BaseType.keyword_of_ofKeyword? hbase]; exact .base b⟩
    | none =>
      have hkeyword : (⟨false, [text]⟩ : TypeName).IsNoKeyword :=
        Or.inr fun segment hsegment ↦ by cases hsegment; exact hbase
      cases halias : (⟨false, [text]⟩ : TypeName).namesAlias with
      | true => exact ⟨_, .aliasRef hne hkeyword halias⟩
      | false => exact ⟨_, .classRef hne hkeyword halias .noArgs⟩
  exact ⟨_, .union (.plain ht) .noAlternative⟩

end TypeForm

/-- One word is a type, at every bound. -/
theorem TypeExpr.exists_read_word {l : Lexeme} {text : String} (hl : l.kind = .word text)
    (bound : ℕ) : ∃ t, TypeExpr.read (bound + 1) [l] = .ok (t, []) := by
  obtain ⟨t, ht⟩ := TypeForm.exists_spells_word text
  have hread : (TypeForm.union t).IsRead (bound + 1) ([l] ++ []) [] :=
    TypeForm.isRead_of_spells ht (congrArg (fun kind ↦ [kind]) hl) (Nat.le_add_left 1 bound)
      (by simp [Reading.Avoids])
  exact ⟨t, hread⟩

/-- What a parameter is derived from, behind what tells how it is passed. -/
def Nonterminal.typed : Rule Piece Nonterminal := .ref .unionType ++ .possibly word

namespace Param

/-- Reads a type behind what tells how a parameter is passed, and the name behind the type. -/
def readTyped (bound : ℕ) (kind : ParamKind) : Reader Param := fun ls ↦
  TypeExpr.read bound ls >>= fun p ↦ .ok (⟨kind, p.1, (readName p.2).1⟩, (readName p.2).2)

/-- The type of a parameter, with the name behind it, is predicted. -/
theorem readTyped_predicts (bound bound' : ℕ) (kind : ParamKind) :
    Predicts bound bound' (readTyped bound kind) (readTyped bound' kind)
      Nonterminal.typed.Language := by
  have hname : ∀ type : TypeExpr, Predicts bound bound'
      (fun ls ↦ .ok ((⟨kind, type, (readName ls).1⟩ : Param), (readName ls).2))
      (fun ls ↦ .ok (⟨kind, type, (readName ls).1⟩, (readName ls).2))
      (Rule.possibly Nonterminal.word).Language := by
    intro type
    refine predicts_of_head (viable_of_mem (x := ⟨kind, type, none⟩) (.right .empty)) fun first ↦ ?_
    by_cases hfirst : ∃ text glued, first = some ⟨.word text, glued⟩
    · obtain ⟨text, glued, rfl⟩ := hfirst
      refine (Reader.predicts_empty (⟨kind, type, some text⟩ : Param)).after (Nat.le_succ _)
        (Nat.le_succ _) (fun _ _ ↦ ⟨rfl, rfl⟩) fun ps hps ↦ ?_
      obtain ⟨p, hp, rfl⟩ := derives_token_iff.1 (derives_append_empty.1 hps)
      exact .left (derives_word hp)
    · refine ⟨_, _, _, Reader.predicts_empty (⟨kind, type, none⟩ : Param), fun ls hls ↦ ?_,
        fun _ _ _ hps ↦ .right hps⟩
      have hnone : readName ls = (none, ls) := by
        unfold readName
        split
        · exact absurd ⟨_, _, hls.symm⟩ hfirst
        · rfl
      rw [hnone]
      exact ⟨rfl, rfl⟩
  exact (TypeExpr.read_predicts bound bound').sequence hname

/-- Reads a parameter that may have a key, behind the mark that tells whether it is required. -/
def readKeyed (bound : ℕ) (keyed : String → ParamKind) (plain : ParamKind) : Reader Param
  | { kind := .word key, .. } :: { kind := .symbol .colon, .. } :: ls =>
    readTyped bound (keyed key) ls
  | ls => readTyped bound plain ls

/-- Whether a word in front is the key of a parameter depends only on the colon behind it. -/
theorem readKeyed_cons {l : Lexeme} {key : String} (hl : l.kind = .word key) (bound : ℕ)
    (keyed : String → ParamKind) (plain : ParamKind) (ls : List Lexeme) :
    readKeyed bound keyed plain (l :: ls) =
      Reader.ifSymbol .colon (readTyped bound (keyed key))
        (fun ls ↦ readTyped bound plain (l :: ls)) ls := by
  rw [Reader.ifSymbol]
  cases l
  cases hl
  unfold readKeyed
  split
  next heq =>
    cases heq
    rfl
  next hnot =>
    cases hcolon : afterSymbol? .colon ls with
    | none => rfl
    | some behind =>
      obtain ⟨⟨_, _, _, _, _, _⟩, rfl, rfl⟩ := eq_cons_of_afterSymbol? hcolon
      exact absurd rfl (hnot _ _ _ _ _ _ _ _ _ _ _ _)

/-- A parameter has a type. -/
theorem not_derives_typed_nil : ¬Derives production Nonterminal.typed [] :=
  fun h ↦ h.ne_nil Nonterminal.fills_production rfl rfl

/-- A parameter with a key or without one is predicted: up to the colon both of them go on. -/
theorem readKeyed_predicts (bound bound' : ℕ) (keyed : String → ParamKind) (plain : ParamKind) :
    Predicts (bound + 1) (bound' + 1) (readKeyed (bound + 1) keyed plain)
      (readKeyed (bound' + 1) keyed plain)
      (.possibly (Nonterminal.word ++ Nonterminal.symbol .colon) ++
        Nonterminal.typed).Language := by
  have htyped := readTyped_predicts (bound + 1) (bound' + 1)
  have hplain : Predicts (bound + 1) (bound' + 1) (readTyped (bound + 1) plain)
      (readTyped (bound' + 1) plain)
      (.possibly (Nonterminal.word ++ Nonterminal.symbol .colon) ++ Nonterminal.typed).Language :=
    (htyped plain).derives fun _ ↦ derives_behind_possibly
  refine predicts_of_head hplain.viable fun first ↦ ?_
  by_cases hfirst : ∃ key glued, first = some ⟨.word key, glued⟩
  · obtain ⟨key, glued, rfl⟩ := hfirst
    -- the word is kept, since without a colon behind it the type begins with it
    have hbehind : ∀ l : Lexeme, (∃ text, l.kind = .word text) → Predicts bound bound'
        (Reader.ifSymbol .colon (readTyped (bound + 1) (keyed key))
          fun ls ↦ readTyped (bound + 1) plain (l :: ls))
        (Reader.ifSymbol .colon (readTyped (bound' + 1) (keyed key))
          fun ls ↦ readTyped (bound' + 1) plain (l :: ls))
        fun _ ps ↦ Derives production (.possibly (Nonterminal.word ++ Nonterminal.symbol .colon) ++
          Nonterminal.typed) (l.piece :: ps) := by
      rintro l ⟨text, hl⟩
      obtain ⟨t, ht⟩ := TypeForm.exists_spells_word text
      obtain ⟨t', hread⟩ := TypeExpr.exists_read_word hl bound'
      have hword : Derives production Nonterminal.typed [l.piece] :=
        derives_without (ht.derives (congrArg (fun kind ↦ [kind]) hl))
      have hone : readTyped (bound' + 1) plain [l] = .ok (⟨plain, t', none⟩, []) := by
        rw [readTyped, hread]
        rfl
      refine (htyped (keyed key)).ifSymbol .colon
        ((htyped plain).behind hone hword fun _ ↦ not_derives_typed_nil)
        (Nat.le_succ_of_le (Nat.le_succ _)) (Nat.le_succ_of_le (Nat.le_succ _)) ?_
        fun _ ps hps ↦ derives_behind_possibly hps
      intro _ p ps hp hps
      have hkey : Derives production (Nonterminal.word ++ Nonterminal.symbol .colon)
          ([l.piece] ++ [p]) := .sequence (.token ⟨text, hl⟩) (derives_terminal hp)
      exact .sequence (.left hkey) hps
    refine ⟨_, _, _, predicts_wordLexeme.bind_taken (fun l _ hl ↦ hbehind l hl.1)
      (fun l ps hl ↦ (hbehind l hl.1).viable) ?_ ?_, fun ls hls ↦ ?_, fun _ _ _ h ↦ h⟩
    · rintro l _ ⟨-, rfl⟩
      exact ⟨Nat.le_of_eq (Nat.add_comm _ _), Nat.le_of_eq (Nat.add_comm _ _)⟩
    · rintro l _ _ more ⟨-, rfl⟩ hmore
      exact hmore
    · obtain ⟨l, behind, rfl, hl⟩ := eq_cons_of_head hls
      have hkind : l.kind = .word key := congrArg Piece.kind hl
      rw [readKeyed_cons hkind, readKeyed_cons hkind, Reader.wordLexeme_cons hkind]
      exact ⟨rfl, rfl⟩
  · refine ⟨_, _, _, hplain, fun ls hls ↦ ?_, fun _ _ _ h ↦ h⟩
    have hnone : ∀ bound, readKeyed bound keyed plain ls = readTyped bound plain ls := by
      intro bound
      unfold readKeyed
      split
      · exact absurd ⟨_, _, hls.symm⟩ hfirst
      · rfl
    exact ⟨hnone _, hnone _⟩

/-- Behind the mark of what is optional, a key may follow. -/
theorem read_question {l : Lexeme} (hl : l.kind = .symbol .question) (bound : ℕ)
    (ls : List Lexeme) :
    Param.read bound (l :: ls) = readKeyed bound .optionalKeyword .optional ls := by
  cases l
  cases hl
  unfold readKeyed
  split
  · rfl
  next hnot =>
    rw [Param.read, ParamKind.read]
    · rfl
    · exact hnot

/-- Where no mark is first, a parameter is required. -/
theorem read_eq_readKeyed {ls : List Lexeme} (h : Reading.Avoids [.starStar, .star, .question] ls)
    (bound : ℕ) : Param.read bound ls = readKeyed bound .requiredKeyword .required ls := by
  unfold readKeyed
  split
  · rfl
  next hnot =>
    rw [Param.read, ParamKind.read]
    · rfl
    · rintro _ _ _ _ _ _ rfl
      exact h _ rfl .starStar (by simp) rfl
    · rintro _ _ _ _ _ _ rfl
      exact h _ rfl .star (by simp) rfl
    · rintro _ _ _ _ _ _ _ _ _ _ _ _ _ _ _ _ _ rfl
      exact h _ rfl .question (by simp) rfl
    · rintro _ _ _ _ _ _ rfl
      exact h _ rfl .question (by simp) rfl
    · exact hnot

/-- Behind all lexemes a parameter lacks its type. -/
theorem read_nil (bound : ℕ) : Param.read bound [] = .error (.unexpected .type none) := by
  cases bound <;> rfl

/-- The empty list begins a parameter. -/
theorem viable_param : Viable (Rule.Language (.ref .param) : Param → List Piece → Prop) [] := by
  refine (readTyped_predicts 0 0 .required).viable.mono fun p more hmore ↦ ⟨p, ?_⟩
  exact .ref (derives_append_assoc.2 (.sequence (.right .empty) hmore))

/-- A parameter is derived from its mark and what stands behind that. -/
theorem derives_param {mark ps : List Piece} (hmark : Derives production Nonterminal.passing mark)
    (hps : Derives production Nonterminal.typed ps) :
    Derives production (.ref .param) (mark ++ ps) :=
  .ref (derives_append_assoc.2 (.sequence hmark hps))

/-- A parameter is predicted. -/
theorem read_predicts (bound bound' : ℕ) :
    Predicts bound bound' (Param.read bound) (Param.read bound') (Rule.ref .param).Language := by
  refine predicts_of_step (fun _ : Unit ↦ Param.read) (fun _ ↦ Param.read) (fun bound ↦ bound)
    (fun bound ↦ bound) rfl rfl .type viable_param (fun _ ↦ read_nil) (fun _ ↦ read_nil)
    (fun bound bound' _ _ ↦ ?_) bound bound' ()
  have htyped := readTyped_predicts (bound + 1) (bound' + 1)
  have hkeyed := readKeyed_predicts bound bound'
  refine predicts_of_head viable_param fun first ↦ ?_
  by_cases hmark :
      ∃ s ∈ [Symbol.starStar, .star, .question], ∃ glued, first = some ⟨.symbol s, glued⟩
  · obtain ⟨s, hs, glued, rfl⟩ := hmark
    simp only [List.mem_cons, List.not_mem_nil, or_false] at hs
    rcases hs with rfl | rfl | rfl
    · refine (htyped .keywordRest).after (Nat.le_succ _) (Nat.le_succ _)
        (fun _ _ ↦ ⟨rfl, rfl⟩) fun ps hps ↦ ?_
      obtain ⟨mark, ps, rfl, hmark, hps⟩ := derives_sequence_iff.1 hps
      exact derives_param (.left (.left (.left (.left (.left hmark))))) hps
    · refine (htyped .rest).after (Nat.le_succ _) (Nat.le_succ _)
        (fun _ _ ↦ ⟨rfl, rfl⟩) fun ps hps ↦ ?_
      obtain ⟨mark, ps, rfl, hmark, hps⟩ := derives_sequence_iff.1 hps
      exact derives_param (.left (.left (.left (.left (.right hmark))))) hps
    · refine (hkeyed .optionalKeyword .optional).after (Nat.le_succ _) (Nat.le_succ _)
        (fun _ behind ↦ ⟨read_question rfl _ behind, read_question rfl _ behind⟩) fun ps hps ↦ ?_
      obtain ⟨mark, ps, rfl, hmark, hps⟩ := derives_sequence_iff.1 hps
      obtain ⟨key, ps, rfl, hkey, htail⟩ := derives_sequence_iff.1 hps
      rcases derives_possibly_iff.1 hkey with hkey | rfl
      · have hall := derives_append_assoc.2 (Derives.sequence hmark hkey)
        rw [← List.append_assoc]
        exact derives_param (.left (.left (.left (.right hall)))) htail
      · exact derives_param (.left (.left (.right hmark))) htail
  · refine ⟨_, _, _, hkeyed .requiredKeyword .required, fun ls hls ↦ ?_, fun _ ps _ hps ↦ ?_⟩
    · have havoids : Reading.Avoids [.starStar, .star, .question] ls := by
        intro l hl s hs hkind
        rw [hl] at hls
        exact hmark ⟨s, hs, l.glued, by rw [← hls, ← hkind]; rfl⟩
      exact ⟨read_eq_readKeyed havoids _, read_eq_readKeyed havoids _⟩
    · obtain ⟨key, ps, rfl, hkey, htail⟩ := derives_sequence_iff.1 hps
      rcases derives_possibly_iff.1 hkey with hkey | rfl
      · exact derives_param (.left (.right hkey)) htail
      · exact derives_param (.right .empty) htail

end Param

namespace Overload

/-- The parameters of a method are predicted. -/
theorem readParams_predicts (bound bound' : ℕ) :
    Predicts bound bound' (readParams bound) (readParams bound')
      (Rule.possibly (.ref .param ++
        .many (Nonterminal.symbol .comma ++ .ref .param))).Language := by
  have hparam := Param.read_predicts bound bound'
  have hparams := hparam.sequence fun first ↦ (hparam.many .comma).answer (first :: ·)
  refine predicts_of_head (viable_of_mem (x := []) (.right .empty)) fun first ↦ ?_
  by_cases hfirst : ∃ glued, first = some ⟨.symbol .rightParen, glued⟩
  · obtain ⟨glued, rfl⟩ := hfirst
    refine ⟨_, _, _, Reader.predicts_empty [], fun ls hls ↦ ?_, fun _ _ _ hps ↦ .right hps⟩
    obtain ⟨l, behind, rfl, hl⟩ := eq_cons_of_head hls
    cases l
    cases hl
    exact ⟨rfl, rfl⟩
  · refine ⟨_, _, _, hparams, fun ls hls ↦ ?_, fun _ _ _ hps ↦ .left hps⟩
    have hnot : ∀ position leading trailing glued spaced behind, ls =
        ⟨.symbol .rightParen, position, leading, trailing, glued, spaced⟩ :: behind → False := by
      rintro _ _ _ glued _ _ rfl
      exact hfirst ⟨glued, hls.symm⟩
    rw [readParams, readParams]
    · exact ⟨rfl, rfl⟩
    · exact hnot
    · exact hnot

/-- An overload is predicted. -/
theorem read_predicts (bound bound' : ℕ) :
    Predicts bound bound' (Overload.read bound) (Overload.read bound')
      (Rule.ref .methodType).Language := by
  have hresult := TypeExpr.readOptional_predicts (TypeExpr.readPrimary_predicts bound bound')
  have hbehind := fun params : List Param ↦
    ((hresult.answer (Overload.mk params)).terminal .arrow .arrow).terminal
      .rightParen .commaOrClosingParen
  have hall :=
    ((readParams_predicts bound bound').sequence hbehind).terminal .leftParen .openingParen
  refine hall.derives fun ps hps ↦ .ref ?_
  exact derives_append_assoc.2 (derives_append_assoc.2 (derives_append_assoc.2 hps))

end Overload

/-- What the name of a method is derived from, with what marks one of the class itself. -/
def Nonterminal.receiver : Rule Piece Nonterminal :=
  .possibly (keyword "self" ++ symbol .dot) ++ .ref .methodName

namespace Method

/-- Reads the name of a method, and whether it is one of the class itself. -/
def readReceiver : Reader (Bool × String) := fun ls ↦
  readName (readSingleton ls).2 >>= fun p ↦ .ok (((readSingleton ls).1, p.1), p.2)

/-- Whether a `self` in front is the receiver of a method depends only on the dot behind it. -/
theorem readReceiver_cons {l : Lexeme} (hl : l.kind = .word "self") (ls : List Lexeme) :
    readReceiver (l :: ls) = Reader.ifSymbol .dot
      (fun ls ↦ readName ls >>= fun p ↦ .ok ((true, p.1), p.2))
      (fun ls ↦ readName (l :: ls) >>= fun p ↦ .ok ((false, p.1), p.2)) ls := by
  cases l
  cases hl
  rw [readReceiver, Reader.ifSymbol]
  unfold readSingleton
  split
  next heq =>
    cases heq
    rfl
  next hnot =>
    cases hdot : afterSymbol? .dot ls with
    | none => rfl
    | some behind =>
      obtain ⟨⟨_, _, _, _, _, _⟩, rfl, rfl⟩ := eq_cons_of_afterSymbol? hdot
      exact absurd rfl (hnot _ _ _ _ _ _ _ _ _ _ _)

/-- A method has a name. -/
theorem not_derives_methodName_nil : ¬Derives production (.ref .methodName) [] :=
  fun h ↦ h.ne_nil Nonterminal.fills_production rfl rfl

/-- The name of a method is predicted with its receiver. -/
theorem readReceiver_predicts (size size' : ℕ) :
    Predicts size size' readReceiver readReceiver Nonterminal.receiver.Language := by
  have hname := fun size size' (singleton : Bool) ↦
    (readName_predicts size size').answer (Prod.mk singleton)
  have hplain : Predicts size size' (fun ls ↦ readName ls >>= fun p ↦ .ok ((false, p.1), p.2))
      (fun ls ↦ readName ls >>= fun p ↦ .ok ((false, p.1), p.2)) Nonterminal.receiver.Language :=
    (hname size size' false).derives fun _ ↦ derives_behind_possibly
  refine predicts_of_head hplain.viable fun first ↦ ?_
  by_cases hself : ∃ glued, first = some ⟨.word "self", glued⟩
  · obtain ⟨glued, rfl⟩ := hself
    -- without a dot behind it, the word is the name
    have hbehind : ∀ l : Lexeme, (∃ text, l.kind = .word text) → Predicts size size'
        (Reader.ifSymbol .dot (fun ls ↦ readName ls >>= fun p ↦ .ok ((true, p.1), p.2))
          fun ls ↦ readName (l :: ls) >>= fun p ↦ .ok ((false, p.1), p.2))
        (Reader.ifSymbol .dot (fun ls ↦ readName ls >>= fun p ↦ .ok ((true, p.1), p.2))
          fun ls ↦ readName (l :: ls) >>= fun p ↦ .ok ((false, p.1), p.2))
        fun _ ps ↦ l.kind = .word "self" →
          Derives production Nonterminal.receiver (l.piece :: ps) := by
      rintro l ⟨text, hl⟩
      have hword : Derives production (.ref .methodName) [l.piece] :=
        .ref (derives_without (.token ⟨text, hl⟩))
      have hone : (readName [l] >>= fun p ↦ .ok ((false, p.1), p.2)) =
          (.ok ((false, text), []) : Except Failure (Parsed (Bool × String))) := by
        cases l
        cases hl
        rfl
      refine (hname size size' true).ifSymbol .dot
        ((hname (size + 1) (size' + 1) false).behind hone hword fun _ ↦ not_derives_methodName_nil)
        (Nat.le_succ _) (Nat.le_succ _) ?_ fun _ ps hps _ ↦ derives_behind_possibly hps
      intro _ p ps hp hps hself
      exact .sequence (.left (.sequence (derives_terminal hself) (derives_terminal hp))) hps
    refine ⟨_, _, _, predicts_wordLexeme.bind_taken
      (L := fun _ ps ↦ (∀ p ∈ ps.head?, p.kind = .word "self") →
        Derives production Nonterminal.receiver ps)
      (fun l _ hl ↦ hbehind l hl.1)
      (fun l ps hl ↦ (hbehind l hl.1).viable)
      (fun _ _ _ ↦ ⟨Nat.le_add_left _ _, Nat.le_add_left _ _⟩) ?_, fun ls hls ↦ ?_, ?_⟩
    · rintro l _ _ more ⟨-, rfl⟩ hmore hhead
      exact hmore (hhead _ rfl)
    · obtain ⟨l, behind, rfl, hl⟩ := eq_cons_of_head hls
      have hkind : l.kind = .word "self" := congrArg Piece.kind hl
      rw [readReceiver_cons hkind, Reader.wordLexeme_cons hkind]
      exact ⟨rfl, rfl⟩
    · intro _ ps hps hall
      exact hall fun p hp ↦ congrArg Piece.kind (Option.some.inj (hps p hp)).symm
  · refine ⟨_, _, _, hplain, fun ls hls ↦ ?_, fun _ _ _ hps ↦ hps⟩
    have hnone : readSingleton ls = (false, ls) := by
      unfold readSingleton
      split
      · exact absurd ⟨_, hls.symm⟩ hself
      · rfl
    rw [readReceiver, hnone]
    exact ⟨rfl, rfl⟩

/-- A method is predicted with all of its overloads. -/
theorem read_predicts (bound bound' : ℕ) :
    Predicts bound bound' (Method.read bound) (Method.read bound') Nonterminal.method.Language := by
  have hoverload := Overload.read_predicts bound bound'
  have hall := (readReceiver_predicts bound bound').sequence fun named : Bool × String ↦
    (hoverload.sequence fun first ↦ (hoverload.many .pipe).answer fun others ↦
      (⟨named.2, named.1, first :: others⟩ : Method)).terminal .colon .colon
  refine (hall.derives fun ps hps ↦ ?_).congr (fun ls _ ↦ ?_) fun ls _ ↦ ?_
  · exact derives_append_assoc.2 (derives_append_assoc.2 hps)
  · rw [readReceiver, bind_assoc]
    rfl
  · rw [readReceiver, bind_assoc]
    rfl

end Method

/-! ### Members and headers -/

namespace MemberContent

/-- An attribute is predicted. -/
theorem readAttr_predicts (kind : AttributeKind) (bound bound' : ℕ) :
    Predicts bound bound' (readAttr kind bound) (readAttr kind bound')
      (.ref .methodName ++ (Nonterminal.symbol .colon ++ .ref .unionType)).Language :=
  (Method.readName_predicts bound bound').sequence fun name ↦
    ((TypeExpr.read_predicts bound bound').answer (attr kind name)).terminal .colon .colon

/-- A member that is no declaration is predicted, by its keyword first. -/
theorem readLine_predicts (bound bound' : ℕ) :
    Predicts (bound + 1) (bound' + 1) (readLine bound) (readLine bound')
      Nonterminal.line.Language := by
  have hmixin := ClassType.read_predicts bound bound'
  have hname := Method.readName_predicts bound bound'
  have hincluding := hmixin.answer including
  have hextending := hmixin.answer extending
  have hmethod := (Method.read_predicts bound bound').answer method
  have haliasing := hname.sequence fun new ↦ hname.answer (aliasing new)
  have hattr : ∀ (kind : AttributeKind) ps, Derives production (Nonterminal.keyword kind.keyword ++
      (.ref .methodName ++ (Nonterminal.symbol .colon ++ .ref .unionType))) ps →
      Derives production Nonterminal.line ps := by
    intro kind ps hps
    obtain ⟨keyword, ps, rfl, hkeyword, htail⟩ := derives_sequence_iff.1 hps
    obtain ⟨p, hp, rfl⟩ := derives_token_iff.1 hkeyword
    have hall := Derives.sequence (AttributeKind.derives_keyword hp) htail
    exact .left (.left (.right (derives_append_assoc.2 (derives_append_assoc.2 hall))))
  have hviable : Viable (Nonterminal.line.Language : MemberContent → List Piece → Prop) [] :=
    ⟨aliasing "A" "A", [.word "alias", .word "A", .word "A"], by decide,
      (Spells.aliasing rfl (.plain "A" false) (.plain "A" false)).derives⟩
  refine predicts_of_head_or .member hviable fun first ↦ ?_
  by_cases hfirst : ∃ text ∈ keywords, ∃ glued, first = some ⟨.word text, glued⟩
  · obtain ⟨text, htext, glued, rfl⟩ := hfirst
    left
    simp only [keywords, List.mem_cons, List.not_mem_nil, or_false] at htext
    rcases htext with rfl | rfl | rfl | rfl | rfl | rfl | rfl
    · exact hincluding.after (Nat.le_refl _) (Nat.le_refl _) (fun _ _ ↦ ⟨rfl, rfl⟩)
        fun ps hps ↦ .left (.left (.left (.left hps)))
    · exact hextending.after (Nat.le_refl _) (Nat.le_refl _) (fun _ _ ↦ ⟨rfl, rfl⟩)
        fun ps hps ↦ .left (.left (.left (.right hps)))
    · exact (readAttr_predicts .reader bound bound').after (Nat.le_refl _) (Nat.le_refl _)
        (fun _ _ ↦ ⟨rfl, rfl⟩) (hattr .reader)
    · exact (readAttr_predicts .writer bound bound').after (Nat.le_refl _) (Nat.le_refl _)
        (fun _ _ ↦ ⟨rfl, rfl⟩) (hattr .writer)
    · exact (readAttr_predicts .accessor bound bound').after (Nat.le_refl _) (Nat.le_refl _)
        (fun _ _ ↦ ⟨rfl, rfl⟩) (hattr .accessor)
    · exact hmethod.after (Nat.le_refl _) (Nat.le_refl _) (fun _ _ ↦ ⟨rfl, rfl⟩)
        fun ps hps ↦ .left (.right hps)
    · exact haliasing.after (Nat.le_refl _) (Nat.le_refl _) (fun _ _ ↦ ⟨rfl, rfl⟩)
        fun ps hps ↦ .right (derives_append_assoc.2 hps)
  · refine Or.inr fun ls hls ↦ ?_
    have hother : ∀ bound, readLine bound ls = unexpected .member ls := by
      intro bound
      unfold readLine
      split
      case h_8 => rfl
      all_goals exact absurd ⟨_, by simp [keywords], _, hls.symm⟩ hfirst
    exact ⟨hother _, hother _⟩

end MemberContent

/-- The superclass of a header is predicted. -/
theorem ClassType.readSuperclass_predicts (bound bound' : ℕ) :
    Predicts bound bound' (readSuperclass bound) (readSuperclass bound')
      (Rule.possibly (Nonterminal.symbol .less ++ .ref .classType)).Language := by
  have hclass := (ClassType.read_predicts bound bound').answer some
  have hall : Predicts bound bound' _ _
      (Rule.possibly (Nonterminal.symbol .less ++ .ref .classType)).Language :=
    hclass.ifSymbol .less (Reader.predicts_empty none) (Nat.le_succ _) (Nat.le_succ _)
      (fun _ p ps hp hps ↦ .left (derives_cons hp hps)) fun _ ps hps ↦ .right hps
  refine hall.congr (fun ls _ ↦ ?_) fun ls _ ↦ ?_ <;>
    rw [readSuperclass, Reader.ifSymbol] <;> cases afterSymbol? .less ls <;> rfl

/-- The header of a declaration is predicted. -/
theorem DeclarationKind.read_predicts (bound bound' : ℕ) :
    Predicts (bound + 1) (bound' + 1) (DeclarationKind.read bound) (DeclarationKind.read bound')
      Nonterminal.header.Language := by
  have hname := TypeName.read_predicts_name bound bound'
  have hclass := hname.sequence fun name ↦ (ClassType.readSuperclass_predicts bound bound').map
    (fun superclass ↦ (ofClass superclass, name)) fun _ _ hps ↦ hps
  have hmodule := hname.answer (fun name ↦ (ofModule, name))
  have hne : (⟨false, ["A"]⟩ : TypeName).path ≠ [] := List.cons_ne_nil _ _
  have hviable : Viable (Nonterminal.header.Language : DeclarationKind × TypeName → _ → Prop) [] :=
    ⟨(ofModule, ⟨false, ["A"]⟩), [.word "module", .word "A"], by decide,
      .right (derives_cons rfl (TypeName.derives hne rfl))⟩
  refine predicts_of_head_or .classOrModule hviable fun first ↦ ?_
  by_cases hfirst : ∃ text ∈ ["class", "module"], ∃ glued, first = some ⟨.word text, glued⟩
  · obtain ⟨text, htext, glued, rfl⟩ := hfirst
    left
    simp only [List.mem_cons, List.not_mem_nil, or_false] at htext
    rcases htext with rfl | rfl
    · exact hclass.after (Nat.le_refl _) (Nat.le_refl _) (fun _ _ ↦ ⟨rfl, rfl⟩)
        fun ps hps ↦ .left (derives_append_assoc.2 hps)
    · exact hmodule.after (Nat.le_refl _) (Nat.le_refl _) (fun _ _ ↦ ⟨rfl, rfl⟩)
        fun ps hps ↦ .right hps
  · refine Or.inr fun ls hls ↦ ?_
    have hother : ∀ bound, DeclarationKind.read bound ls = unexpected .classOrModule ls := by
      intro bound
      unfold DeclarationKind.read
      split
      case h_3 => rfl
      all_goals exact absurd ⟨_, by simp, _, hls.symm⟩ hfirst
    exact ⟨hother _, hother _⟩

end ModelSignatures
