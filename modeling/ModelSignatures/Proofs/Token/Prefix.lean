import ModelSignatures.Proofs.Layout.Tokens
import ModelSignatures.Proofs.Token.Lexed

/-!
# Tokens and what follows them

A scan looks at most one character beyond what it takes, so a token is read again wherever its
characters stand in front of something that it ends before. The first tokens of a text therefore
come from its first characters, and any text may be written behind those after a blank
(`Lexer.Tokenized.exists_front`).
-/

namespace ModelSignatures

namespace TokenKind

/-- Only the next character tells whether a token ends there. -/
theorem EndsBefore.congr {kind : TokenKind} {cs ds : List Char} (h : kind.EndsBefore cs)
    (hhead : cs.head? = ds.head?) : kind.EndsBefore ds := by
  cases kind with
  | symbol s =>
    cases s with
    | colon | star => exact fun hds ↦ h (hhead.trans hds)
    | _ => trivial
  | word text | comment text =>
    intro c hc
    exact h c (hhead ▸ hc)
  | annot text => trivial

/-- A token that is no comment ends before a blank. -/
theorem endsBefore_of_blank {kind : TokenKind} (hkind : kind.isComment = false) {cs : List Char}
    (hcs : ∀ c ∈ cs.head?, isBlank c = true) : kind.EndsBefore cs := by
  cases kind with
  | symbol s =>
    cases s with
    | colon | star =>
      intro hhead
      exact absurd (hcs _ hhead) (by decide)
    | _ => trivial
  | word text =>
    intro c hc
    cases hword : isWordChar c with
    | false => rfl
    | true =>
      have hblank := hcs c hc
      rw [Lexer.isBlank_of_isWordChar hword] at hblank
      cases hblank
  | annot text => trivial
  | comment text => cases hkind

end TokenKind

namespace Lexer

/-- The place behind some tokens that are read from `place` on. -/
def placeBehind (place : Location) (tokens : List Token) : Location :=
  (tokens.getLast?.map (·.stop)).getD place

theorem placeBehind_cons (place : Location) (t : Token) (tokens : List Token) :
    placeBehind place (t :: tokens) = placeBehind t.stop tokens := by
  rw [placeBehind, placeBehind, List.getLast?_cons]
  cases tokens.getLast? <;> rfl

/-- The first tokens of a text come from its first characters, whatever is written behind those
after a blank. -/
theorem Tokenized.exists_front {place : Location} {cs : List Char} {before after : List Token}
    (h : Tokenized place cs (before ++ after)) (hcode : ∀ t ∈ before, t.kind.isComment = false) :
    ∃ front, front <+: cs ∧ ∀ tail others, (∀ c ∈ tail.head?, isBlank c = true) →
      Tokenized (placeBehind place before) tail others →
        Tokenized place (front ++ tail) (before ++ others) := by
  induction before generalizing place cs with
  | nil => exact ⟨[], List.nil_prefix, fun tail others _ hothers ↦ hothers⟩
  | cons t before ih =>
    obtain ⟨ht, hbefore⟩ := List.forall_mem_cons.1 hcode
    rw [List.cons_append] at h
    cases h with
    | @token _ blanks cs c s _ blank first scanned behind =>
      obtain ⟨front, ⟨rest, hrest⟩, hfront⟩ := ih behind hbefore
      obtain ⟨hends, more, htaken, hagain⟩ := scan_again scanned
      refine ⟨blanks ++ (s.taken ++ front), ⟨rest, ?_⟩, fun tail others htail hothers ↦ ?_⟩
      · rw [List.append_assoc, List.append_assoc, hrest, taken_append_rest_of_scan scanned]
      · -- what is written behind the front begins as what was read there, or with a blank
        have hbehind : s.kind.EndsBefore (front ++ tail) := by
          cases front with
          | nil => exact TokenKind.endsBefore_of_blank ht htail
          | cons d front => exact hends.congr (by rw [← hrest]; rfl)
        rw [placeBehind_cons] at hothers
        have hall := Tokenized.token blank first (hagain _ hbehind) (hfront _ _ htail hothers)
        rwa [← List.cons_append, ← htaken, ← List.append_assoc, ← List.append_assoc,
          List.append_assoc blanks] at hall

end Lexer

/-! ### Tokens apart -/

/-- Whether a token can be written and read back without regard to what stands around it. -/
def TokenKind.IsFiller (kind : TokenKind) : Prop :=
  kind.WellFormed ∧ kind.isComment = false

instance : DecidablePred TokenKind.IsFiller := fun _ ↦ inferInstanceAs (Decidable (_ ∧ _))

namespace Layout

/-- Some tokens, each behind a space. -/
def spread (kinds : List TokenKind) : Layout :=
  kinds.flatMap fun kind ↦ [.space, .token kind]

theorem spread_cons (kind : TokenKind) (kinds : List TokenKind) :
    spread (kind :: kinds) = .space :: .token kind :: spread kinds := rfl

theorem tokens_spread (kinds : List TokenKind) : tokens (spread kinds) = kinds := by
  induction kinds with
  | nil => rfl
  | cons kind kinds ih => rw [spread_cons, tokens_space, tokens_token, ih]

theorem head?_spread (kinds : List TokenKind) :
    ∀ c ∈ (chars (spread kinds) ++ [' ']).head?, isBlank c = true := by
  intro c hc
  obtain rfl : c = ' ' := by
    cases kinds with
    | nil => exact (Option.some.inj hc).symm
    | cons kind kinds => exact (Option.some.inj hc).symm
  decide

/-- Fillers with spaces between them are readable. -/
theorem readable_spread {kinds : List TokenKind}
    (h : ∀ kind ∈ kinds, kind.IsFiller) :
    (spread kinds).Readable [' '] ∧ (spread kinds).AnnotsFit := by
  refine ⟨?_, fun text htext ↦ ?_⟩
  · induction kinds with
    | nil => trivial
    | cons kind kinds ih =>
      obtain ⟨⟨hkind, hcode⟩, hkinds⟩ := List.forall_mem_cons.1 h
      refine ⟨?_, TokenKind.endsBefore_of_blank hcode (head?_spread kinds), ih hkinds⟩
      cases kind with
      | annot text => trivial
      | _ => exact hkind
  · rw [tokens_spread] at htext
    exact (h _ htext).1

end Layout

end ModelSignatures
