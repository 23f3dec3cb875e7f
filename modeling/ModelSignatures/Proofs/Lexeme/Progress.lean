import ModelSignatures.Proofs.Lexeme.Prediction
import ModelSignatures.Proofs.Lexeme.Termination
import ModelSignatures.Proofs.Signature.Stretches

/-!
# Readers move on

What a reader leaves is an end of what it was given, and so is what it points at where it does not
find what it wants (`Reader.MovesOn`). In a list of tokens with comments among them, the lexemes
left at some index belong to the tokens from there on. So a reader that takes lexemes goes on to an
index further right, and it passes as many tokens that are no comments as it takes lexemes
(`Reader.MovesOn.goesOn`).
-/

namespace ModelSignatures

/-! ### Among lexemes -/

/-- Whether a reader only moves on, on lists up to a size: it leaves an end of the list behind at
least `least` lexemes, and where it does not find what it wants, an end of the list is left. -/
structure Reader.MovesOn {α : Type} (size least : ℕ) (r : Reader α) : Prop where
  success : ∀ ⦃ls x rest⦄, ls.length ≤ size → r ls = .ok (x, rest) →
    ∃ pre, ls = pre ++ rest ∧ least ≤ pre.length
  failure : ∀ ⦃ls wanted found⦄, ls.length ≤ size → r ls = .error (.unexpected wanted found) →
    ∃ pre rest, ls = pre ++ rest ∧ rest.head? = found

/-- A reader that predicts its language moves on by the words of it. -/
theorem Reader.Predicts.movesOn {α : Type} {size size' least : ℕ} {r r' : Reader α}
    {L : α → List Piece → Prop} (h : Predicts size size' r r' L)
    (hleast : ∀ x ps, L x ps → least ≤ ps.length) : r.MovesOn size least where
  success := by
    intro ls x rest hls hread
    obtain ⟨pre, hpre, hx, -⟩ := h.success hls hread
    have hle := hleast x _ hx
    rw [List.length_map] at hle
    exact ⟨pre, hpre, hle⟩
  failure := by
    rintro ls wanted (- | l) hls hread
    · exact ⟨ls, [], (List.append_nil ls).symm, rfl⟩
    · obtain ⟨pre, rest, hpre, -⟩ := h.failure hls hread
      exact ⟨pre, l :: rest, hpre, rfl⟩

theorem Reader.MovesOn.leavesNoMore {α : Type} {size least : ℕ} {r : Reader α}
    (h : r.MovesOn size least) : r.LeavesNoMore size := by
  intro ls x rest hls hread
  obtain ⟨pre, rfl, -⟩ := h.success hls hread
  rw [List.length_append]
  exact Nat.le_add_left _ _

/-! ### Among tokens -/

/-- Whether the lexemes are those left at an index of the tokens, behind some token and with some
comments pending. -/
structure Lexeme.AreLeftAt (tokens : List Token) (i : ℕ) (ls : List Lexeme) : Prop where
  index_le : i ≤ tokens.length
  gathered : ∃ before pending, (gather before pending (tokens.drop i)).1 = ls

/-- How many tokens from the index `i` up to the index `j` are no comments. -/
def Token.codeBetween (tokens : List Token) (i j : ℕ) : ℕ :=
  (withoutComments ((tokens.take j).drop i)).length

namespace Lexeme

variable {tokens : List Token} {i : ℕ} {ls pre rest : List Lexeme}

/-- There are as many lexemes left as tokens that are no comments. -/
theorem AreLeftAt.length_eq (h : AreLeftAt tokens i ls) :
    ls.length = Token.codeBetween tokens i tokens.length := by
  obtain ⟨before, pending, rfl⟩ := h.gathered
  have hpieces := congrArg List.length (map_piece_gather before pending (tokens.drop i))
  rw [List.length_map] at hpieces
  rw [hpieces, Token.codeBetween, List.take_length]
  exact Token.length_pieces _ _

/-- Behind the first lexemes of some tokens, those of the tokens further right are left. -/
theorem exists_drop_of_gather {before : Option Token} {pending : List Comment}
    (h : (gather before pending tokens).1 = pre ++ rest) :
    ∃ j ≤ tokens.length, (Token.withoutComments (tokens.take j)).length = pre.length ∧
      ∃ before pending, (gather before pending (tokens.drop j)).1 = rest := by
  induction tokens generalizing before pending pre with
  | nil =>
    obtain ⟨rfl, rfl⟩ := List.append_eq_nil_iff.1 h.symm
    exact ⟨0, Nat.le_refl 0, rfl, none, [], rfl⟩
  | cons t tokens ih =>
    rcases pre with - | ⟨l, pre⟩
    · exact ⟨0, Nat.zero_le _, rfl, before, pending, h⟩
    · cases ht : t.kind.isComment with
      | false =>
        rw [gather_cons ht] at h
        obtain ⟨j, hj, hlength, hrest⟩ := ih (List.cons.inj h).2
        refine ⟨j + 1, Nat.succ_le_succ hj, ?_, hrest⟩
        rw [List.take_succ_cons, Token.withoutComments_cons_of_code ht, List.length_cons,
          List.length_cons, hlength]
      | true =>
        -- The index moves on over a comment, but no lexeme is taken.
        obtain ⟨text, htext⟩ := TokenKind.exists_eq_comment ht
        rw [gather_comment htext] at h
        obtain ⟨j, hj, hlength, hrest⟩ := ih h
        refine ⟨j + 1, Nat.succ_le_succ hj, ?_, hrest⟩
        rw [List.take_succ_cons, Token.withoutComments_cons_of_comment ht, hlength]

theorem AreLeftAt.of_append (h : AreLeftAt tokens i (pre ++ rest)) :
    ∃ j, i ≤ j ∧ AreLeftAt tokens j rest ∧ Token.codeBetween tokens i j = pre.length := by
  obtain ⟨before, pending, hgather⟩ := h.gathered
  obtain ⟨j, hj, hlength, before', pending', hrest⟩ := exists_drop_of_gather hgather
  have hindex := h.index_le
  rw [List.length_drop] at hj
  rw [List.drop_drop] at hrest
  refine ⟨i + j, Nat.le_add_right i j, ⟨by omega, before', pending', hrest⟩, ?_⟩
  rw [Token.codeBetween, List.drop_take, Nat.add_sub_cancel_left]
  exact hlength

end Lexeme

/-- Whether a result of reading at the index `i` of some tokens goes on from there: what is left is
what is left at an index that is no further left, `least` tokens or more that are no comments behind
`i`, and what is found in place of what is wanted is at such an index, too. -/
structure Token.GoesOn {α : Type} (tokens : List Token) (i least : ℕ)
    (result : Except Failure (Parsed α)) : Prop where
  success : ∀ ⦃x rest⦄, result = .ok (x, rest) →
    ∃ j, i ≤ j ∧ Lexeme.AreLeftAt tokens j rest ∧ least ≤ codeBetween tokens i j
  failure : ∀ ⦃wanted found⦄, result = .error (.unexpected wanted found) →
    ∃ j rest, i ≤ j ∧ Lexeme.AreLeftAt tokens j rest ∧ rest.head? = found

theorem Reader.MovesOn.goesOn {α : Type} {size least : ℕ} {r : Reader α} (h : r.MovesOn size least)
    {tokens : List Token} {i : ℕ} {ls : List Lexeme} (hls : Lexeme.AreLeftAt tokens i ls)
    (hsize : ls.length ≤ size) : Token.GoesOn tokens i least (r ls) where
  success := by
    intro x rest hread
    obtain ⟨pre, rfl, hleast⟩ := h.success hsize hread
    obtain ⟨j, hj, hrest, hcode⟩ := hls.of_append
    exact ⟨j, hj, hrest, hcode ▸ hleast⟩
  failure := by
    intro wanted found hread
    obtain ⟨pre, rest, rfl, hfound⟩ := h.failure hsize hread
    obtain ⟨j, hj, hrest, -⟩ := hls.of_append
    exact ⟨j, rest, hj, hrest, hfound⟩

end ModelSignatures
