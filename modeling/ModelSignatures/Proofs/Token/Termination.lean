import ModelSignatures.Proofs.Unfolding
import ModelSignatures.Proofs.Token.Scan

/-!
# Splitting a text comes to an end

A scan takes at least one character, so a text is split into no more tokens than it has characters,
and the bound on their number is not felt (`Lexer.tokensFrom_ends`).
-/

namespace ModelSignatures.Lexer

/-- What the splitting of a text does with `tokens` in place of itself behind a token. -/
def tokensFromCalling (tokens : Location → List Char → Except SyntaxError (List Token))
    (place : Location) (cs : List Char) : Except SyntaxError (List Token) :=
  let start := place.walk (cs.takeWhile isBlank)
  match cs.dropWhile isBlank with
  | [] => .ok []
  | c :: cs =>
    match scan c cs with
    | .error fault => .error ⟨(start.walk fault.before).toPosition, fault.cause⟩
    | .ok scanned => do
      let stop := start.walk scanned.taken
      let others ← tokens stop scanned.rest
      return ⟨scanned.kind, start, stop⟩ :: others

theorem tokensFrom_succ (bound : ℕ) :
    tokensFrom (bound + 1) = tokensFromCalling (tokensFrom bound) :=
  rfl

/-- A text ends after at most as many tokens as it has characters. -/
theorem tokensFrom_ends {bound : ℕ} (place : Location) {cs : List Char}
    (hbound : cs.length ≤ bound) :
    EndsWithin tokensFromCalling (cs.length + 1) (· place cs) (tokensFrom bound place cs) := by
  intro tokens
  -- Which bound is meant stays free, since it goes down by one behind each token.
  refine iterate_of_step tokensFromCalling
    (fun size tokens ↦ ∀ bound place cs, size ≤ bound → cs.length ≤ size →
      tokens place cs = tokensFrom bound place cs) (fun _ bound place cs _ hcs ↦ ?_)
    (fun size _ tokens h bound place cs hbound hcs ↦ ?_) tokens bound place cs hbound
    (Nat.le_refl _)
  · rw [List.length_eq_zero_iff.1 (Nat.le_zero.1 hcs)]
    cases bound <;> rfl
  · obtain ⟨bound, rfl⟩ := Nat.exists_eq_add_of_le' (Nat.le_trans (Nat.le_add_left 1 size) hbound)
    have hdrop := (List.dropWhile_suffix isBlank (l := cs)).length_le
    rw [tokensFrom_succ, tokensFromCalling, tokensFromCalling]
    cases hrest : cs.dropWhile isBlank with
    | nil => rfl
    | cons c ds =>
      dsimp only
      cases hscan : scan c ds with
      | error fault => rfl
      | ok scanned =>
        have hshorter := length_rest_lt_of_scan hscan
        rw [hrest] at hdrop
        dsimp only
        rw [h bound _ scanned.rest (Nat.le_of_succ_le_succ hbound) (by omega)]

end ModelSignatures.Lexer
