import ModelSignatures.Proofs.Except
import ModelSignatures.Proofs.Token.Scan

/-!
# The tokens of a text told without a search

The tokens of a text are told by a relation without bounds (`Lexer.Tokenized`): blanks are skipped
and a token is scanned, again and again. The lexer finds them exactly as the relation has it
(`Token.tokenize_eq_ok_iff`), so what is known of the tokens of a text is shown by induction over
the relation. Blanks in front of a text only move the place at which it begins
(`Lexer.tokenized_append_iff`), and what is scanned first is the first token
(`Lexer.tokenized_cons_iff`).
-/

namespace ModelSignatures

namespace Lexer

/-- The tokens of a text that begins at `place`. -/
inductive Tokenized : (place : Location) → List Char → List Token → Prop
  | blanks {place : Location} {cs : List Char} (blank : ∀ c ∈ cs, isBlank c = true) :
      Tokenized place cs []
  | token {place : Location} {blanks cs : List Char} {c : Char} {s : Scanned}
      {tokens : List Token} (blank : ∀ d ∈ blanks, isBlank d = true) (first : isBlank c = false)
      (scanned : scan c cs = .ok s)
      (behind : Tokenized ((place.walk blanks).walk s.taken) s.rest tokens) :
      Tokenized place (blanks ++ c :: cs)
        (⟨s.kind, place.walk blanks, (place.walk blanks).walk s.taken⟩ :: tokens)

/-! ### The lexer -/

section TokensFrom

variable {bound : ℕ} {place : Location} {cs : List Char} {tokens : List Token}

/-- Blanks in front of a text only move the place at which reading begins. -/
theorem tokensFrom_append_of_blank {blanks : List Char} (h : ∀ c ∈ blanks, isBlank c = true) :
    tokensFrom (bound + 1) place (blanks ++ cs) =
      tokensFrom (bound + 1) (place.walk blanks) cs := by
  rw [tokensFrom, tokensFrom, List.takeWhile_append_of_pos h, List.dropWhile_append_of_pos h,
    Location.walk_append]

/-- Behind a token that is scanned, reading goes on where the token ends. -/
theorem tokensFrom_cons {c : Char} {s : Scanned} (hfirst : isBlank c = false)
    (hscan : scan c cs = .ok s) :
    tokensFrom (bound + 1) place (c :: cs) =
      (tokensFrom bound (place.walk s.taken) s.rest).map
        (⟨s.kind, place, place.walk s.taken⟩ :: ·) := by
  rw [tokensFrom, List.takeWhile_cons_of_neg (by simp [hfirst]),
    List.dropWhile_cons_of_neg (by simp [hfirst])]
  simp only [hscan, Location.walk_nil]
  cases tokensFrom bound (place.walk s.taken) s.rest <;> rfl

theorem tokenized_of_tokensFrom (hbound : cs.length ≤ bound)
    (h : tokensFrom bound place cs = .ok tokens) : Tokenized place cs tokens := by
  -- The bound counts the tokens that may still come; what is left gets shorter with each of them.
  induction bound generalizing place cs tokens with
  | zero =>
    cases h
    rw [List.length_eq_zero_iff.1 (Nat.le_zero.1 hbound)]
    exact .blanks (by simp)
  | succ bound ih =>
    have hblanks : ∀ c ∈ cs.takeWhile isBlank, isBlank c = true :=
      fun c hc ↦ List.mem_takeWhile_imp hc
    have hhead := List.head?_dropWhile_not isBlank cs
    have hsplit := List.takeWhile_append_dropWhile (p := isBlank) (l := cs)
    rw [tokensFrom] at h
    split at h
    next hrest =>
      cases h
      exact .blanks (List.dropWhile_eq_nil_iff.1 hrest)
    next c ds hrest =>
      rw [hrest] at hhead hsplit
      split at h
      · cases h
      next scanned hscan =>
        obtain ⟨behind, hbehind, hok⟩ := Except.bind_eq_ok_iff.1 h
        cases hok
        have hshorter := length_rest_lt_of_scan hscan
        have hlength := congrArg List.length hsplit
        rw [List.length_append] at hlength
        have hall := Tokenized.token hblanks (by simpa using hhead) hscan (ih (by omega) hbehind)
        rwa [hsplit] at hall

theorem Tokenized.tokensFrom_eq (h : Tokenized place cs tokens) (hbound : cs.length ≤ bound) :
    tokensFrom bound place cs = .ok tokens := by
  induction h generalizing bound with
  | blanks blank =>
    cases bound with
    | zero => rfl
    | succ bound => rw [tokensFrom, List.dropWhile_eq_nil_iff.2 blank]
  | @token place blanks cs c s tokens blank first scanned behind ih =>
    have hshorter := length_rest_lt_of_scan scanned
    rw [List.length_append] at hbound
    obtain ⟨bound, rfl⟩ : ∃ n, bound = n + 1 := ⟨bound - 1, by omega⟩
    rw [tokensFrom_append_of_blank blank, tokensFrom_cons first scanned, ih (by omega)]
    rfl

/-- A bound that is as large as the text is not felt. -/
theorem tokensFrom_eq_ok_iff (hbound : cs.length ≤ bound) :
    tokensFrom bound place cs = .ok tokens ↔ Tokenized place cs tokens :=
  ⟨tokenized_of_tokensFrom hbound, fun h ↦ h.tokensFrom_eq hbound⟩

end TokensFrom

/-! ### What a text begins with -/

variable {place : Location} {cs : List Char} {tokens : List Token}

theorem tokenized_append_iff {blanks : List Char} (h : ∀ c ∈ blanks, isBlank c = true) :
    Tokenized place (blanks ++ cs) tokens ↔ Tokenized (place.walk blanks) cs tokens := by
  have hbound : (blanks ++ cs).length ≤ (blanks ++ cs).length + 1 := Nat.le_succ _
  have hbound' : cs.length ≤ (blanks ++ cs).length + 1 := by
    rw [List.length_append]
    omega
  rw [← tokensFrom_eq_ok_iff hbound, ← tokensFrom_eq_ok_iff hbound', tokensFrom_append_of_blank h]

theorem tokenized_cons_iff {c : Char} {s : Scanned} (hfirst : isBlank c = false)
    (hscan : scan c cs = .ok s) :
    Tokenized place (c :: cs) tokens ↔
      ∃ behind, tokens = ⟨s.kind, place, place.walk s.taken⟩ :: behind ∧
        Tokenized (place.walk s.taken) s.rest behind := by
  have hshorter : s.rest.length ≤ cs.length := Nat.le_of_lt_succ (length_rest_lt_of_scan hscan)
  rw [← tokensFrom_eq_ok_iff (Nat.le_refl _), List.length_cons, tokensFrom_cons hfirst hscan,
    Except.map_eq_ok_iff]
  constructor
  · rintro ⟨behind, hbehind, rfl⟩
    exact ⟨behind, rfl, (tokensFrom_eq_ok_iff hshorter).1 hbehind⟩
  · rintro ⟨behind, rfl, hbehind⟩
    exact ⟨behind, (tokensFrom_eq_ok_iff hshorter).2 hbehind, rfl⟩

theorem Tokenized.unique {tokens' : List Token} (h : Tokenized place cs tokens)
    (h' : Tokenized place cs tokens') : tokens = tokens' :=
  Except.ok.inj ((h.tokensFrom_eq (Nat.le_refl _)).symm.trans (h'.tokensFrom_eq (Nat.le_refl _)))

/-- A token begins and ends behind beginnings of the text. -/
theorem Tokenized.exists_places (h : Tokenized place cs tokens) :
    ∀ t ∈ tokens, ∃ before slice after, cs = before ++ slice ++ after ∧
      t.start = place.walk before ∧ t.stop = place.walk (before ++ slice) := by
  induction h with
  | blanks => exact fun t ht ↦ (nomatch ht)
  | @token place blanks cs c s tokens blank first scanned behind ih =>
    have hcs : blanks ++ c :: cs = blanks ++ s.taken ++ s.rest := by
      rw [List.append_assoc, taken_append_rest_of_scan scanned]
    refine List.forall_mem_cons.2 ⟨⟨blanks, s.taken, s.rest, hcs, rfl, ?_⟩, fun t ht ↦ ?_⟩
    · rw [Location.walk_append]
    · obtain ⟨before, slice, after, hrest, hstart, hstop⟩ := ih t ht
      refine ⟨blanks ++ s.taken ++ before, slice, after, ?_, ?_, ?_⟩
      · rw [hcs, hrest]
        simp
      · rw [hstart, ← Location.walk_append, ← Location.walk_append, List.append_assoc]
      · rw [hstop, ← Location.walk_append, ← Location.walk_append, List.append_assoc,
          List.append_assoc]

end Lexer

/-- The lexer finds the tokens of a text. -/
theorem Token.tokenize_eq_ok_iff {source : String} {tokens : List Token} :
    tokenize source = .ok tokens ↔ Lexer.Tokenized .origin source.toList tokens :=
  Lexer.tokensFrom_eq_ok_iff (Nat.le_refl _)

end ModelSignatures
