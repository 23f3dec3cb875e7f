import ModelSignatures.Proofs.Token.Spelling

/-!
# What one scan reads

`Lexer.Scans` tells what is read as one token, and what is left behind it, without a search. A scan
succeeds exactly as it says (`Lexer.scan_eq_ok_iff`), so what is known of a token that was read is
shown by its four cases. In particular a well-formed token is read back from its spelling, whatever
follows, unless the characters that follow could be taken into it (`Lexer.scan_spelling`).
-/

namespace ModelSignatures

namespace Lexer

/-- What is read from a text that begins with `c`. -/
inductive Scans : (c : Char) → (cs : List Char) → Scanned → Prop
  | word {c : Char} {text rest : List Char} (begins : isWordChar c = true)
      (goesOn : ∀ d ∈ text, isWordChar d = true)
      (behind : ∀ d ∈ rest.head?, isWordChar d = false) :
      Scans c (text ++ rest) ⟨.word (String.ofList (c :: text)), c :: text, rest⟩
  | symbol {s : Symbol} {c : Char} {more rest : List Char} (spelled : s.spelling = c :: more)
      (behind : (TokenKind.symbol s).EndsBefore rest) :
      Scans c (more ++ rest) ⟨.symbol s, c :: more, rest⟩
  | annot {pair : Char × Char} {text rest : List Char} (delimited : pair ∈ annotationDelimiters)
      (inside : pair.2 ∉ text) :
      Scans '%' ('a' :: pair.1 :: (text ++ pair.2 :: rest))
        ⟨.annot (String.ofList text), '%' :: 'a' :: pair.1 :: text ++ [pair.2], rest⟩
  | comment {line rest : List Char} (inside : '\n' ∉ line)
      (behind : ∀ d ∈ rest.head?, d = '\n') :
      Scans '#' (line ++ rest)
        ⟨.comment (String.ofList (trimEnd line)), '#' :: line, rest⟩

theorem scans_of_scanAnnotated {cs : List Char} {s : Scanned} (h : scanAnnotated cs = .ok s) :
    Scans '%' cs s := by
  unfold scanAnnotated at h
  split at h
  next opening ds =>
    split at h
    · cases h
    next closing hclosing =>
      obtain ⟨text, rest, rfl, hinside, hrest⟩ := exists_append_of_not_mem closing ds
      obtain ⟨htake, hdrop⟩ := takeWhile_append_of_not_mem hinside hrest
      rw [htake, hdrop] at h
      cases rest with
      | nil => cases h
      | cons d rest =>
        obtain rfl : d = closing := hrest d rfl
        cases h
        exact .annot (mem_annotationDelimiters_of_lookup hclosing) hinside
  all_goals cases h

variable {c : Char} {cs : List Char} {s : Scanned}

theorem scans_of_scan (h : scan c cs = .ok s) : Scans c cs s := by
  rw [scan] at h
  split at h
  next hpercent =>
    subst hpercent
    exact scans_of_scanAnnotated h
  next =>
    split at h
    next hhash =>
      obtain ⟨line, rest, rfl, hinside, hrest⟩ := exists_append_of_not_mem '\n' cs
      obtain ⟨htake, hdrop⟩ := takeWhile_append_of_not_mem hinside hrest
      subst hhash
      rw [scanComment, htake, hdrop] at h
      cases h
      exact .comment hinside hrest
    next =>
      split at h
      next hword =>
        obtain ⟨text, rest, rfl, htext, hrest⟩ := exists_append_of_all isWordChar cs
        obtain ⟨htake, hdrop⟩ := takeWhile_append_of_all isWordChar htext hrest
        rw [scanWord, htake, hdrop] at h
        cases h
        exact .word hword htext hrest
      next =>
        split at h
        next sym hsym =>
          obtain ⟨more, rest, hspelling, rfl, hrest⟩ := Symbol.exists_of_longestPrefix? hsym
          cases h
          have hleft : ((c :: (more ++ rest)).drop (c :: more).length) = rest := List.drop_left
          rw [hspelling, hleft]
          exact .symbol hspelling hrest
        next => cases h

/-- What the rules scan is scanned. -/
theorem Scans.scan_eq_ok (h : Scans c cs s) : scan c cs = .ok s := by
  cases h with
  | word begins goesOn behind =>
    obtain ⟨htake, hdrop⟩ := takeWhile_append_of_all isWordChar goesOn behind
    have hpercent : c ≠ '%' := by
      rintro rfl
      exact absurd begins (by decide)
    have hhash : c ≠ '#' := by
      rintro rfl
      exact absurd begins (by decide)
    rw [scan, if_neg hpercent, if_neg hhash, if_pos begins, scanWord, htake, hdrop]
  | @symbol s c more rest spelled behind =>
    obtain ⟨-, hpercent, hhash, hword⟩ := Symbol.head_spelling spelled
    have hcons : c :: (more ++ rest) = s.spelling ++ rest := by rw [spelled, List.cons_append]
    rw [scan, if_neg hpercent, if_neg hhash, if_neg (by simp [hword]), hcons,
      s.longestPrefix?_spelling behind]
    dsimp only
    rw [List.drop_left, spelled]
  | @annot pair text rest delimited inside =>
    have hstop : ∀ c ∈ (pair.2 :: rest).head?, c = pair.2 := by
      rintro c ⟨⟩
      rfl
    obtain ⟨htake, hdrop⟩ := takeWhile_append_of_not_mem inside hstop
    rw [scan, if_pos rfl, scanAnnotated, lookup_annotationDelimiters delimited]
    dsimp only
    rw [htake, hdrop]
  | comment inside behind =>
    obtain ⟨htake, hdrop⟩ := takeWhile_append_of_not_mem inside behind
    rw [scan, if_neg (by decide), if_pos rfl, scanComment, htake, hdrop]

/-- A scan follows the rules, and nothing else does. -/
theorem scan_eq_ok_iff : scan c cs = .ok s ↔ Scans c cs s :=
  ⟨scans_of_scan, Scans.scan_eq_ok⟩

/-- What is taken and what is left make up the text. -/
theorem taken_append_rest_of_scan (h : scan c cs = .ok s) : s.taken ++ s.rest = c :: cs := by
  cases scan_eq_ok_iff.1 h with
  | word | symbol | comment => rfl
  | annot => simp

theorem taken_ne_nil_of_scan (h : scan c cs = .ok s) : s.taken ≠ [] := by
  cases scan_eq_ok_iff.1 h <;> exact List.cons_ne_nil _ _

/-- What is behind a token is shorter than what it is scanned from. -/
theorem length_rest_lt_of_scan (h : scan c cs = .ok s) : s.rest.length < (c :: cs).length := by
  rw [← taken_append_rest_of_scan h, List.length_append]
  have hpos := List.length_pos_iff.2 (taken_ne_nil_of_scan h)
  omega

/-- What is taken is taken again in front of anything that the token ends before. -/
theorem scan_again (h : scan c cs = .ok s) :
    s.kind.EndsBefore s.rest ∧ ∃ more, s.taken = c :: more ∧
      ∀ rest, s.kind.EndsBefore rest → scan c (more ++ rest) = .ok ⟨s.kind, s.taken, rest⟩ := by
  cases scan_eq_ok_iff.1 h with
  | word begins goesOn behind =>
    exact ⟨behind, _, rfl, fun rest hrest ↦ scan_eq_ok_iff.2 (.word begins goesOn hrest)⟩
  | symbol spelled behind =>
    exact ⟨behind, _, rfl, fun rest hrest ↦ scan_eq_ok_iff.2 (.symbol spelled hrest)⟩
  | annot delimited inside =>
    refine ⟨trivial, _, rfl, fun rest _ ↦ scan_eq_ok_iff.2 ?_⟩
    simpa using Scans.annot delimited inside
  | comment inside behind =>
    exact ⟨behind, _, rfl, fun rest hrest ↦ scan_eq_ok_iff.2 (.comment inside hrest)⟩

/-! ### Reading a spelling back -/

/-- The code point of a word character. -/
theorem toNat_of_isWordChar {c : Char} (h : isWordChar c = true) :
    48 ≤ c.toNat ∧ c.toNat ≤ 122 := by
  change (((decide ('A'.val ≤ c.val ∧ c.val ≤ 'Z'.val) || ('a'.val ≤ c.val && c.val ≤ 'z'.val)) ||
    ('0'.val ≤ c.val && c.val ≤ '9'.val)) || c == '_') = true at h
  simp only [Bool.or_eq_true, Bool.and_eq_true, decide_eq_true_eq, beq_iff_eq,
    UInt32.le_iff_toNat_le] at h
  rcases h with ((h | h) | h) | rfl
  · exact ⟨Nat.le_trans (by decide) h.1, Nat.le_trans h.2 (by decide)⟩
  · exact ⟨Nat.le_trans (by decide) h.1, Nat.le_trans h.2 (by decide)⟩
  · exact ⟨Nat.le_trans (by decide) h.1, Nat.le_trans h.2 (by decide)⟩
  · decide

theorem isBlank_of_isWordChar {c : Char} (h : isWordChar c = true) : isBlank c = false := by
  obtain ⟨hlow, hhigh⟩ := toNat_of_isWordChar h
  simp only [isBlank, List.any_eq_false, Bool.and_eq_true, decide_eq_true_eq]
  intro range hrange
  have hfar : range.2 < 48 ∨ 122 < range.1 := by
    revert range
    decide
  omega

/-- A well-formed token is read from its spelling, with nothing of what follows it. -/
theorem scan_spelling {kind : TokenKind} {rest : List Char} (hkind : kind.WellFormed)
    (hrest : kind.EndsBefore rest) :
    ∃ c cs, kind.spelling ++ rest = c :: cs ∧ isBlank c = false ∧
      scan c cs = .ok ⟨kind, kind.spelling, rest⟩ := by
  cases kind with
  | word text =>
    obtain ⟨hne, hall⟩ := hkind
    obtain ⟨c, cs, htext⟩ := List.exists_cons_of_ne_nil hne
    rw [htext, List.forall_mem_cons] at hall
    have hscan := scan_eq_ok_iff.2 (.word hall.1 hall.2 hrest)
    rw [← htext, String.ofList_toList] at hscan
    refine ⟨c, cs ++ rest, ?_, isBlank_of_isWordChar hall.1, hscan⟩
    rw [TokenKind.spelling, htext, List.cons_append]
  | symbol s =>
    obtain ⟨c, more, hspelling⟩ : ∃ c more, s.spelling = c :: more := by
      cases s <;> exact ⟨_, _, rfl⟩
    have hscan := scan_eq_ok_iff.2 (.symbol hspelling hrest)
    rw [TokenKind.spelling, hspelling]
    exact ⟨c, more ++ rest, rfl, (Symbol.head_spelling hspelling).1, hscan⟩
  | annot text =>
    have hscans : Scans '%' _ ⟨_, _, rest⟩ :=
      .annot (delimitersFor_mem text.toList) (isAnnotText_iff.1 hkind)
    rw [String.ofList_toList] at hscans
    exact ⟨'%', _, by simp [TokenKind.spelling], by decide, scan_eq_ok_iff.2 hscans⟩
  | comment text =>
    have hscan := scan_eq_ok_iff.2 (.comment hkind.1 hrest)
    rw [trimEnd_eq_self hkind.2, String.ofList_toList] at hscan
    exact ⟨'#', _, rfl, by decide, hscan⟩

end Lexer

end ModelSignatures
