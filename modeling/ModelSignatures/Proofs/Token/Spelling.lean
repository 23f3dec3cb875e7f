import Mathlib.Data.List.TakeWhile
import ModelSignatures.Token.Lexer

/-!
# Spellings that can be read back

A token that the lexer may meet again is well formed: its word is a word, its comment ends no line
and has no blanks to lose, and its annotation avoids the delimiter that is written behind it. An
annotation is the only kind of token whose spelling depends on a search, and `isAnnotText_iff` says
for which texts the search ends well.
-/

namespace ModelSignatures

/-! ### Texts that tokens can carry -/

/-- A text that is one word: some letters, digits and underscores. -/
def IsWord (text : String) : Prop :=
  text.toList ≠ [] ∧ ∀ c ∈ text.toList, isWordChar c = true

/-- A text that a comment can carry: it ends no line, and no blank stands at its end. -/
def IsCommentText (text : String) : Prop :=
  '\n' ∉ text.toList ∧ ∀ c ∈ text.toList.getLast?, isBlank c = false

/-- A text that an annotation can carry when it is written: braces close behind it, or neither
character of some pair of delimiters occurs in it. -/
def IsAnnotText (text : String) : Prop :=
  '}' ∉ text.toList ∨ ∃ pair ∈ annotationDelimiters, pair.1 ∉ text.toList ∧ pair.2 ∉ text.toList

-- the bounded quantifiers are named, since there are finitely many characters to try as well
instance (text : String) : Decidable (IsWord text) :=
  @instDecidableAnd _ _ inferInstance (List.decidableBAll _ _)

instance (text : String) : Decidable (IsCommentText text) :=
  @instDecidableAnd _ _ inferInstance (Option.decidableForallMem _)

instance (text : String) : Decidable (IsAnnotText text) :=
  @instDecidableOr _ _ inferInstance (List.decidableBEx _ _)

/-- A text that ends in no blank has none to trim. -/
theorem trimEnd_eq_self {cs : List Char} (h : ∀ c ∈ cs.getLast?, isBlank c = false) :
    trimEnd cs = cs := by
  rcases List.eq_nil_or_concat cs with rfl | ⟨ds, d, rfl⟩
  · rfl
  · have hd : isBlank d = false := h d (by simp)
    rw [trimEnd, List.concat_eq_append, List.reverse_append, List.reverse_singleton,
      List.singleton_append, List.dropWhile_cons_of_neg (by simp [hd]), List.reverse_cons,
      List.reverse_reverse]

/-- What is trimmed ends in no blank. -/
theorem getLast?_trimEnd {cs : List Char} : ∀ c ∈ (trimEnd cs).getLast?, isBlank c = false := by
  intro c hc
  rw [trimEnd, List.getLast?_reverse] at hc
  have hhead := List.head?_dropWhile_not isBlank cs.reverse
  rw [Option.mem_def] at hc
  rw [hc] at hhead
  simpa using hhead

/-! ### Delimiters of annotations -/

/-- Braces, or a pair that clashes with nothing in the text. -/
theorem delimitersFor_eq_or (cs : List Char) :
    (delimitersFor cs ∈ annotationDelimiters ∧ (delimitersFor cs).1 ∉ cs ∧
      (delimitersFor cs).2 ∉ cs) ∨
    (delimitersFor cs = ('{', '}') ∧
      ∀ pair ∈ annotationDelimiters, pair.1 ∈ cs ∨ pair.2 ∈ cs) := by
  unfold delimitersFor
  cases h : annotationDelimiters.find? fun pair ↦
      !cs.contains pair.1 && !cs.contains pair.2 with
  | some pair =>
    left
    have hfree := List.find?_some h
    simp only [Bool.and_eq_true, Bool.not_eq_true', List.contains_eq_mem,
      decide_eq_false_iff_not] at hfree
    exact ⟨List.mem_of_find?_eq_some h, hfree.1, hfree.2⟩
  | none =>
    right
    refine ⟨rfl, fun pair hpair ↦ ?_⟩
    have hclash := List.find?_eq_none.1 h pair hpair
    simp only [Bool.and_eq_true, Bool.not_eq_true', List.contains_eq_mem,
      decide_eq_false_iff_not] at hclash
    by_cases hfirst : pair.1 ∈ cs
    · exact Or.inl hfirst
    · exact Or.inr (Decidable.byContradiction fun hsecond ↦ hclash ⟨hfirst, hsecond⟩)

/-- Annotations are written between delimiters of the table. -/
theorem delimitersFor_mem (cs : List Char) : delimitersFor cs ∈ annotationDelimiters := by
  rcases delimitersFor_eq_or cs with ⟨hmem, -⟩ | ⟨heq, -⟩
  · exact hmem
  · rw [heq]
    decide

/-- The texts that an annotation can carry are those that avoid the delimiter written behind. -/
theorem isAnnotText_iff {text : String} :
    IsAnnotText text ↔ (delimitersFor text.toList).2 ∉ text.toList := by
  rcases delimitersFor_eq_or text.toList with ⟨hmem, hfirst, hsecond⟩ | ⟨heq, hclash⟩
  · exact ⟨fun _ ↦ hsecond, fun _ ↦ Or.inr ⟨_, hmem, hfirst, hsecond⟩⟩
  · rw [heq]
    constructor
    · rintro (hbrace | ⟨pair, hpair, hfirst, hsecond⟩)
      · exact hbrace
      · rcases hclash pair hpair with h | h
        · exact absurd h hfirst
        · exact absurd h hsecond
    · exact Or.inl

/-- An opening delimiter is found with its closing one. -/
theorem lookup_annotationDelimiters {pair : Char × Char} (h : pair ∈ annotationDelimiters) :
    annotationDelimiters.lookup pair.1 = some pair.2 := by
  revert pair
  decide

/-- What is found is a pair of the table. -/
theorem mem_annotationDelimiters_of_lookup {opening closing : Char}
    (h : annotationDelimiters.lookup opening = some closing) :
    (opening, closing) ∈ annotationDelimiters := by
  obtain ⟨before, behind, heq, -⟩ := List.lookup_eq_some_iff.1 h
  rw [heq]
  exact List.mem_append_right _ List.mem_cons_self

/-! ### Well-formed tokens -/

namespace TokenKind

/-- A token whose spelling is read as the token again. -/
def WellFormed : TokenKind → Prop
  | word text => IsWord text
  | symbol _ => True
  | annot text => IsAnnotText text
  | comment text => IsCommentText text

instance : DecidablePred WellFormed
  | word text => inferInstanceAs (Decidable (IsWord text))
  | symbol _ => .isTrue trivial
  | annot text => inferInstanceAs (Decidable (IsAnnotText text))
  | comment text => inferInstanceAs (Decidable (IsCommentText text))

/-- A token that is well formed, or would be if its text were that of a well-formed annotation. -/
def Legible : TokenKind → Prop
  | word text => IsWord text
  | symbol _ => True
  | annot _ => True
  | comment text => IsCommentText text

/-- A legible token is well formed if it is no annotation that cannot be delimited. -/
theorem Legible.wellFormed {kind : TokenKind} (h : kind.Legible)
    (hannot : ∀ text, kind = annot text → IsAnnotText text) : kind.WellFormed := by
  cases kind with
  | annot text => exact hannot text rfl
  | _ => exact h

/-- Whether the token ends where the given characters follow it: none of them is taken into it. -/
def EndsBefore : TokenKind → List Char → Prop
  | word _, cs => ∀ c ∈ cs.head?, isWordChar c = false
  | symbol .colon, cs => cs.head? ≠ some ':'
  | symbol .star, cs => cs.head? ≠ some '*'
  | symbol _, _ => True
  | annot _, _ => True
  | comment _, cs => ∀ c ∈ cs.head?, c = '\n'

end TokenKind

/-- A symbol is the longest in front, unless what follows makes it a longer one. -/
theorem Symbol.longestPrefix?_spelling (s : Symbol) {cs : List Char}
    (h : (TokenKind.symbol s).EndsBefore cs) : longestPrefix? (s.spelling ++ cs) = some s := by
  cases s with
  | colon =>
    cases cs with
    | nil => rfl
    | cons c cs =>
      have hc : (':' == c) = false := by
        rw [beq_eq_false_iff_ne]
        rintro rfl
        exact h rfl
      simp [longestPrefix?, longestFirst, spelling, List.isPrefixOf, hc]
  | star =>
    cases cs with
    | nil => rfl
    | cons c cs =>
      have hc : ('*' == c) = false := by
        rw [beq_eq_false_iff_ne]
        rintro rfl
        exact h rfl
      simp [longestPrefix?, longestFirst, spelling, List.isPrefixOf, hc]
  | _ => simp [longestPrefix?, longestFirst, spelling, List.isPrefixOf]

/-- What follows the longest symbol does not make it a longer one. -/
theorem Symbol.endsBefore_of_longestPrefix? {s : Symbol} {cs : List Char}
    (h : longestPrefix? (s.spelling ++ cs) = some s) : (TokenKind.symbol s).EndsBefore cs := by
  have hlonger : ∀ longer : Symbol, longer ≠ s → (TokenKind.symbol longer).EndsBefore cs.tail →
      longer.spelling ++ cs.tail ≠ s.spelling ++ cs := by
    intro longer hne hends heq
    rw [← heq, longer.longestPrefix?_spelling hends] at h
    exact hne (Option.some.inj h)
  cases s with
  | colon =>
    intro hhead
    obtain ⟨cs, rfl⟩ := List.head?_eq_some_iff.1 hhead
    exact hlonger .colonColon (by decide) trivial rfl
  | star =>
    intro hhead
    obtain ⟨cs, rfl⟩ := List.head?_eq_some_iff.1 hhead
    exact hlonger .starStar (by decide) trivial rfl
  | _ => trivial

/-- The longest symbol that is found is what the text begins with. -/
theorem Symbol.exists_of_longestPrefix? {s : Symbol} {c : Char} {cs : List Char}
    (h : longestPrefix? (c :: cs) = some s) :
    ∃ more rest, s.spelling = c :: more ∧ cs = more ++ rest ∧
      (TokenKind.symbol s).EndsBefore rest := by
  have hfound := List.find?_some h
  obtain ⟨rest, hrest⟩ := List.isPrefixOf_iff_prefix.1 hfound
  rw [← hrest] at h
  have hends := endsBefore_of_longestPrefix? h
  rcases hspelling : s.spelling with - | ⟨first, more⟩
  · cases s <;> cases hspelling
  · rw [hspelling, List.cons_append] at hrest
    obtain ⟨rfl, rfl⟩ := List.cons.inj hrest
    exact ⟨more, rest, rfl, rfl, hends⟩

/-- A symbol begins with no character that begins anything else. -/
theorem Symbol.head_spelling {s : Symbol} {c : Char} {more : List Char}
    (h : s.spelling = c :: more) :
    isBlank c = false ∧ c ≠ '%' ∧ c ≠ '#' ∧ isWordChar c = false := by
  cases s <;> cases h <;> decide

/-- What stands before a character that `p` refuses is all that `p` takes. -/
theorem takeWhile_append_of_all (p : Char → Bool) {cs ds : List Char}
    (hcs : ∀ c ∈ cs, p c = true) (hds : ∀ c ∈ ds.head?, p c = false) :
    (cs ++ ds).takeWhile p = cs ∧ (cs ++ ds).dropWhile p = ds := by
  have hstop : ds.takeWhile p = [] ∧ ds.dropWhile p = ds := by
    cases ds with
    | nil => exact ⟨rfl, rfl⟩
    | cons d ds =>
      have hd : p d = false := hds d rfl
      simp [hd]
  rw [List.takeWhile_append_of_pos hcs, List.dropWhile_append_of_pos hcs, hstop.1, hstop.2,
    List.append_nil]
  exact ⟨rfl, rfl⟩

/-- What stands before the first `stop` is all that is taken up to it. -/
theorem takeWhile_append_of_not_mem {stop : Char} {cs ds : List Char} (hcs : stop ∉ cs)
    (hds : ∀ c ∈ ds.head?, c = stop) :
    (cs ++ ds).takeWhile (· != stop) = cs ∧ (cs ++ ds).dropWhile (· != stop) = ds := by
  refine takeWhile_append_of_all (· != stop) (fun c hc ↦ ?_) fun c hc ↦ by simp [hds c hc]
  rw [bne_iff_ne]
  rintro rfl
  exact hcs hc

/-- A text is split where `p` refuses a character first. -/
theorem exists_append_of_all (p : Char → Bool) (cs : List Char) :
    ∃ text rest, cs = text ++ rest ∧ (∀ c ∈ text, p c = true) ∧ ∀ c ∈ rest.head?, p c = false := by
  refine ⟨cs.takeWhile p, cs.dropWhile p, List.takeWhile_append_dropWhile.symm,
    fun c hc ↦ List.mem_takeWhile_imp hc, fun c hc ↦ ?_⟩
  have hhead := List.head?_dropWhile_not p cs
  rw [Option.mem_def] at hc
  rw [hc] at hhead
  simpa using hhead

/-- A text is split where a character stands first. -/
theorem exists_append_of_not_mem (stop : Char) (cs : List Char) :
    ∃ text rest, cs = text ++ rest ∧ stop ∉ text ∧ ∀ c ∈ rest.head?, c = stop := by
  obtain ⟨text, rest, rfl, htext, hrest⟩ := exists_append_of_all (· != stop) cs
  refine ⟨text, rest, rfl, fun hmem ↦ ?_, fun c hc ↦ by simpa using hrest c hc⟩
  have hstop := htext stop hmem
  simp at hstop

theorem not_mem_takeWhile_bne {c : Char} {cs : List Char} : c ∉ cs.takeWhile (· != c) := by
  intro h
  have hc := List.mem_takeWhile_imp h
  simp at hc

end ModelSignatures
