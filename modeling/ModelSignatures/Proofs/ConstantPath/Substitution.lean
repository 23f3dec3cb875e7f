import ModelSignatures.Proofs.ConstantPath.Underscored

/-!
# Underscoring by substitutions

The rule that underscored paths come from works in turns, each of which goes over the whole text: it
replaces separators, parts the last capital of a run from the others where a small letter follows,
parts a capital from the small letter or digit before it, and at last replaces dashes and capitals.
One scan that looks at the characters on both sides of each does the same
(`underscored_eq_iff_inTurns`). A turn is a global substitution: matches are found from the left, as
long as they can be, and do not overlap (`Substitution.Replaces`), so what comes of it is determined
(`Substitution.Replaces.unique`).
-/

namespace ModelSignatures

/-! ### Global substitutions -/

/-- A substitution of a text that consists of two groups. -/
structure Substitution where
  /-- Whether a text can be the first group. -/
  first : List Char → Prop
  /-- Whether a text can be the second group. -/
  second : List Char → Prop
  /-- What is put in the place of the two groups. -/
  replacement : List Char → List Char → List Char
  /-- A match is not empty. -/
  first_ne_nil : ∀ {a}, first a → a ≠ []

namespace Substitution

variable (s : Substitution)

/-- Whether a text begins with two groups that match. -/
structure Matches (text a b rest : List Char) : Prop where
  text_eq : text = a ++ (b ++ rest)
  first : s.first a
  second : s.second b

/-- Whether a text begins with two groups that match, of which first the one and then the other is
as long as it can be. -/
structure MatchesGreedily (text a b rest : List Char) : Prop extends s.Matches text a b rest where
  first_longest : ∀ {a' b' rest'}, s.Matches text a' b' rest' → a'.length ≤ a.length
  second_longest : ∀ {b' rest'}, s.Matches text a b' rest' → b'.length ≤ b.length

/-- Whether one text comes of another when all matches are replaced, each found behind the one
before. -/
inductive Replaces : List Char → List Char → Prop
  | nil : Replaces [] []
  | skip {c : Char} {text out : List Char} (unmatched : ∀ a b rest, ¬s.Matches (c :: text) a b rest)
    (more : Replaces text out) : Replaces (c :: text) (c :: out)
  | replace {text a b rest out : List Char} (matched : s.MatchesGreedily text a b rest)
    (more : Replaces rest out) : Replaces text (s.replacement a b ++ out)

variable {s}

/-- There is no match in an empty text. -/
theorem Matches.ne_nil {text a b rest : List Char} (h : s.Matches text a b rest) : text ≠ [] := by
  rw [h.text_eq]
  exact List.append_ne_nil_of_left_ne_nil (s.first_ne_nil h.first) _

/-- A text begins with no other greedy match. -/
theorem MatchesGreedily.unique {text a b rest a' b' rest' : List Char}
    (h : s.MatchesGreedily text a b rest) (h' : s.MatchesGreedily text a' b' rest') :
    a = a' ∧ b = b' ∧ rest = rest' := by
  have hfirst : a.length = a'.length :=
    (h'.first_longest h.toMatches).antisymm (h.first_longest h'.toMatches)
  obtain ⟨rfl, hsame⟩ := List.append_inj (h.text_eq.symm.trans h'.text_eq) hfirst
  have hsecond : b.length = b'.length :=
    (h'.second_longest h.toMatches).antisymm (h.second_longest h'.toMatches)
  obtain ⟨rfl, rfl⟩ := List.append_inj hsame hsecond
  exact ⟨rfl, rfl, rfl⟩

/-- What comes of a text is determined. -/
theorem Replaces.unique {text out out' : List Char} (h : s.Replaces text out)
    (h' : s.Replaces text out') : out = out' := by
  induction h generalizing out' with
  | nil =>
    cases h' with
    | nil => rfl
    | replace matched _ => exact absurd rfl matched.ne_nil
  | skip unmatched _ ih =>
    cases h' with
    | skip _ more => rw [ih more]
    | replace matched _ => exact absurd matched.toMatches (unmatched _ _ _)
  | replace matched _ ih =>
    cases h' with
    | nil => exact absurd rfl matched.ne_nil
    | skip unmatched _ => exact absurd matched.toMatches (unmatched _ _ _)
    | replace matched' more =>
      obtain ⟨rfl, rfl, rfl⟩ := matched.unique matched'
      rw [ih more]

/-! ### The substitutions of the rule -/

/-- A separator becomes a slash. -/
def separators : Substitution where
  first a := a = [':']
  second b := b = [':']
  replacement _ _ := ['/']
  first_ne_nil h := by simp [h]

/-- The last capital of a run is parted from the others if a small letter follows. -/
def capitalRuns : Substitution where
  first a := a ≠ [] ∧ ∀ c ∈ a, c.isUpper = true
  second b := ∃ c d : Char, b = [c, d] ∧ c.isUpper = true ∧ d.isLower = true
  replacement a b := a ++ '_' :: b
  first_ne_nil h := h.1

/-- A capital is parted from the small letter or digit before it. -/
def wordEnds : Substitution where
  first a := ∃ c : Char, a = [c] ∧ (c.isLower = true ∨ c.isDigit = true)
  second b := ∃ c : Char, b = [c] ∧ c.isUpper = true
  replacement a b := a ++ '_' :: b
  first_ne_nil h := by
    obtain ⟨c, rfl, -⟩ := h
    exact List.cons_ne_nil _ _

end Substitution

namespace ConstantPath

open Substitution

/-! ### Scans -/

/-- Whether a text that follows `previous` begins with a capital that is to be parted from it. -/
def startsWord (begins : Char → Option Char → Bool) (previous : Option Char) : List Char → Bool
  | [] => false
  | c :: cs => c.isUpper && previous.any (begins · cs.head?)

/-- The text with an underscore in front of each capital that is to be parted from the character
before it. -/
def parted (begins : Char → Option Char → Bool) (previous : Option Char) : List Char → List Char
  | [] => []
  | c :: cs =>
    let word := c :: parted begins (some c) cs
    if startsWord begins previous (c :: cs) then '_' :: word else word

section Scan

variable {begins : Char → Option Char → Bool} {previous : Option Char} {c : Char} {cs : List Char}

theorem parted_of_startsWord (h : startsWord begins previous (c :: cs) = true) :
    parted begins previous (c :: cs) = '_' :: c :: parted begins (some c) cs := by
  rw [parted, if_pos h]

theorem parted_of_not_startsWord (h : startsWord begins previous (c :: cs) = false) :
    parted begins previous (c :: cs) = c :: parted begins (some c) cs := by
  rw [parted, h, if_neg Bool.false_ne_true]

/-- Only a capital begins a word. -/
theorem startsWord_of_not_isUpper (h : c.isUpper = false) :
    startsWord begins previous (c :: cs) = false := by
  rw [startsWord, h, Bool.false_and]

/-- No word begins where nothing stands in front. -/
theorem startsWord_none : startsWord begins none cs = false := by
  cases cs with
  | nil => rfl
  | cons c cs => exact Bool.and_false _

/-- A scan does what a substitution does if it writes the replacement of each match and there is a
match wherever it writes an underscore. The text at a place must leave no choice of groups. -/
theorem replaces_parted {s : Substitution}
    (hlength : ∀ {text a b rest a' b' rest'}, s.Matches text a b rest → s.Matches text a' b' rest' →
      a.length = a'.length ∧ b.length = b'.length)
    (hmatch : ∀ {a b} previous rest, s.first a → s.second b → ∃ last,
      parted begins previous (a ++ (b ++ rest)) =
          s.replacement a b ++ parted begins (some last) rest ∧
        startsWord begins (some last) rest = false)
    (hfind : ∀ {p c cs}, c.isUpper = true → begins p cs.head? = true →
      ∃ a b rest, s.Matches (p :: c :: cs) a b rest)
    (text : List Char) (hquiet : startsWord begins previous text = false) :
    s.Replaces text (parted begins previous text) := by
  -- A match takes several characters at once, so the induction is on the length of the text. That
  -- the scan writes no underscore in front of what is left carries it.
  induction htext : text.length using Nat.strong_induction_on generalizing text previous with
  | _ n ih =>
    by_cases hmatches : ∃ a b rest, s.Matches text a b rest
    · obtain ⟨a, b, rest, hmatches⟩ := hmatches
      have hgreedy : s.MatchesGreedily text a b rest :=
        ⟨hmatches, fun h ↦ (hlength h hmatches).1.le, fun h ↦ (hlength h hmatches).2.le⟩
      obtain ⟨last, hparted, hquiet'⟩ := hmatch previous rest hmatches.first hmatches.second
      have hshorter : rest.length < n := by
        have hpos := List.length_pos_iff.2 (s.first_ne_nil hmatches.first)
        rw [← htext, hmatches.text_eq, List.length_append, List.length_append]
        omega
      have hreplaced := Replaces.replace hgreedy (ih _ hshorter rest hquiet' rfl)
      rwa [← hparted, ← hmatches.text_eq] at hreplaced
    · cases text with
      | nil => exact .nil
      | cons c text =>
        have hshorter : text.length < n := htext ▸ Nat.lt_succ_self _
        have hquiet' : startsWord begins (some c) text = false := by
          cases text with
          | nil => rfl
          | cons d text =>
            rw [startsWord, Option.any_some, Bool.eq_false_iff, Ne, Bool.and_eq_true]
            exact fun h ↦ hmatches (hfind h.1 h.2)
        rw [parted_of_not_startsWord hquiet]
        exact .skip (fun a b rest h ↦ hmatches ⟨a, b, rest, h⟩) (ih _ hshorter text hquiet' rfl)

end Scan

/-! ### Each turn in one scan -/

/-- Whether a capital behind `previous` is the last of a run with a small letter behind it. -/
def endsRun (previous : Char) (next : Option Char) : Bool :=
  previous.isUpper && next.any Char.isLower

/-- Whether a capital behind `previous` stands behind a small letter or digit. -/
def endsWord (previous : Char) (_ : Option Char) : Bool :=
  previous.isLower || previous.isDigit

/-- The code points of capitals. -/
theorem isUpper_iff_toNat {c : Char} : c.isUpper = true ↔ 65 ≤ c.toNat ∧ c.toNat ≤ 90 := by
  show decide (c.val ≥ 'A'.val ∧ c.val ≤ 'Z'.val) = true ↔ _
  rw [decide_eq_true_iff]
  rfl

/-- The code points of small letters. -/
theorem isLower_iff_toNat {c : Char} : c.isLower = true ↔ 97 ≤ c.toNat ∧ c.toNat ≤ 122 := by
  show (decide (c.val ≥ 'a'.val) && decide (c.val ≤ 'z'.val)) = true ↔ _
  rw [Bool.and_eq_true, decide_eq_true_iff, decide_eq_true_iff]
  rfl

theorem isUpper_of_isLower {c : Char} (h : c.isLower = true) : c.isUpper = false := by
  rw [isLower_iff_toNat] at h
  rw [Bool.eq_false_iff, Ne, isUpper_iff_toNat]
  omega

/-- A digit is no capital. -/
theorem isUpper_of_isDigit {c : Char} (h : c.isDigit = true) : c.isUpper = false := by
  rw [Char.isDigit_iff_toNat] at h
  have hsmall : c.toNat < 65 := h.2.trans_lt (by decide)
  rw [Bool.eq_false_iff, Ne, isUpper_iff_toNat]
  omega

theorem isLower_of_isUpper {c : Char} (h : c.isUpper = true) : c.isLower = false := by
  rw [isUpper_iff_toNat] at h
  rw [Bool.eq_false_iff, Ne, isLower_iff_toNat]
  omega

/-- The small letter of a capital stands thirty-two code points behind it. -/
theorem toNat_toLower {c : Char} (h : c.isUpper = true) : c.toLower.toNat = c.toNat + 32 := by
  have hrange := isUpper_iff_toNat.1 h
  have hbound : c.val.toNat + 32 < 4294967296 := by
    show c.toNat + 32 < _
    omega
  have hcapital : c.val ≥ 'A'.val ∧ c.val ≤ 'Z'.val := hrange
  have hsmall : c.toLower.val = c.val + 32 := by
    delta Char.toLower
    rw [dif_pos hcapital]
    rfl
  show c.toLower.val.toNat = c.val.toNat + 32
  rw [hsmall, UInt32.toNat_add]
  exact Nat.mod_eq_of_lt hbound

/-- What is no capital has no other small form. -/
theorem toLower_of_not_isUpper {c : Char} (h : c.isUpper = false) : c.toLower = c := by
  delta Char.toLower
  rw [dif_neg]
  intro hrange
  rw [isUpper_iff_toNat.2 hrange] at h
  cases h

/-- The groups of a match are as long as the run of capitals at the front has them be. -/
theorem length_of_matches_capitalRuns {text a b rest : List Char}
    (h : capitalRuns.Matches text a b rest) :
    (text.takeWhile Char.isUpper).length = a.length + 1 ∧ b.length = 2 := by
  obtain ⟨htext, ⟨-, hall⟩, c, d, rfl, hc, hd⟩ := h
  have hrun : text.takeWhile Char.isUpper = a ++ [c] := by
    rw [htext, List.takeWhile_append_of_pos hall]
    simp [hc, isUpper_of_isLower hd]
  exact ⟨by rw [hrun, List.length_append, List.length_singleton], rfl⟩

/-- Within a run no capital is parted from the one before it but the last. -/
theorem parted_capitalRun {a : List Char} {c d : Char} (previous : Option Char) (rest : List Char)
    (hne : a ≠ []) (hall : ∀ c ∈ a, c.isUpper = true) (hc : c.isUpper = true)
    (hd : d.isLower = true) :
    parted endsRun previous (a ++ ([c, d] ++ rest)) =
      a ++ '_' :: [c, d] ++ parted endsRun (some d) rest := by
  induction a generalizing previous with
  | nil => exact absurd rfl hne
  | cons x a ih =>
    rw [List.forall_mem_cons] at hall
    -- A small letter stands only behind the last capital, so the scan passes over this one.
    have hquiet : startsWord endsRun previous (x :: (a ++ ([c, d] ++ rest))) = false := by
      have hnext : ∀ p, endsRun p (a ++ ([c, d] ++ rest)).head? = false := by
        intro p
        cases a with
        | nil => simp [endsRun, isLower_of_isUpper hc]
        | cons y a => simp [endsRun, isLower_of_isUpper (hall.2 y List.mem_cons_self)]
      cases previous with
      | none => exact startsWord_none
      | some p => rw [startsWord, Option.any_some, hnext, Bool.and_false]
    rw [List.cons_append, parted_of_not_startsWord hquiet]
    cases a with
    | nil =>
      have hstarts : startsWord endsRun (some x) (c :: d :: rest) = true := by
        simp [startsWord, endsRun, hc, hd, hall.1]
      rw [List.nil_append, List.cons_append, List.cons_append, List.nil_append,
        parted_of_startsWord hstarts,
        parted_of_not_startsWord (startsWord_of_not_isUpper (isUpper_of_isLower hd))]
      rfl
    | cons y a =>
      rw [ih (some x) (List.cons_ne_nil _ _) hall.2]
      rfl

/-- The last capital of each run is parted from the others in one scan. -/
theorem replaces_capitalRuns (text : List Char) :
    capitalRuns.Replaces text (parted endsRun none text) := by
  refine replaces_parted (fun h h' ↦ ?_) (fun {a b} previous rest ha hb ↦ ?_)
    (fun {p c cs} hc hbegins ↦ ?_) text startsWord_none
  · have hfirst := (length_of_matches_capitalRuns h).1
    rw [(length_of_matches_capitalRuns h').1] at hfirst
    refine ⟨(Nat.succ.inj hfirst).symm, ?_⟩
    rw [(length_of_matches_capitalRuns h).2, (length_of_matches_capitalRuns h').2]
  · obtain ⟨c, d, rfl, hc, hd⟩ := hb
    refine ⟨d, parted_capitalRun previous rest ha.1 ha.2 hc hd, ?_⟩
    cases rest with
    | nil => rfl
    | cons e rest => simp [startsWord, endsRun, isUpper_of_isLower hd]
  · rw [endsRun, Bool.and_eq_true] at hbegins
    obtain ⟨hp, hnext⟩ := hbegins
    cases cs with
    | nil => cases hnext
    | cons d cs =>
      exact ⟨[p], [c, d], cs, rfl, ⟨List.cons_ne_nil _ _, by simpa using hp⟩, c, d, rfl, hc, hnext⟩

/-- Each capital is parted from the small letter or digit before it in one scan. -/
theorem replaces_wordEnds (text : List Char) :
    wordEnds.Replaces text (parted endsWord none text) := by
  refine replaces_parted (fun h h' ↦ ?_) (fun {a b} previous rest ha hb ↦ ?_)
    (fun {p c cs} hc hbegins ↦ ?_) text startsWord_none
  · obtain ⟨-, ⟨_, rfl, -⟩, _, rfl, -⟩ := h
    obtain ⟨-, ⟨_, rfl, -⟩, _, rfl, -⟩ := h'
    exact ⟨rfl, rfl⟩
  · obtain ⟨c, rfl, hc⟩ := ha
    obtain ⟨d, rfl, hd⟩ := hb
    have hstarts : startsWord endsWord (some c) (d :: rest) = true := by
      simpa [startsWord, endsWord, hd] using hc
    have hquiet : startsWord endsWord (some d) rest = false := by
      have hdigit : d.isDigit = false := Bool.eq_false_iff.2 fun hdigit ↦ by
        rw [isUpper_of_isDigit hdigit] at hd
        cases hd
      cases rest with
      | nil => rfl
      | cons e rest => simp [startsWord, endsWord, isLower_of_isUpper hd, hdigit]
    refine ⟨d, ?_, hquiet⟩
    rw [List.cons_append, List.cons_append, List.nil_append, List.nil_append,
      parted_of_not_startsWord (startsWord_of_not_isUpper (hc.elim isUpper_of_isLower
        isUpper_of_isDigit)), parted_of_startsWord hstarts]
    rfl
  · rw [endsWord, Bool.or_eq_true] at hbegins
    exact ⟨[p], [c], cs, rfl, ⟨p, rfl, hbegins⟩, c, rfl, hc⟩

/-- The scan for separators does what the first substitution does. -/
theorem replaces_separators (text : List Char) : separators.Replaces text (slashed text) := by
  fun_induction slashed text with
  | case1 cs ih =>
    have hmatch : separators.MatchesGreedily (':' :: ':' :: cs) [':'] [':'] cs :=
      ⟨⟨rfl, rfl, rfl⟩, fun h ↦ by rw [h.first], fun h ↦ by rw [h.second]⟩
    exact .replace hmatch ih
  | case2 c cs hne ih =>
    refine .skip (fun a b rest h ↦ ?_) ih
    obtain ⟨htext, rfl, rfl⟩ := h
    obtain ⟨rfl, rfl⟩ := List.cons.inj htext
    exact hne rest rfl rfl
  | case3 => exact .nil

/-! ### The rule -/

/-- The two scans for capitals are one. -/
theorem parted_endsWord_parted_endsRun (previous : Option Char) (cs : List Char) :
    parted endsWord previous (parted endsRun previous cs) = parted beginsWord previous cs := by
  induction cs generalizing previous with
  | nil => rfl
  | cons c cs ih =>
    have hboth : startsWord beginsWord previous (c :: cs) =
        (startsWord endsWord previous (c :: parted endsRun (some c) cs) ||
          startsWord endsRun previous (c :: cs)) := by
      cases previous with
      | none => rw [startsWord_none, startsWord_none, startsWord_none, Bool.or_false]
      | some p => exact Bool.and_or_distrib_left _ _ _
    cases hrun : startsWord endsRun previous (c :: cs) with
    | true =>
      rw [hrun, Bool.or_true] at hboth
      -- Behind the underscore of the first scan the second one writes none.
      have hunderscore : startsWord endsWord (some '_') (c :: parted endsRun (some c) cs) = false :=
        Bool.and_false _
      rw [parted_of_startsWord hrun, parted_of_startsWord hboth,
        parted_of_not_startsWord (startsWord_of_not_isUpper rfl),
        parted_of_not_startsWord hunderscore, ih]
    | false =>
      rw [hrun, Bool.or_false] at hboth
      rw [parted_of_not_startsWord hrun]
      cases hword : startsWord endsWord previous (c :: parted endsRun (some c) cs) with
      | true => rw [parted_of_startsWord hword, parted_of_startsWord (hboth.trans hword), ih]
      | false =>
        rw [parted_of_not_startsWord hword, parted_of_not_startsWord (hboth.trans hword), ih]

/-- The scan of the source parts words and then writes each character as the rule does. -/
theorem underscoredAfter_eq_map (previous : Option Char) (cs : List Char) :
    underscoredAfter previous cs = (parted beginsWord previous cs).map underscoredChar := by
  induction cs generalizing previous with
  | nil => rfl
  | cons c cs ih =>
    rw [underscoredAfter, parted, ih, apply_ite (List.map underscoredChar), startsWord]
    rfl

/-- Whether a path comes of a name by the substitutions of the rule, one after the other. -/
def InTurns (name path : String) : Prop :=
  ∃ slashes runs words, separators.Replaces name.toList slashes ∧
    capitalRuns.Replaces slashes runs ∧ wordEnds.Replaces runs words ∧
    path = String.ofList ((words.map fun c ↦ if c = '-' then '_' else c).map Char.toLower)

/-- All substitutions in their turns have one result. -/
theorem InTurns.unique {name path path' : String} (h : InTurns name path)
    (h' : InTurns name path') : path = path' := by
  obtain ⟨slashes, runs, words, hslashes, hruns, hwords, rfl⟩ := h
  obtain ⟨slashes', runs', words', hslashes', hruns', hwords', rfl⟩ := h'
  obtain rfl := hslashes.unique hslashes'
  obtain rfl := hruns.unique hruns'
  obtain rfl := hwords.unique hwords'
  rfl

/-- What the scan makes of a text is what the rule makes of it. -/
theorem inTurns_underscoredAfter (name : String) :
    InTurns name (String.ofList (underscoredAfter none (slashed name.toList))) := by
  have hchar : underscoredChar = Char.toLower ∘ fun c ↦ if c = '-' then '_' else c := by
    funext c
    rw [underscoredChar, Function.comp_apply]
    split <;> rfl
  refine ⟨_, _, _, replaces_separators _, replaces_capitalRuns _, replaces_wordEnds _, ?_⟩
  rw [underscoredAfter_eq_map, ← parted_endsWord_parted_endsRun, List.map_map, hchar]

/-! ### Underscored paths underscored -/

/-- No capital is left in an underscored path. -/
theorem isUpper_underscoredChar (c : Char) : (underscoredChar c).isUpper = false := by
  rw [underscoredChar]
  split
  · rfl
  · cases hupper : c.isUpper with
    | false => rw [toLower_of_not_isUpper hupper, hupper]
    | true =>
      have hrange := isUpper_iff_toNat.1 hupper
      rw [Bool.eq_false_iff, Ne, isUpper_iff_toNat, toNat_toLower hupper]
      omega

theorem underscoredChar_eq_self {c : Char} (hupper : c.isUpper = false) (hdash : c ≠ '-') :
    underscoredChar c = c := by
  rw [underscoredChar, if_neg hdash, toLower_of_not_isUpper hupper]

/-- The rule leaves no dash. -/
theorem underscoredChar_ne_dash (c : Char) : underscoredChar c ≠ '-' := by
  intro h
  have hc : c = '-' := eq_of_underscoredChar_eq rfl (by decide) h
  rw [hc] at h
  exact absurd h (by decide)

/-- A text without capitals and dashes is underscored already. -/
theorem underscoredAfter_eq_self {cs : List Char} (previous : Option Char)
    (h : ∀ c ∈ cs, c.isUpper = false ∧ c ≠ '-') : underscoredAfter previous cs = cs := by
  induction cs generalizing previous with
  | nil => rfl
  | cons c cs ih =>
    rw [List.forall_mem_cons] at h
    rw [underscoredAfter, h.1.1, Bool.false_and, if_neg Bool.false_ne_true,
      underscoredChar_eq_self h.1.1 h.1.2, ih _ h.2]

/-- Two colons stand in a text at its beginning or behind it. -/
theorem colons_infix_cons_iff {c : Char} {cs : List Char} :
    [':', ':'] <:+: c :: cs ↔ c = ':' ∧ cs.head? = some ':' ∨ [':', ':'] <:+: cs := by
  rw [List.infix_cons_iff, List.cons_prefix_cons, eq_comm]
  cases cs with
  | nil => simp
  | cons d cs => simp [eq_comm]

/-- A separator that is written out begins with a colon only if the text did. -/
theorem head?_of_slashed {cs : List Char} (h : (slashed cs).head? = some ':') :
    cs.head? = some ':' := by
  unfold slashed at h
  split at h
  · rfl
  · exact h
  · exact h

/-- Once the separators are written out no two colons stand together. -/
theorem not_infix_slashed (cs : List Char) : ¬[':', ':'] <:+: slashed cs := by
  fun_induction slashed cs with
  | case1 cs ih =>
    rw [colons_infix_cons_iff, not_or]
    exact ⟨fun h ↦ absurd h.1 (by decide), ih⟩
  | case2 c cs hne ih =>
    rw [colons_infix_cons_iff, not_or]
    refine ⟨fun hboth ↦ ?_, ih⟩
    obtain ⟨rest, hrest⟩ := List.head?_eq_some_iff.1 (head?_of_slashed hboth.2)
    exact hne rest hboth.1 hrest
  | case3 => simp

/-- A scan begins with a colon only if the text did. -/
theorem head?_of_underscoredAfter {previous : Option Char} {cs : List Char}
    (h : (underscoredAfter previous cs).head? = some ':') : cs.head? = some ':' := by
  cases cs with
  | nil => cases h
  | cons c cs =>
    rw [underscoredAfter] at h
    split at h
    · exact absurd (Option.some.inj h) (by decide)
    · exact congrArg some (eq_of_underscoredChar_eq rfl (by decide) (Option.some.inj h))

/-- A scan puts no two colons together. -/
theorem not_infix_underscoredAfter {cs : List Char} (h : ¬[':', ':'] <:+: cs)
    (previous : Option Char) : ¬[':', ':'] <:+: underscoredAfter previous cs := by
  induction cs generalizing previous with
  | nil => exact h
  | cons c cs ih =>
    rw [colons_infix_cons_iff, not_or] at h
    have hword : ¬[':', ':'] <:+: underscoredChar c :: underscoredAfter (some c) cs := by
      rw [colons_infix_cons_iff, not_or]
      refine ⟨fun hboth ↦ h.1 ⟨?_, head?_of_underscoredAfter hboth.2⟩, ih h.2 _⟩
      exact eq_of_underscoredChar_eq rfl (by decide) hboth.1
    rw [underscoredAfter]
    split
    · rw [colons_infix_cons_iff, not_or]
      exact ⟨fun hboth ↦ absurd hboth.1 (by decide), hword⟩
    · exact hword

/-- What is underscored is not changed when it is underscored again. -/
theorem underscored_underscored (name : String) :
    underscored (underscored name) = underscored name := by
  have hcolons := not_infix_underscoredAfter (not_infix_slashed (relative name).toList) none
  have hpath : underscored name =
      String.ofList (underscoredAfter none (slashed (relative name).toList)) := rfl
  rw [hpath, ← String.toList_inj, toList_underscored_ofList hcolons, String.toList_ofList]
  refine underscoredAfter_eq_self none fun c hc ↦ ?_
  rcases mem_underscoredAfter hc with rfl | ⟨d, -, rfl⟩
  · decide
  · exact ⟨isUpper_underscoredChar d, underscoredChar_ne_dash d⟩

/-- A name is underscored as the rule has it, a separator in front of it being dropped first, and an
underscored path stays as it is. -/
theorem underscored_eq_iff_inTurns :
    (∀ name path : String, ¬separator.toList <+: name.toList →
      (underscored name = path ↔ InTurns name path)) ∧
      (∀ name path : String, underscored (separator ++ name) = path ↔ InTurns name path) ∧
      ∀ name : String, underscored (underscored name) = underscored name := by
  have hrelative : ∀ {name rest path : String}, relative name = rest →
      (underscored name = path ↔ InTurns rest path) := by
    rintro name rest path rfl
    have hturns := inTurns_underscoredAfter (relative name)
    exact ⟨fun h ↦ h ▸ hturns, fun h ↦ hturns.unique h⟩
  refine ⟨fun name path hname ↦ hrelative ?_, fun name path ↦ hrelative ?_,
    underscored_underscored⟩
  · refine ((relative_eq_or name).resolve_left fun h ↦ hname ?_).1
    exact ⟨_, h.symm⟩
  · have hname : (separator ++ name).toList = ':' :: ':' :: name.toList := by
      rw [String.toList_append]
      rfl
    rcases relative_eq_or (separator ++ name) with h | ⟨-, h⟩
    · rw [hname] at h
      exact String.toList_inj.1 (by simpa using h.symm)
    · rw [hname] at h
      exact absurd (List.prefix_append [':', ':'] _) h

/-- Runs of capitals at the beginning, inside and at the end, and a digit between capitals. -/
theorem underscored_eq_iff_inTurns_sample :
    ¬separator.toList <+: "ABcDEf::A1Bc-XY".toList ∧
      InTurns "ABcDEf::A1Bc-XY" "a_bc_d_ef/a1_bc_xy" := by
  have hname : ¬separator.toList <+: "ABcDEf::A1Bc-XY".toList := by decide
  exact ⟨hname, (underscored_eq_iff_inTurns.1 _ _ hname).1 (by decide +kernel)⟩

end ConstantPath

end ModelSignatures
