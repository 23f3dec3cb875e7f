import Mathlib.Data.List.Forall2
import Mathlib.Data.List.TakeWhile
import ModelSignatures.Json.Parser
import ModelSignatures.Json.Printer

/-!
# JSON text read back

What is written for a value without numbers is read back as the value, as long as its arrays and
objects lie no deeper in one another than they may (`Json.parse?_pretty`). Each reader takes just
what was written for it, whatever follows: the characters of a string are told from its closing
quote, and the items of a list from the bracket behind them.
-/

namespace ModelSignatures

namespace Json

/-! ### White space -/

/-- Blanks are skipped with those that follow them. -/
theorem skipSpace_append {blanks : List Char} (h : skipSpace blanks = []) (cs : List Char) :
    skipSpace (blanks ++ cs) = skipSpace cs := by
  rw [skipSpace, List.dropWhile_eq_nil_iff] at h
  rw [skipSpace, List.dropWhile_append_of_pos h, skipSpace]

/-- What is not blank is not skipped. -/
theorem skipSpace_cons {c : Char} (h : c ∉ [' ', '\t', '\n', '\r']) (cs : List Char) :
    skipSpace (c :: cs) = c :: cs := by
  simp only [List.mem_cons, List.not_mem_nil, or_false, not_or] at h
  exact List.dropWhile_cons_of_neg (by simp [h])

/-- The beginning of a line is blank. -/
theorem skipSpace_lineStart (indent : ℕ) : skipSpace (lineStart indent).toList = [] := by
  rw [skipSpace, List.dropWhile_eq_nil_iff, lineStart, String.toList_ofList]
  refine List.forall_mem_cons.2 ⟨rfl, fun c hc ↦ ?_⟩
  rw [List.eq_of_mem_replicate hc]
  rfl

/-! ### Strings -/

/-- The last digit of a number is read back. -/
theorem hexDigit?_hexDigit (n : ℕ) : hexDigit? (hexDigit n) = some (n % 16) := by
  have hall : ∀ digit < 16, hexDigit? (Nat.digitChar digit) = some digit := by decide
  exact hall _ (Nat.mod_lt n (by decide))

/-- The characters that are written as a backslash and a letter or the character itself. -/
theorem readEscape_of_mem {c : Char}
    (h : c ∈ ['"', '\\', '\n', '\r', '\t', '\x08', '\x0c']) :
    ∃ code, escaped c = '\\' :: code ∧ ∀ rest, readEscape (code ++ rest) = some (c, rest) := by
  simp only [List.mem_cons, List.not_mem_nil, or_false] at h
  rcases h with rfl | rfl | rfl | rfl | rfl | rfl | rfl <;> exact ⟨_, rfl, fun rest ↦ rfl⟩

/-- A control character is read from the digits of its code point. -/
theorem readEscape_control {c : Char} (h : c.toNat < 0x20) (rest : List Char) :
    readEscape ('u' :: '0' :: '0' :: hexDigit (c.toNat / 16) :: hexDigit c.toNat :: rest) =
      some (c, rest) := by
  have hzero : hexDigit? '0' = some 0 := rfl
  have hvalue : ((0 * 16 + 0) * 16 + c.toNat / 16 % 16) * 16 + c.toNat % 16 = c.toNat := by
    omega
  have hunit : readUnit ('0' :: '0' :: hexDigit (c.toNat / 16) :: hexDigit c.toNat :: rest) =
      some (c.toNat, rest) := by
    rw [readUnit, hzero, hexDigit?_hexDigit, hexDigit?_hexDigit]
    simp only [Option.bind_eq_bind, Option.bind_some, hvalue]
    rfl
  rw [readEscape, hunit]
  simp only [Option.bind_eq_bind, Option.bind_some]
  rw [if_neg (by omega), if_neg (by omega), Char.ofNat_toNat]
  rfl

/-- A character is written as itself, or behind a backslash as something that is read as it. -/
theorem escaped_eq_or (c : Char) :
    (escaped c = [c] ∧ c ≠ '"' ∧ c ≠ '\\' ∧ ¬c.toNat < 0x20) ∨
      ∃ code, escaped c = '\\' :: code ∧ ∀ rest, readEscape (code ++ rest) = some (c, rest) := by
  by_cases hmem : c ∈ ['"', '\\', '\n', '\r', '\t', '\x08', '\x0c']
  · exact Or.inr (readEscape_of_mem hmem)
  · have hplain : escaped c = if c.toNat < 0x20 then
        ['\\', 'u', '0', '0', hexDigit (c.toNat / 16), hexDigit c.toNat] else [c] := by
      simp only [List.mem_cons, List.not_mem_nil, or_false, not_or] at hmem
      simp [escaped, hmem]
    rw [hplain]
    split
    next hcontrol => exact Or.inr ⟨_, rfl, readEscape_control hcontrol⟩
    next hprintable =>
      refine Or.inl ⟨rfl, ?_, ?_, hprintable⟩
      · rintro rfl
        exact hmem (by decide)
      · rintro rfl
        exact hmem (by decide)

/-- Every character is written as at least one. -/
theorem escaped_ne_nil (c : Char) : escaped c ≠ [] := by
  rcases escaped_eq_or c with ⟨h, -⟩ | ⟨code, h, -⟩
  · rw [h]
    exact List.cons_ne_nil _ _
  · rw [h]
    exact List.cons_ne_nil _ _

/-- Characters that are written in a string are read back, up to the closing quote. -/
theorem readChars_escaped (text rest : List Char) {bound : ℕ} (hbound : text.length < bound) :
    readChars bound (text.flatMap escaped ++ '"' :: rest) = some (text, rest) := by
  induction text generalizing bound with
  | nil =>
    obtain ⟨bound, rfl⟩ := Nat.exists_eq_succ_of_ne_zero (Nat.ne_of_gt hbound)
    rfl
  | cons c text ih =>
    obtain ⟨bound, rfl⟩ := Nat.exists_eq_succ_of_ne_zero (Nat.ne_of_gt (Nat.zero_lt_of_lt hbound))
    have hrest := ih (Nat.lt_of_succ_lt_succ hbound)
    rw [List.flatMap_cons, List.append_assoc]
    rcases escaped_eq_or c with ⟨h, hquote, hbackslash, hprintable⟩ | ⟨code, h, hread⟩
    · rw [h, List.singleton_append, readChars, if_neg hquote, if_neg hbackslash,
        if_neg hprintable, hrest]
      rfl
    · rw [h, List.cons_append, readChars, if_neg (by decide), if_pos rfl, hread]
      simp only [Option.bind_eq_bind, Option.bind_some, hrest]
      rfl

/-- A string is read behind its first quote. -/
theorem readString_escaped (text : String) (rest : List Char) :
    readString (text.toList.flatMap escaped ++ '"' :: rest) = some (text, rest) := by
  have hlength : text.toList.length ≤ (text.toList.flatMap escaped).length := by
    induction text.toList with
    | nil => exact Nat.le_refl _
    | cons c cs ih =>
      have hpos := List.length_pos_iff.2 (escaped_ne_nil c)
      rw [List.flatMap_cons, List.length_append, List.length_cons]
      omega
  have hbound : text.toList.length < (text.toList.flatMap escaped ++ '"' :: rest).length := by
    rw [List.length_append, List.length_cons]
    omega
  rw [readString, readChars_escaped text.toList rest hbound]
  simp

/-- A quoted text stands between quotes. -/
theorem toList_quoted (text : String) :
    (quoted text).toList = '"' :: (text.toList.flatMap escaped ++ ['"']) := by
  rw [quoted, String.toList_ofList]
  rfl

/-! ### Lists -/

/-- Whether the reader takes the line as an item, whatever follows, and it could not be taken for
the end of the list. -/
structure IsItem {α : Type} (closing : Char) (item : TextReader α) (line : String) (x : α) :
    Prop where
  opens : ∀ rest, afterPrefix? [closing] (skipSpace (line.toList ++ rest)) = none
  reads : ∀ rest, item (line.toList ++ rest) = some (x, rest)

section Lists

variable {α : Type} {closing : Char} {item : TextReader α} {lines : List String} {xs : List α}

/-- What is joined begins with the first line. -/
theorem exists_intercalate_append (line : String) (lines : List String) (behind : List Char) :
    ∃ tail, (",".intercalate (line :: lines)).toList ++ behind = line.toList ++ tail := by
  cases lines with
  | nil => exact ⟨behind, by rw [String.intercalate_singleton]⟩
  | cons next lines =>
    refine ⟨',' :: ((",".intercalate (next :: lines)).toList ++ behind), ?_⟩
    simp [String.intercalate_cons_cons]

/-- What is joined has a character for each line but the first: the comma in front of it. -/
theorem length_le_intercalate (line : String) (lines : List String) :
    lines.length ≤ (",".intercalate (line :: lines)).toList.length := by
  induction lines generalizing line with
  | nil => exact Nat.zero_le _
  | cons next lines ih =>
    have hrest := ih next
    rw [String.intercalate_cons_cons, String.toList_append, String.toList_append,
      List.length_append, List.length_append, List.length_cons]
    have hcomma : ",".toList.length = 1 := rfl
    omega

/-- Items between commas are read one by one, up to the closing bracket. -/
theorem readItems_intercalate {line : String} {x : α} (hx : IsItem closing item line x)
    (hxs : List.Forall₂ (IsItem closing item) lines xs) {bound : ℕ} (hbound : lines.length < bound)
    {behind rest : List Char} (hbehind : skipSpace behind = closing :: rest)
    (hcomma : closing ≠ ',') :
    readItems closing item bound ((",".intercalate (line :: lines)).toList ++ behind) =
      some (x :: xs, rest) := by
  induction hxs generalizing line x bound with
  | nil =>
    obtain ⟨bound, rfl⟩ := Nat.exists_eq_succ_of_ne_zero (Nat.ne_of_gt hbound)
    rw [String.intercalate_singleton, readItems, hx.reads]
    simp only [Option.bind_eq_bind, Option.bind_some]
    rw [hbehind]
    dsimp only
    rw [if_neg hcomma, if_pos rfl]
    rfl
  | @cons next y lines xs hy _ ih =>
    obtain ⟨bound, rfl⟩ := Nat.exists_eq_succ_of_ne_zero (Nat.ne_of_gt (Nat.zero_lt_of_lt hbound))
    have hrest := ih hy (Nat.lt_of_succ_lt_succ hbound)
    have hcons : (",".intercalate (line :: next :: lines)).toList ++ behind =
        line.toList ++ ',' :: ((",".intercalate (next :: lines)).toList ++ behind) := by
      simp [String.intercalate_cons_cons]
    rw [hcons, readItems, hx.reads]
    simp only [Option.bind_eq_bind, Option.bind_some]
    rw [skipSpace_cons (by decide)]
    dsimp only
    rw [if_pos rfl, hrest]
    rfl

theorem toList_bracketed_nil (opening closing : Char) (indent : ℕ) :
    (bracketed opening closing indent []).toList = [opening, closing] :=
  String.toList_ofList

/-- The lines in brackets each stand on a line of their own, further to the right. -/
theorem toList_bracketed_cons (opening closing : Char) (indent : ℕ) (line : String)
    (lines : List String) :
    (bracketed opening closing indent (line :: lines)).toList =
      opening :: ((",".intercalate ((line :: lines).map (lineStart (indent + 2) ++ ·))).toList ++
        ((lineStart indent).toList ++ [closing])) := by
  rw [bracketed, if_neg (by simp)]
  simp only [String.toList_append, String.toList_singleton, List.append_assoc,
    List.singleton_append]
  rfl

/-- What stands between brackets is read up to the closing one. -/
theorem readEnclosed_bracketed (indent : ℕ) (hspace : closing ∉ [' ', '\t', '\n', '\r'])
    (hcomma : closing ≠ ',')
    (h : List.Forall₂ (IsItem closing item) (lines.map (lineStart (indent + 2) ++ ·)) xs)
    (opening : Char) (rest : List Char) :
    ∃ behind, (bracketed opening closing indent lines).toList ++ rest = opening :: behind ∧
      readEnclosed closing item behind = some (xs, rest) := by
  cases lines with
  | nil =>
    -- brackets around nothing are written without a line between them
    cases h
    refine ⟨closing :: rest, by rw [toList_bracketed_nil]; rfl, ?_⟩
    have hprefix : afterPrefix? [closing] (closing :: rest) = some rest :=
      afterPrefix?_eq_some_iff.2 rfl
    rw [readEnclosed, skipSpace_cons hspace, hprefix]
  | cons line lines =>
    rw [List.map_cons] at h
    obtain - | ⟨hx, hxs⟩ := h
    rw [toList_bracketed_cons, List.map_cons, List.cons_append, List.append_assoc]
    refine ⟨_, rfl, ?_⟩
    generalize hbehind : (lineStart indent).toList ++ [closing] ++ rest = behind
    have hends : skipSpace behind = closing :: rest := by
      rw [← hbehind, List.append_assoc, skipSpace_append (skipSpace_lineStart indent)]
      exact skipSpace_cons hspace rest
    obtain ⟨tail, htail⟩ := exists_intercalate_append (lineStart (indent + 2) ++ line)
      (lines.map (lineStart (indent + 2) ++ ·)) behind
    have hopens := hx.opens tail
    rw [← htail] at hopens
    rw [readEnclosed, hopens]
    refine readItems_intercalate hx hxs ?_ hends hcomma
    have hlength := length_le_intercalate (lineStart (indent + 2) ++ line)
      (lines.map (lineStart (indent + 2) ++ ·))
    have hpos : 0 < behind.length := by
      rw [← hbehind]
      simp only [List.length_append, List.length_singleton]
      omega
    rw [List.length_append]
    omega

end Lists

/-! ### Values -/

/-- Whether a value has no numbers, and its arrays and objects lie at most so deep in one
another. -/
inductive Within : (depth : ℕ) → Json → Prop
  | null (depth : ℕ) : Within depth null
  | bool (depth : ℕ) (b : Bool) : Within depth (bool b)
  | string (depth : ℕ) (text : String) : Within depth (string text)
  | array {depth : ℕ} {items : List Json} (inside : ∀ item ∈ items, Within depth item) :
      Within (depth + 1) (array items)
  | object {depth : ℕ} {fields : List (String × Json)}
      (inside : ∀ field ∈ fields, Within depth field.2) : Within (depth + 1) (object fields)

/-- Every item of an array is written at the same indent. -/
theorem prettyItems_eq_map (items : List Json) (indent : ℕ) :
    prettyItems items indent = items.map fun item ↦ pretty item indent := by
  induction items with
  | nil => rfl
  | cons item items ih => rw [prettyItems, List.map_cons, ih]

/-- Every field of an object is written behind its name, at the same indent. -/
theorem prettyFields_eq_map (fields : List (String × Json)) (indent : ℕ) :
    prettyFields fields indent =
      fields.map fun field ↦ quoted field.1 ++ ": " ++ pretty field.2 indent := by
  induction fields with
  | nil => rfl
  | cons field fields ih => rw [prettyFields, List.map_cons, ih]

/-- What is bracketed begins with its bracket. -/
theorem exists_bracketed_cons (opening closing : Char) (indent : ℕ) (lines : List String) :
    ∃ more, (bracketed opening closing indent lines).toList = opening :: more := by
  cases lines with
  | nil => exact ⟨_, toList_bracketed_nil opening closing indent⟩
  | cons line lines => exact ⟨_, toList_bracketed_cons opening closing indent line lines⟩

/-- A value without numbers begins with one of six characters. -/
theorem Within.exists_pretty_cons {depth : ℕ} {j : Json} (h : Within depth j) (indent : ℕ) :
    ∃ c ∈ ['n', 't', 'f', '"', '[', '{'], ∃ more, (pretty j indent).toList = c :: more := by
  cases h with
  | null => exact ⟨'n', by decide, ['u', 'l', 'l'], by rw [pretty]; decide⟩
  | bool depth b =>
    cases b with
    | true => exact ⟨'t', by decide, ['r', 'u', 'e'], by rw [pretty]; decide⟩
    | false => exact ⟨'f', by decide, ['a', 'l', 's', 'e'], by rw [pretty]; decide⟩
  | string depth text => exact ⟨'"', by decide, _, toList_quoted text⟩
  | array => exact ⟨'[', by decide, exists_bracketed_cons _ _ _ _⟩
  | object => exact ⟨'{', by decide, exists_bracketed_cons _ _ _ _⟩

/-- Blanks in front of a value are skipped. -/
theorem readValue_append {blanks : List Char} (h : skipSpace blanks = []) (depth : ℕ)
    (cs : List Char) : readValue depth (blanks ++ cs) = readValue depth cs := by
  cases depth with
  | zero => rw [readValue, readValue, skipSpace_append h]
  | succ depth => rw [readValue, readValue, skipSpace_append h]

/-- What begins with no bracket is a scalar, at any depth. -/
theorem readValue_scalar {c : Char} (h : c ∉ [' ', '\t', '\n', '\r', '[', '{']) (depth : ℕ)
    (cs : List Char) : readValue depth (c :: cs) = readScalar (c :: cs) := by
  have hspace : c ∉ [' ', '\t', '\n', '\r'] := fun hmem ↦ h (List.mem_append_left ['[', '{'] hmem)
  cases depth with
  | zero => rw [readValue, skipSpace_cons hspace]
  | succ depth =>
    rw [readValue, skipSpace_cons hspace]
    split
    next heq =>
      cases heq
      exact absurd (by decide) h
    next heq =>
      cases heq
      exact absurd (by decide) h
    · rfl

/-- An array is read one level deeper, up to its bracket. -/
theorem readValue_array (depth : ℕ) (cs : List Char) :
    readValue (depth + 1) ('[' :: cs) =
      (readEnclosed ']' (readValue depth) cs).map fun (items, cs) ↦ (array items, cs) := by
  rw [readValue, skipSpace_cons (by decide)]
  rfl

/-- An object is read one level deeper, up to its brace. -/
theorem readValue_object (depth : ℕ) (cs : List Char) :
    readValue (depth + 1) ('{' :: cs) =
      (readEnclosed '}' (readField (readValue depth)) cs).map fun (fields, cs) ↦
        (object fields, cs) := by
  rw [readValue, skipSpace_cons (by decide)]
  rfl

/-- A value without numbers is a line of an array. -/
theorem isItem_readValue {depth : ℕ} {j : Json} (h : Within depth j) (indent : ℕ)
    (hreads : ∀ rest, readValue depth ((pretty j indent).toList ++ rest) = some (j, rest)) :
    IsItem ']' (readValue depth) (lineStart indent ++ pretty j indent) j where
  opens := by
    intro rest
    obtain ⟨c, hc, more, hmore⟩ := h.exists_pretty_cons indent
    have hfirst : ∀ c ∈ ['n', 't', 'f', '"', '[', '{'], c ∉ [' ', '\t', '\n', '\r'] ∧ ']' ≠ c := by
      simp
    obtain ⟨hspace, hne⟩ := hfirst c hc
    rw [String.toList_append, List.append_assoc, skipSpace_append (skipSpace_lineStart indent),
      hmore, List.cons_append, skipSpace_cons hspace, afterPrefix?, if_neg hne]
  reads := by
    intro rest
    rw [String.toList_append, List.append_assoc, readValue_append (skipSpace_lineStart indent),
      hreads]

/-- A key and a value without numbers are a line of an object. -/
theorem isItem_readField {depth : ℕ} {j : Json} (key : String) (indent : ℕ)
    (hreads : ∀ rest, readValue depth ((pretty j indent).toList ++ rest) = some (j, rest)) :
    IsItem '}' (readField (readValue depth))
      (lineStart indent ++ (quoted key ++ ": " ++ pretty j indent)) (key, j) := by
  have hline : ∀ rest, skipSpace
      ((lineStart indent ++ (quoted key ++ ": " ++ pretty j indent)).toList ++ rest) =
        '"' :: (key.toList.flatMap escaped ++
          '"' :: ':' :: ([' '] ++ ((pretty j indent).toList ++ rest))) := by
    intro rest
    rw [String.toList_append, List.append_assoc, skipSpace_append (skipSpace_lineStart indent),
      String.toList_append, String.toList_append, toList_quoted, List.cons_append, List.cons_append,
      List.cons_append, skipSpace_cons (by decide)]
    have hcolon : ": ".toList = [':', ' '] := by decide
    rw [hcolon]
    simp
  refine ⟨fun rest ↦ ?_, fun rest ↦ ?_⟩
  · rw [hline]
    rfl
  · have hquote : ∀ cs, afterPrefix? ['"'] ('"' :: cs) = some cs := fun _ ↦ rfl
    have hcolon : ∀ cs, afterPrefix? [':'] (skipSpace (':' :: cs)) = some cs := fun _ ↦ rfl
    rw [readField, hline, hquote]
    simp only [Option.bind_eq_bind, Option.bind_some]
    rw [readString_escaped]
    simp only [Option.bind_some]
    rw [hcolon]
    simp only [Option.bind_some]
    rw [readValue_append (by decide), hreads]
    rfl

/-- What is written for a value is read back, whatever follows. -/
theorem readValue_pretty {depth : ℕ} {j : Json} (h : Within depth j) (indent : ℕ)
    (rest : List Char) :
    readValue depth ((pretty j indent).toList ++ rest) = some (j, rest) := by
  -- over the values that may stand at a depth: the reader's bound is what `Within` counts
  induction h generalizing indent rest with
  | null depth =>
    have hnull : "null".toList = ['n', 'u', 'l', 'l'] := by decide
    rw [pretty, hnull, List.cons_append, readValue_scalar (by decide)]
    rfl
  | bool depth b =>
    cases b with
    | true =>
      have htrue : "true".toList = ['t', 'r', 'u', 'e'] := by decide
      rw [pretty, if_pos rfl, htrue, List.cons_append, readValue_scalar (by decide)]
      rfl
    | false =>
      have hfalse : "false".toList = ['f', 'a', 'l', 's', 'e'] := by decide
      rw [pretty, if_neg (by decide), hfalse, List.cons_append, readValue_scalar (by decide)]
      rfl
  | string depth text =>
    rw [pretty, toList_quoted, List.cons_append, List.append_assoc, List.singleton_append,
      readValue_scalar (by decide), readScalar, readString_escaped]
    rfl
  | @array depth items inside ih =>
    have hitems : List.Forall₂ (IsItem ']' (readValue depth))
        ((prettyItems items (indent + 2)).map (lineStart (indent + 2) ++ ·)) items := by
      rw [prettyItems_eq_map, List.map_map, List.forall₂_map_left_iff]
      exact List.forall₂_same.2 fun item hitem ↦
        isItem_readValue (inside item hitem) _ (ih item hitem _)
    obtain ⟨behind, hopening, hread⟩ :=
      readEnclosed_bracketed indent (by decide) (by decide) hitems '[' rest
    rw [pretty, hopening, readValue_array, hread]
    rfl
  | @object depth fields inside ih =>
    have hfields : List.Forall₂ (IsItem '}' (readField (readValue depth)))
        ((prettyFields fields (indent + 2)).map (lineStart (indent + 2) ++ ·)) fields := by
      rw [prettyFields_eq_map, List.map_map, List.forall₂_map_left_iff]
      exact List.forall₂_same.2 fun field hfield ↦
        isItem_readField field.1 _ (ih field hfield _)
    obtain ⟨behind, hopening, hread⟩ :=
      readEnclosed_bracketed indent (by decide) (by decide) hfields '{' rest
    rw [pretty, hopening, readValue_object, hread]
    rfl

/-- The text of a value is read as the value. -/
theorem parse?_pretty {j : Json} (h : Within maxDepth j) :
    parse? (j.pretty 0 ++ "\n") = some j := by
  have hend : skipSpace "\n".toList = [] := by decide
  rw [parse?, String.toList_append, readValue_pretty h]
  simp only [Option.bind_eq_bind, Option.bind_some]
  rw [hend]
  rfl

end Json

end ModelSignatures
