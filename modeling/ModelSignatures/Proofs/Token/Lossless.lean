import ModelSignatures.Proofs.Token.Lexed

/-!
# No character is lost

The tokens of a text tile it: blanks, a token, blanks, a token, and blanks at the end
(`Token.Tile`). Every place that a token carries is the one counted in all the text before it at
once, so the running counts of the lexer never drift, whatever the characters measure; and what a
token is can be told from the characters between its two places (`Token.spans_of_tokenize`).
-/

namespace ModelSignatures

/-! ### Places counted at once -/

namespace Location

/-- The place behind some characters, counted in all of them at once. -/
def atEnd (cs : List Char) : Location where
  line := 1 + cs.count '\n'
  column := 1 + (cs.reverse.takeWhile (· != '\n')).length
  offset := (String.ofList cs).utf8ByteSize

theorem step_atEnd (cs : List Char) (c : Char) : (atEnd cs).step c = atEnd (cs ++ [c]) := by
  have hoffset : (String.ofList (cs ++ [c])).utf8ByteSize =
      (String.ofList cs).utf8ByteSize + c.utf8Size := by
    rw [String.ofList_append, String.utf8ByteSize_append, ← String.singleton_eq_ofList,
      String.utf8ByteSize_singleton]
  unfold step
  split
  next hc =>
    rw [atEnd, atEnd, hoffset]
    simp [hc, Nat.add_assoc]
  next hc =>
    rw [atEnd, atEnd, hoffset]
    simp [hc, Nat.add_assoc]

/-- Walking on from a place counts what is walked over to it. -/
theorem walk_atEnd (before cs : List Char) : (atEnd before).walk cs = atEnd (before ++ cs) := by
  induction cs generalizing before with
  | nil => rw [walk_nil, List.append_nil]
  | cons c cs ih => rw [walk_cons, step_atEnd, ih, List.append_assoc, List.singleton_append]

theorem offset_atEnd_append (cs ds : List Char) :
    (atEnd (cs ++ ds)).offset = (atEnd cs).offset + (String.ofList ds).utf8ByteSize := by
  rw [atEnd, atEnd, String.ofList_append, String.utf8ByteSize_append]

theorem offset_atEnd_lt {cs ds : List Char} (h : ds ≠ []) :
    (atEnd cs).offset < (atEnd (cs ++ ds)).offset := by
  rw [← walk_atEnd]
  exact offset_lt_walk h

end Location

/-! ### Kinds told from characters -/

/-- Whether a token of the kind is written with the given characters. -/
inductive TokenKind.WrittenAs : TokenKind → List Char → Prop
  | word {text : List Char} (nonempty : text ≠ []) (isWord : ∀ c ∈ text, isWordChar c = true) :
      WrittenAs (.word (String.ofList text)) text
  | symbol (s : Symbol) : WrittenAs (.symbol s) s.spelling
  | annot {pair : Char × Char} {text : List Char} (delimited : pair ∈ annotationDelimiters)
      (inside : pair.2 ∉ text) :
      WrittenAs (.annot (String.ofList text)) ('%' :: 'a' :: pair.1 :: text ++ [pair.2])
  | comment {line : List Char} (inside : '\n' ∉ line) :
      WrittenAs (.comment (String.ofList (trimEnd line))) ('#' :: line)

namespace Lexer

theorem writtenAs_of_scan {c : Char} {cs : List Char} {s : Scanned} (h : scan c cs = .ok s) :
    s.kind.WrittenAs s.taken := by
  cases scan_eq_ok_iff.1 h with
  | word begins goesOn =>
    exact .word (List.cons_ne_nil _ _) (List.forall_mem_cons.2 ⟨begins, goesOn⟩)
  | symbol spelled =>
    rw [← spelled]
    exact .symbol _
  | annot delimited inside => exact .annot delimited inside
  | comment inside => exact .comment inside

/-- The characters that a token is written with are read as the token where they stand alone. -/
theorem exists_scan_of_writtenAs {kind : TokenKind} {slice : List Char}
    (h : kind.WrittenAs slice) :
    ∃ c cs, slice = c :: cs ∧ scan c cs = .ok ⟨kind, slice, []⟩ := by
  cases h with
  | @word text nonempty isWord =>
    obtain ⟨c, cs, rfl⟩ := List.exists_cons_of_ne_nil nonempty
    obtain ⟨begins, goesOn⟩ := List.forall_mem_cons.1 isWord
    have hscans : Scans c (cs ++ []) _ := .word begins goesOn (by simp)
    rw [List.append_nil] at hscans
    exact ⟨c, cs, rfl, scan_eq_ok_iff.2 hscans⟩
  | symbol s =>
    obtain ⟨c, more, hspelling⟩ : ∃ c more, s.spelling = c :: more := by
      cases s <;> exact ⟨_, _, rfl⟩
    -- With nothing behind it, no symbol can be taken for the beginning of a longer one.
    have hends : (TokenKind.symbol s).EndsBefore [] := by
      cases s <;> simp [TokenKind.EndsBefore]
    have hscans : Scans c (more ++ []) _ := .symbol hspelling hends
    rw [List.append_nil] at hscans
    rw [hspelling]
    exact ⟨c, more, rfl, scan_eq_ok_iff.2 hscans⟩
  | annot delimited inside => exact ⟨'%', _, rfl, scan_eq_ok_iff.2 (.annot delimited inside)⟩
  | @comment line inside =>
    have hscans : Scans '#' (line ++ []) _ := .comment inside (by simp)
    rw [List.append_nil] at hscans
    exact ⟨'#', line, rfl, scan_eq_ok_iff.2 hscans⟩

end Lexer

/-- The characters of a token tell its kind. -/
theorem TokenKind.WrittenAs.unique {kind kind' : TokenKind} {slice : List Char}
    (h : kind.WrittenAs slice) (h' : kind'.WrittenAs slice) : kind = kind' := by
  obtain ⟨c, cs, rfl, hscan⟩ := Lexer.exists_scan_of_writtenAs h
  obtain ⟨c', cs', hcons, hscan'⟩ := Lexer.exists_scan_of_writtenAs h'
  cases hcons
  rw [hscan] at hscan'
  cases hscan'
  rfl

/-! ### Tokens in their text -/

namespace Token

/-- Whether the token is the one written with the characters `slice`, behind `before` and in front
of `after`. -/
structure Spans (t : Token) (before slice after : List Char) : Prop where
  start : t.start = .atEnd before
  stop : t.stop = .atEnd (before ++ slice)
  nonempty : slice ≠ []
  written : t.kind.WrittenAs slice
  /-- A comment goes to the end of its line. -/
  ends : t.kind.isComment = true → ∀ c ∈ after.head?, c = '\n'

/-- The characters `cs` behind `before` are the tokens, with blanks between them and at both
ends. -/
inductive Tile : (before : List Char) → (tokens : List Token) → (cs : List Char) → Prop
  | blanks {before cs : List Char} (blank : ∀ c ∈ cs, isBlank c = true) : Tile before [] cs
  | token {before blanks slice rest : List Char} {t : Token} {tokens : List Token}
      (blank : ∀ c ∈ blanks, isBlank c = true) (spans : t.Spans (before ++ blanks) slice rest)
      (tile : Tile (before ++ blanks ++ slice) tokens rest) :
      Tile before (t :: tokens) (blanks ++ slice ++ rest)

end Token

theorem Lexer.Tokenized.tile {before cs : List Char} {tokens : List Token}
    (h : Tokenized (.atEnd before) cs tokens) : Token.Tile before tokens cs := by
  generalize hplace : Location.atEnd before = place at h
  induction h generalizing before with
  | blanks blank => exact .blanks blank
  | @token place blanks cs c s tokens blank first scanned behind ih =>
    subst hplace
    -- The place that the lexer goes on from is the one behind all that was taken so far.
    have htile : Token.Tile (before ++ blanks ++ s.taken) tokens s.rest :=
      ih (by rw [Location.walk_atEnd, Location.walk_atEnd])
    rw [Location.walk_atEnd, Location.walk_atEnd, ← taken_append_rest_of_scan scanned,
      ← List.append_assoc]
    exact .token blank ⟨rfl, rfl, taken_ne_nil_of_scan scanned, writtenAs_of_scan scanned,
      fun hkind ↦ (comment_of_scan scanned hkind).2⟩ htile

theorem Lexer.tile_of_tokensFrom {bound : Nat} {before cs : List Char} {tokens : List Token}
    (hbound : cs.length ≤ bound) (h : tokensFrom bound (.atEnd before) cs = .ok tokens) :
    Token.Tile before tokens cs :=
  (tokenized_of_tokensFrom hbound h).tile

/-- A character of two texts one behind the other is one of the first or of the second. -/
theorem exists_of_append_eq_append_cons {xs ys front after : List Char} {c : Char}
    (h : xs ++ ys = front ++ c :: after) :
    (∃ behind, xs = front ++ c :: behind) ∨ ∃ inner, front = xs ++ inner ∧
      ys = inner ++ c :: after := by
  rcases List.append_eq_append_iff.1 h with ⟨inner, rfl, hys⟩ | ⟨behind, rfl, hbehind⟩
  · exact Or.inr ⟨inner, rfl, hys⟩
  · cases behind with
    | nil => exact Or.inr ⟨[], by simp, by simpa using hbehind.symm⟩
    | cons d behind =>
      rw [List.cons_append, List.cons.injEq] at hbehind
      exact Or.inl ⟨behind, by rw [hbehind.1]⟩

namespace Token

/-- A token ends behind where it begins. -/
theorem Spans.offset_lt {t : Token} {before slice after : List Char}
    (h : t.Spans before slice after) : t.start.offset < t.stop.offset := by
  rw [h.start, h.stop]
  exact Location.offset_atEnd_lt h.nonempty

namespace Tile

variable {before cs : List Char} {tokens : List Token}

/-- No token begins before the characters that are tiled. -/
theorem offset_le (h : Tile before tokens cs) :
    ∀ t ∈ tokens, (Location.atEnd before).offset ≤ t.start.offset := by
  induction h with
  | blanks => simp
  | token _ spans _ ih =>
    have hstart := congrArg Location.offset spans.start
    have hstop := Location.offset_atEnd_append
    refine List.forall_mem_cons.2 ⟨?_, fun u hu ↦ ?_⟩
    · rw [hstart, hstop]
      exact Nat.le_add_right _ _
    · have hbehind := ih u hu
      rw [hstop, hstop, Nat.add_assoc] at hbehind
      exact Nat.le_trans (Nat.le_add_right _ _) hbehind

/-- Each token ends before the next begins. -/
theorem pairwise_offset_le (h : Tile before tokens cs) :
    tokens.Pairwise fun t u ↦ t.stop.offset ≤ u.start.offset := by
  induction h with
  | blanks => exact .nil
  | token _ spans tile ih =>
    refine List.pairwise_cons.2 ⟨fun u hu ↦ ?_, ih⟩
    rw [spans.stop]
    exact tile.offset_le u hu

/-- Each token is written somewhere in the characters. -/
theorem exists_spans (h : Tile before tokens cs) :
    ∀ t ∈ tokens, ∃ front slice after, before ++ cs = front ++ slice ++ after ∧
      t.Spans front slice after := by
  induction h with
  | blanks => simp
  | token _ spans _ ih =>
    refine List.forall_mem_cons.2 ⟨⟨_, _, _, by simp, spans⟩, fun u hu ↦ ?_⟩
    obtain ⟨front, slice, after, hfront, hspans⟩ := ih u hu
    exact ⟨front, slice, after, by simpa using hfront, hspans⟩

/-- A character that is not blank lies in a token. -/
theorem isBlank_or_exists (h : Tile before tokens cs) {front after : List Char} {c : Char}
    (hcs : cs = front ++ c :: after) :
    isBlank c = true ∨ ∃ t ∈ tokens,
      t.start.offset ≤ (Location.atEnd (before ++ front)).offset ∧
        (Location.atEnd (before ++ front)).offset < t.stop.offset := by
  induction h generalizing front with
  | blanks blank => exact Or.inl (blank c (by simp [hcs]))
  | @token before blanks slice rest t tokens blank spans tile ih =>
    -- The character is one of the blanks, of the token or of what comes behind it.
    rw [List.append_assoc] at hcs
    rcases exists_of_append_eq_append_cons hcs with ⟨behind, rfl⟩ | ⟨front, rfl, hinner⟩
    · exact Or.inl (blank c (by simp))
    · rcases exists_of_append_eq_append_cons hinner with ⟨behind, rfl⟩ | ⟨front, rfl, hrest⟩
      · refine Or.inr ⟨t, List.mem_cons_self, ?_, ?_⟩
        · rw [spans.start, ← List.append_assoc, Location.offset_atEnd_append (before ++ blanks)]
          exact Nat.le_add_right _ _
        · rw [spans.stop, ← List.append_assoc, ← List.append_assoc]
          exact Location.offset_atEnd_lt (List.cons_ne_nil _ _)
      · rw [← List.append_assoc, ← List.append_assoc]
        exact (ih hrest).imp_right fun ⟨u, hu, hspan⟩ ↦ ⟨u, List.mem_cons_of_mem _ hu, hspan⟩

end Tile

/-- The tokens that are read from a text lie in it one behind the other, and all that is outside of
them is blank. Each is written with the characters between its places, from which its kind can be
told, and its places are those counted in the text before them. -/
theorem spans_of_tokenize {source : String} {tokens : List Token}
    (h : Token.tokenize source = .ok tokens) :
    (∀ t ∈ tokens, t.start.offset < t.stop.offset) ∧
      (tokens.Pairwise fun t u ↦ t.stop.offset ≤ u.start.offset) ∧
      (∀ t ∈ tokens, ∃ before slice after, source.toList = before ++ slice ++ after ∧
        t.Spans before slice after ∧ ∀ kind : TokenKind, kind.WrittenAs slice → kind = t.kind) ∧
      ∀ before c after, source.toList = before ++ c :: after → isBlank c = true ∨
        ∃ t ∈ tokens, t.start.offset ≤ (Location.atEnd before).offset ∧
          (Location.atEnd before).offset < t.stop.offset := by
  have htile : Tile [] tokens source.toList := Lexer.tile_of_tokensFrom (Nat.le_refl _) h
  refine ⟨fun t ht ↦ ?_, htile.pairwise_offset_le, fun t ht ↦ ?_, fun before c after hsource ↦
    htile.isBlank_or_exists hsource⟩
  · obtain ⟨_, _, _, -, hspans⟩ := htile.exists_spans t ht
    exact hspans.offset_lt
  · obtain ⟨before, slice, after, hsource, hspans⟩ := htile.exists_spans t ht
    exact ⟨before, slice, after, hsource, hspans, fun kind hkind ↦ hkind.unique hspans.written⟩

/-- A word behind a blank of two bytes, an annotation that goes over a line break and a comment with
blanks at its end. -/
theorem spans_of_tokenize_sample :
    let tokens : List Token :=
      [⟨.word "end", ⟨⟨1, 2⟩, 2⟩, ⟨⟨1, 5⟩, 5⟩⟩, ⟨.annot "é\n", ⟨⟨1, 5⟩, 5⟩, ⟨⟨2, 2⟩, 12⟩⟩,
        ⟨.comment "ü", ⟨⟨2, 3⟩, 13⟩, ⟨⟨2, 6⟩, 17⟩⟩]
    Token.tokenize "\u00A0end%a(é\n) #ü \n" = .ok tokens ∧
      (∀ t ∈ tokens, t.start.offset < t.stop.offset) ∧
      (tokens.Pairwise fun t u ↦ t.stop.offset ≤ u.start.offset) ∧
      (∀ t ∈ tokens, ∃ before slice after,
        "\u00A0end%a(é\n) #ü \n".toList = before ++ slice ++ after ∧
          t.Spans before slice after ∧ ∀ kind : TokenKind, kind.WrittenAs slice → kind = t.kind) ∧
      ∀ before c after, "\u00A0end%a(é\n) #ü \n".toList = before ++ c :: after →
        isBlank c = true ∨ ∃ t ∈ tokens, t.start.offset ≤ (Location.atEnd before).offset ∧
          (Location.atEnd before).offset < t.stop.offset := by
  intro tokens
  have htokens : Token.tokenize "\u00A0end%a(é\n) #ü \n" = .ok tokens := by decide +kernel
  exact ⟨htokens, spans_of_tokenize htokens⟩

end Token

end ModelSignatures
