import ModelSignatures.Proofs.Signature.Failures
import ModelSignatures.Proofs.Text.Lines

/-!
# Where errors are reported

The position of a syntax error is in the text, unless the error is at the end of the text
(`Signature.position_of_parse_error`). There the position is on the last line of the last token, as
many columns behind the column where the token begins as the token has bytes. That is behind the
token just if the token is on one line and all its characters are ASCII; otherwise it is too far to
the right, and out of the text unless there are enough blanks behind the token.
-/

namespace ModelSignatures

/-! ### Errors of the lexer -/

namespace Lexer

theorem before_prefix_of_scan {c : Char} {cs : List Char} {fault : Fault}
    (h : scan c cs = .error fault) :
    fault.before <+: c :: cs ∧ ∀ wanted found, fault.cause ≠ .unexpectedToken wanted found := by
  rw [scan] at h
  split at h
  next hpercent =>
    subst hpercent
    unfold scanAnnotated at h
    split at h
    next opening ds =>
      split at h
      · cases h
        exact ⟨⟨opening :: ds, rfl⟩, by simp⟩
      next closing hclosing =>
        dsimp only at h
        split at h
        · cases h
          exact ⟨List.prefix_refl _, by simp⟩
        · cases h
    · cases h
      exact ⟨List.prefix_refl _, by simp⟩
    · cases h
      exact ⟨⟨cs, rfl⟩, by simp⟩
  next =>
    split at h
    · cases h
    · split at h
      · cases h
      · split at h
        · cases h
        · cases h
          exact ⟨List.nil_prefix, by simp⟩

/-- An error of the lexer is reported behind some of the first characters. -/
theorem exists_front_of_tokensFrom_error {bound : ℕ} {before cs : List Char} {e : SyntaxError}
    (h : tokensFrom bound (.atEnd before) cs = .error e) :
    (∃ front, front <+: cs ∧ e.position = (Location.atEnd (before ++ front)).toPosition) ∧
      ∀ wanted found, e.cause ≠ .unexpectedToken wanted found := by
  -- the loop goes on behind `before`, so what it has read moves from `cs` over to `before`
  induction bound generalizing before cs with
  | zero => cases h
  | succ bound ih =>
    rw [tokensFrom] at h
    split at h
    · cases h
    next c ds hds =>
      have hcs : cs = cs.takeWhile isBlank ++ c :: ds := by
        rw [← hds, List.takeWhile_append_dropWhile]
      generalize cs.takeWhile isBlank = blanks at *
      subst hcs
      split at h
      next fault hscan =>
        cases h
        obtain ⟨⟨behind, hbehind⟩, hcause⟩ := before_prefix_of_scan hscan
        refine ⟨⟨blanks ++ fault.before, ⟨behind, by rw [List.append_assoc, hbehind]⟩, ?_⟩, hcause⟩
        rw [Location.walk_atEnd, Location.walk_atEnd, List.append_assoc]
      next scanned hscan =>
        have htaken := taken_append_rest_of_scan hscan
        rcases Except.bind_eq_error_iff.1 h with hlater | ⟨_, _, hok⟩
        · rw [Location.walk_atEnd, Location.walk_atEnd] at hlater
          obtain ⟨⟨front, ⟨behind, hbehind⟩, hposition⟩, hcause⟩ := ih hlater
          refine ⟨⟨blanks ++ (scanned.taken ++ front), ⟨behind, ?_⟩, ?_⟩, hcause⟩
          · rw [List.append_assoc, List.append_assoc, hbehind, htaken]
          · rw [hposition, List.append_assoc, List.append_assoc]
        · cases hok

end Lexer

/-! ### The last token -/

/-- Whether a token is the last one of a text, written with the characters `slice` behind `before`
and in front of the blanks `after`. -/
structure Token.IsLastOf (last : Token) (source : String) (before slice after : List Char) :
    Prop where
  read : ∃ tokens, Token.tokenize source = .ok tokens ∧ tokens.getLast? = some last
  split : source.toList = before ++ slice ++ after
  spans : last.Spans before slice after
  blank : ∀ c ∈ after, isBlank c = true

theorem Token.Tile.exists_last {before cs : List Char} {tokens : List Token}
    (h : Token.Tile before tokens cs) {last : Token} (hlast : tokens.getLast? = some last) :
    ∃ front slice after, before ++ cs = front ++ slice ++ after ∧ last.Spans front slice after ∧
      ∀ c ∈ after, isBlank c = true := by
  induction h with
  | blanks => cases hlast
  | @token before blanks slice rest t tokens blank spans tile ih =>
    cases tokens with
    | nil =>
      -- behind the last token the tiling has nothing left but blanks
      cases hlast
      cases tile with
      | blanks hrest => exact ⟨before ++ blanks, slice, rest, by simp, spans, hrest⟩
    | cons u tokens =>
      rw [List.getLast?_cons_cons] at hlast
      obtain ⟨front, slice', after, hsplit, hspans, hafter⟩ := ih hlast
      exact ⟨front, slice', after, by rw [← hsplit]; simp, hspans, hafter⟩

theorem Token.exists_isLastOf {source : String} {tokens : List Token}
    (h : Token.tokenize source = .ok tokens) (hne : tokens ≠ []) :
    ∃ (last : Token) (before slice after : List Char), last.IsLastOf source before slice after ∧
      Document.endingOf tokens =
        ⟨last.stop.line, last.start.column + (String.ofList slice).utf8ByteSize⟩ := by
  have htile : Tile [] tokens source.toList := Lexer.tile_of_tokensFrom (Nat.le_refl _) h
  obtain ⟨last, hlast⟩ : ∃ last, tokens.getLast? = some last :=
    ⟨_, List.getLast?_eq_some_getLast hne⟩
  obtain ⟨before, slice, after, hsplit, hspans, hafter⟩ := htile.exists_last hlast
  refine ⟨last, before, slice, after, ⟨⟨tokens, h, hlast⟩, hsplit, hspans, hafter⟩, ?_⟩
  rw [Document.endingOf, hlast]
  dsimp only
  rw [hspans.start, hspans.stop, Location.offset_atEnd_append, Nat.add_sub_cancel_left]

/-! ### Errors of a text -/

namespace Signature

/-- A syntax error is reported at a position of the text, unless it is reported at the end. There
the column is that behind the last token only if the token is on one line and all its characters are
ASCII, and too far to the right otherwise. -/
theorem position_of_parse_error {source : String} {e : SyntaxError}
    (h : Signature.parse source = .error e) :
    ((∀ wanted, e.cause ≠ .unexpectedToken wanted none) → e.position.IsIn source) ∧
      ∀ wanted, e.cause = .unexpectedToken wanted none →
        ∃ (last : Token) (before slice after : List Char),
          last.IsLastOf source before slice after ∧ last.stop.toPosition.IsIn source ∧
          e.position =
            ⟨last.stop.line, last.start.column + (String.ofList slice).utf8ByteSize⟩ ∧
          last.stop.column ≤ e.position.column ∧
          (e.position = last.stop.toPosition ↔ ∀ c ∈ slice, c.utf8Size = 1 ∧ c ≠ '\n') ∧
          (e.position.IsIn source ↔
            e.position.column ≤ last.stop.column + (after.takeWhile (· != '\n')).length) := by
  cases htokens : Token.tokenize source with
  | error e' =>
    obtain rfl : e' = e := by
      rw [Signature.parse, htokens] at h
      cases h
      rfl
    have hread : Lexer.tokensFrom source.length (Location.atEnd []) source.toList = .error e' :=
      htokens
    obtain ⟨⟨front, ⟨behind, hfront⟩, hposition⟩, hcause⟩ :=
      Lexer.exists_front_of_tokensFrom_error hread
    refine ⟨fun _ ↦ ?_, fun wanted hwanted ↦ absurd hwanted (hcause wanted none)⟩
    rw [hposition]
    exact Position.isIn_atEnd hfront.symm
  | ok tokens =>
    have htile : Token.Tile [] tokens source.toList :=
      Lexer.tile_of_tokensFrom (Nat.le_refl _) htokens
    rcases eq_of_failure htokens h with ⟨t, ht, hposition, hcause⟩ | ⟨wanted, hne, rfl⟩
    · obtain ⟨before, slice, after, hsplit, hspans⟩ := htile.exists_spans t ht
      refine ⟨fun _ ↦ ?_, fun wanted hwanted ↦ absurd hwanted (hcause wanted)⟩
      rw [hposition, hspans.start]
      exact Position.isIn_atEnd (hsplit.trans (List.append_assoc ..))
    · refine ⟨fun hcause ↦ absurd rfl (hcause wanted), fun _ _ ↦ ?_⟩
      obtain ⟨last, before, slice, after, hlast, hending⟩ := Token.exists_isLastOf htokens hne
      -- the column is counted on by bytes from the beginning of the last token
      obtain ⟨hcolumn, hascii⟩ := Location.column_atEnd_append_le_bytes before slice
      have hspans := hlast.spans
      refine ⟨last, before, slice, after, hlast, ?_, hending, ?_, ?_, ?_⟩
      · rw [hspans.stop]
        exact Position.isIn_atEnd hlast.split
      · rw [hending, hspans.start, hspans.stop]
        exact hcolumn
      · rw [hending, hspans.start, hspans.stop, ← hascii]
        exact ⟨fun heq ↦ congrArg Position.column heq, fun heq ↦ by rw [heq]⟩
      · rw [hending, hspans.start, hspans.stop]
        exact Position.isIn_moved_iff hlast.split rfl hcolumn

/-- Two characters of a comment at the end of a text have three bytes. -/
theorem position_of_parse_error_sample :
    ∃ (e : SyntaxError) (last : Token) (before slice after : List Char),
      Signature.parse "class A #é" = .error e ∧
      last.IsLastOf "class A #é" before slice after ∧ e.position = ⟨1, 12⟩ ∧
      last.stop.column ≤ e.position.column := by
  generalize hsource : "class A #é" = source
  have herror : (match Signature.parse source with
      | .error e => decide (e = ⟨⟨1, 12⟩, .unexpectedToken .endKeyword none⟩)
      | .ok _ => false) = true := by
    rw [← hsource]
    decide +kernel
  cases hparse : Signature.parse source with
  | ok s => rw [hparse] at herror; cases herror
  | error e =>
    rw [hparse, decide_eq_true_eq] at herror
    obtain ⟨last, before, slice, after, hlast, -, -, hcolumn, -⟩ :=
      (position_of_parse_error hparse).2 .endKeyword (by rw [herror])
    exact ⟨e, last, before, slice, after, rfl, hlast, by rw [herror], hcolumn⟩

/-- The position reported at the end of a text with a character of two bytes is not in the text. -/
theorem position_behind_text :
    ∃ e, Signature.parse "class A # é" = .error e ∧ ¬e.position.IsIn "class A # é" := by
  have herror : (match Signature.parse "class A # é" with
      | .error e => decide (e = ⟨⟨1, 13⟩, .unexpectedToken .endKeyword none⟩)
      | .ok _ => false) = true := by decide +kernel
  have hline : linesOf "class A # é" = ["class A # é".toList] := by decide +kernel
  cases hparse : Signature.parse "class A # é" with
  | ok s => rw [hparse] at herror; cases herror
  | error e =>
    rw [hparse, decide_eq_true_eq] at herror
    refine ⟨e, rfl, fun hin ↦ ?_⟩
    have hcolumn := hin.column_le
    rw [herror, hline] at hcolumn
    exact absurd (hcolumn _ rfl) (by decide)

end Signature

end ModelSignatures
