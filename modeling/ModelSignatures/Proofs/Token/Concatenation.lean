import ModelSignatures.Proofs.Token.Lossless
import ModelSignatures.Proofs.Token.Prefix

/-!
# Tokens of texts one below the other

Every step by which tokens are told goes through in the same way on another line and behind more
bytes (`Lexer.Tokenized.lowered`), and in front of a line feed it goes through as at the end of the
text (`Lexer.Tokenized.append`). So the tokens of two texts, the second on the lines below the
first, are those of the one and then those of the other (`Token.tokenize_append`).
-/

namespace ModelSignatures

/-! ### Places further down -/

/-- The same column, some lines and bytes further down. -/
def Location.lowered (lines bytes : ℕ) (place : Location) : Location :=
  { place with line := place.line + lines, offset := place.offset + bytes }

namespace Location

variable (lines bytes : ℕ) (place : Location)

@[simp] theorem line_lowered : (place.lowered lines bytes).line = place.line + lines := rfl

@[simp] theorem offset_lowered : (place.lowered lines bytes).offset = place.offset + bytes := rfl

theorem step_lowered (c : Char) :
    (place.lowered lines bytes).step c = (place.step c).lowered lines bytes := by
  unfold step
  split
  · simp [lowered, Nat.add_right_comm]
  · simp [lowered, Nat.add_right_comm]

theorem walk_lowered (cs : List Char) :
    (place.lowered lines bytes).walk cs = (place.walk cs).lowered lines bytes := by
  induction cs generalizing place with
  | nil => rfl
  | cons c cs ih => rw [walk_cons, walk_cons, step_lowered, ih]

end Location

/-- Whether a place does not stand behind another. -/
structure Location.UpTo (p q : Location) : Prop where
  line_le : p.line ≤ q.line
  offset_le : p.offset ≤ q.offset

theorem Location.UpTo.walk (place : Location) (cs : List Char) : place.UpTo (place.walk cs) := by
  refine ⟨place.line_le_walk cs, ?_⟩
  cases cs with
  | nil => exact Nat.le_refl _
  | cons c cs => exact Nat.le_of_lt (Location.offset_lt_walk (List.cons_ne_nil c cs))

/-- The same token, some lines and bytes further down. -/
def Token.lowered (lines bytes : ℕ) (t : Token) : Token where
  kind := t.kind
  start := t.start.lowered lines bytes
  stop := t.stop.lowered lines bytes

/-! ### Lines below -/

/-- What is not taken into a token at the end of a text is not taken into it from a line below. -/
theorem TokenKind.EndsBefore.append_newline {kind : TokenKind} {cs : List Char}
    (h : kind.EndsBefore cs) (ds : List Char) : kind.EndsBefore (cs ++ '\n' :: ds) := by
  cases cs with
  | nil =>
    cases kind with
    | symbol s =>
      cases s with
      | colon | star => simp [EndsBefore]
      | _ => trivial
    | word text | comment text =>
      rintro _ ⟨⟩
      decide
    | annot text => trivial
  | cons c cs => exact h.congr rfl

namespace Lexer

namespace Tokenized

variable {place : Location} {cs : List Char} {tokens : List Token}

/-- Further down the same tokens are read. -/
theorem lowered (h : Tokenized place cs tokens) (lines bytes : ℕ) :
    Tokenized (place.lowered lines bytes) cs (tokens.map (Token.lowered lines bytes)) := by
  induction h with
  | blanks blank => exact .blanks blank
  | @token place blanks cs c s tokens blank first scanned behind ih =>
    rw [← Location.walk_lowered, ← Location.walk_lowered] at ih
    rw [List.map_cons, Token.lowered]
    dsimp only
    rw [← Location.walk_lowered lines bytes (place.walk blanks), ← Location.walk_lowered]
    exact .token blank first scanned ih

/-- Behind a text and a line feed the tokens of the text below follow its own. -/
theorem append (h : Tokenized place cs tokens) {ds : List Char} {below : List Token}
    (hbelow : Tokenized (place.walk (cs ++ ['\n'])) ds below) :
    Tokenized place (cs ++ '\n' :: ds) (tokens ++ below) := by
  induction h with
  | @blanks place cs blank =>
    -- the line feed is one more blank in front of the first token below
    have hblank : ∀ c ∈ cs ++ ['\n'], isBlank c = true := by
      rw [List.forall_mem_append]
      exact ⟨blank, List.forall_mem_singleton.2 rfl⟩
    rw [← List.singleton_append, ← List.append_assoc, List.nil_append]
    exact (tokenized_append_iff hblank).2 hbelow
  | @token place blanks cs c s tokens blank first scanned behind ih =>
    -- the token ends in front of a line feed, if it ends at the end of the text
    obtain ⟨hends, more, htaken, hagain⟩ := scan_again scanned
    have hcs : c :: cs = s.taken ++ s.rest := (taken_append_rest_of_scan scanned).symm
    have hscan : scan c (cs ++ '\n' :: ds) = .ok ⟨s.kind, s.taken, s.rest ++ '\n' :: ds⟩ := by
      have hmore : cs = more ++ s.rest := by
        rw [htaken] at hcs
        exact (List.cons.inj hcs).2
      rw [hmore, List.append_assoc]
      exact hagain _ (hends.append_newline ds)
    rw [hcs, List.append_assoc, List.append_assoc, Location.walk_append, Location.walk_append]
      at hbelow
    rw [List.append_assoc, List.cons_append, List.cons_append]
    have hall := Tokenized.token blank first hscan (ih hbelow)
    exact hall

/-- Every token stands between the two ends of the text. -/
theorem upTo (h : Tokenized place cs tokens) :
    ∀ t ∈ tokens, place.UpTo t.start ∧ t.stop.UpTo (place.walk cs) := by
  intro t ht
  obtain ⟨before, slice, after, rfl, hstart, hstop⟩ := h.exists_places t ht
  rw [hstart, hstop, Location.walk_append place _ after]
  exact ⟨.walk place before, .walk _ after⟩

end Tokenized

end Lexer

/-! ### Two texts -/

namespace Token

/-- Whether a token ends on a line above that on which another begins. -/
structure IsAbove (t u : Token) : Prop where
  line_lt : t.stop.line < u.start.line
  offset_lt : t.stop.offset < u.start.offset

/-- The tokens of two texts one below the other are those of the first and, further down, those of
the second. -/
theorem tokenize_append {above below : String} {ts us : List Token}
    (h : tokenize above = .ok ts) (h' : tokenize below = .ok us) :
    ∃ lines bytes, tokenize (above ++ "\n" ++ below) = .ok (ts ++ us.map (lowered lines bytes)) ∧
      ∀ t ∈ ts, ∀ u ∈ us.map (lowered lines bytes), t.IsAbove u := by
  have hfirst := tokenize_eq_ok_iff.1 h
  have hsecond := tokenize_eq_ok_iff.1 h'
  generalize hend : Location.origin.walk above.toList = last at *
  -- behind the line feed the places are those of a text of its own, but further down
  have hplace : Location.origin.walk (above.toList ++ ['\n']) =
      Location.origin.lowered last.line (last.offset + 1) := by
    rw [Location.walk_append, hend, Location.walk_cons, Location.walk_nil, Location.step,
      if_pos rfl, Location.lowered, show Location.origin.line = 1 from rfl,
      show Location.origin.offset = 0 from rfl, Nat.add_comm 1, Nat.zero_add]
    rfl
  have hlowered := hsecond.lowered last.line (last.offset + 1)
  have hall := hfirst.append (hplace ▸ hlowered)
  refine ⟨last.line, last.offset + 1, ?_, fun t ht u hu ↦ ?_⟩
  · rw [tokenize_eq_ok_iff, String.toList_append, String.toList_append, List.append_assoc]
    exact hall
  · obtain ⟨hline, hoffset⟩ := (hfirst.upTo t ht).2
    obtain ⟨hline', hoffset'⟩ := (hlowered.upTo u hu).1
    rw [hend] at hline hoffset
    rw [Location.line_lowered, show Location.origin.line = 1 from rfl] at hline'
    rw [Location.offset_lowered] at hoffset'
    exact ⟨by omega, by omega⟩

end Token

end ModelSignatures
