import ModelSignatures.Proofs.Lexeme.Glance
import ModelSignatures.Proofs.Token.Concatenation

/-!
# Lexemes of texts one below the other

Tokens that stand below others are gathered as if nothing stood above them, but for two things that
are found at the first lexeme: the comments left over above are put in front of its own, and an
empty line may lie above it (`Document.exists_views_append`). That the tokens stand further down
than in a text of their own cannot be seen (`Token.glances_lowered`).
-/

namespace ModelSignatures

/-! ### Glances further down -/

namespace Token

variable (lines bytes : ℕ)

theorem isAdjacentTo_lowered (t u : Token) :
    (t.lowered lines bytes).isAdjacentTo (u.lowered lines bytes) = t.isAdjacentTo u := by
  rw [Bool.eq_iff_iff, isAdjacentTo, isAdjacentTo, beq_iff_eq, beq_iff_eq]
  exact Nat.add_right_cancel_iff

theorem endsLineOf_lowered (t : Token) (place : Location) :
    Lexeme.endsLineOf (some (t.lowered lines bytes)) (place.lowered lines bytes) =
      Lexeme.endsLineOf (some t) place := by
  rw [Bool.eq_iff_iff, Lexeme.endsLineOf, Lexeme.endsLineOf, Option.any_some, Option.any_some,
    beq_iff_eq, beq_iff_eq]
  exact Nat.add_right_cancel_iff

theorem isCommented_lowered (t : Token) (next : List Token) :
    (t.lowered lines bytes).isCommented (next.map (lowered lines bytes)) = t.isCommented next := by
  cases next with
  | nil => rfl
  | cons u next => exact congrArg (u.kind.isComment && ·) (endsLineOf_lowered lines bytes t u.start)

theorem belowLine_lowered (t : Token) (next : List Token) :
    (t.lowered lines bytes).belowLine (next.map (lowered lines bytes)) =
      (t.belowLine next).map (lowered lines bytes) := by
  rw [belowLine, belowLine, isCommented_lowered]
  split
  · rw [List.map_tail]
  · rfl

theorem glance_lowered (t : Token) (next : List Token) :
    (t.lowered lines bytes).glance (next.map (lowered lines bytes)) = t.glance next := by
  have hline : ∀ u : Token,
      decide ((t.lowered lines bytes).stop.line + 1 < (u.lowered lines bytes).start.line) =
        decide (t.stop.line + 1 < u.start.line) := by
    intro u
    rw [decide_eq_decide]
    show t.stop.line + lines + 1 < u.start.line + lines ↔ t.stop.line + 1 < u.start.line
    omega
  rw [glance, glance, isCommented_lowered, belowLine_lowered, List.any_map, List.head?_map,
    List.head?_map, Option.any_map, Option.any_map]
  simp only [Function.comp_def, isAdjacentTo_lowered, hline]
  rfl

/-- How far down tokens stand cannot be seen. -/
theorem glances_lowered (tokens : List Token) :
    glances (tokens.map (lowered lines bytes)) = glances tokens := by
  induction tokens with
  | nil => rfl
  | cons t tokens ih => rw [List.map_cons, glances, glances, glance_lowered, ih]

end Token

/-! ### Views below others -/

namespace View

/-- The views with comments put in front of those of the first, and with an empty line above it if
`spaced`. -/
def under (comments : List String) (spaced : Bool) : List View → List View
  | [] => []
  | v :: vs => { v with leading := comments ++ v.leading, spaced } :: vs

theorem map_kind_under (comments : List String) (spaced : Bool) (vs : List View) :
    (under comments spaced vs).map (·.kind) = vs.map (·.kind) := by
  cases vs <;> rfl

theorem under_append {vs : List View} (hvs : vs ≠ []) (comments : List String) (spaced : Bool)
    (ws : List View) : under comments spaced (vs ++ ws) = under comments spaced vs ++ ws := by
  cases vs with
  | nil => exact absurd rfl hvs
  | cons v vs => rfl

theorem IsLine.under {vs : List View} {comments : List String} {spaced : Bool}
    {lineComment : Option String} (h : IsLine vs comments spaced lineComment)
    (more : List String) (spaced' : Bool) :
    IsLine (View.under more spaced' vs) (more ++ comments) spaced' lineComment := by
  obtain ⟨hchain, ⟨v, hv, rfl, -⟩, ⟨w, hw, hlast⟩⟩ := h
  obtain ⟨vs, rfl⟩ := List.head?_eq_some_iff.1 hv
  refine ⟨List.isChain_cons.2 (List.isChain_cons.1 hchain), ⟨_, rfl, rfl, rfl⟩, ?_⟩
  cases vs with
  | nil =>
    cases hw
    exact ⟨_, rfl, hlast⟩
  | cons u vs => exact ⟨w, hw, hlast⟩

end View

/-- Behind a token that is far above, the glances tell the same views as at the beginning, under the
comments left over. -/
theorem Glance.views_under {g : Option Glance} (htouches : g.any (·.touches) = false)
    (hcommented : g.any (·.commented) = false) (comments pending : List String)
    (glances : List Glance) :
    views g (comments ++ pending) glances =
      (View.under comments (g.any (·.spaced)) (views none pending glances).1,
        if (views none pending glances).1 = [] then comments ++ (views none pending glances).2
        else (views none pending glances).2) := by
  induction glances generalizing g pending with
  | nil => rfl
  | cons h glances ih =>
    cases hkind : h.kind.isComment with
    | false =>
      rw [views_cons hkind, views_cons hkind, htouches]
      rfl
    | true =>
      -- no comment of theirs ends a line above, so it waits behind those left over
      obtain ⟨text, htext⟩ := TokenKind.exists_eq_comment hkind
      have hpassed : (g.map passed).any (·.touches) = false ∧
          (g.map passed).any (·.commented) = false ∧
            (g.map passed).any (·.spaced) = g.any (·.spaced) := by
        cases g <;> exact ⟨rfl, rfl, rfl⟩
      obtain ⟨htouches', hcommented', hspaced⟩ := hpassed
      rw [views_comment htext, views_comment htext, hcommented, if_neg (by simp),
        List.append_assoc, ih htouches' hcommented', hspaced]
      rfl

namespace Lexeme

/-- A token above others has no comment of theirs at the end of its line. -/
theorem trailingComment_append_of_isAbove {t : Token} {us : List Token}
    (habove : ∀ u ∈ us, t.IsAbove u) (ts : List Token) :
    trailingComment t (ts ++ us) = trailingComment t ts := by
  cases ts with
  | cons u ts =>
    obtain ⟨kind, start, stop⟩ := u
    cases kind <;> rfl
  | nil =>
    cases us with
    | nil => rfl
    | cons u us =>
      cases hkind : u.kind.isComment with
      | false => exact trailingComment_of_code hkind t us
      | true =>
        obtain ⟨text, htext⟩ := TokenKind.exists_eq_comment hkind
        rw [List.nil_append, trailingComment_of_comment htext,
          endsLineOf_of_line_lt (habove u List.mem_cons_self).line_lt]
        rfl

/-- Tokens below others are gathered behind one of those, with the comments left over. -/
theorem exists_gather_append {ts us : List Token} (habove : ∀ t ∈ ts, ∀ u ∈ us, t.IsAbove u)
    (before : Option Token) (pending : List Comment) :
    ∃ last : Option Token, (∀ b ∈ last, b ∈ ts ∨ b ∈ before) ∧
      gather before pending (ts ++ us) =
        ((gather before pending ts).1 ++ (gather last (gather before pending ts).2 us).1,
          (gather last (gather before pending ts).2 us).2) := by
  induction ts generalizing before pending with
  | nil => exact ⟨before, fun b hb ↦ Or.inr hb, rfl⟩
  | cons t ts ih =>
    obtain ⟨ht, hts⟩ := List.forall_mem_cons.1 habove
    cases hkind : t.kind.isComment with
    | false =>
      obtain ⟨last, hlast, hgather⟩ := ih hts (some t) []
      refine ⟨last, fun b hb ↦ Or.inl ?_, ?_⟩
      · rcases hlast b hb with hmem | ⟨⟨⟩⟩
        · exact List.mem_cons_of_mem t hmem
        · exact List.mem_cons_self
      · rw [List.cons_append, gather_cons hkind, gather_cons hkind, hgather,
          trailingComment_append_of_isAbove ht]
        rfl
    | true =>
      obtain ⟨text, htext⟩ := TokenKind.exists_eq_comment hkind
      obtain ⟨last, hlast, hgather⟩ := ih hts before (if endsLineOf before t.start then pending
        else pending ++ [⟨text, t.start.toPosition⟩])
      refine ⟨last, fun b hb ↦ (hlast b hb).imp_left (List.mem_cons_of_mem t), ?_⟩
      rw [List.cons_append, gather_comment htext, gather_comment htext, hgather]

/-- A token far above is seen to touch nothing. -/
theorem exists_seenAs_of_above {last : Option Token} {us : List Token}
    (habove : ∀ b ∈ last, ∀ u ∈ us, b.IsAbove u) (pending : List Comment) :
    ∃ g : Option Glance, SeenAs last pending us g ∧ g.any (·.touches) = false ∧
      g.any (·.commented) = false := by
  have hends : ∀ b ∈ last, ∀ u ∈ us, endsLineOf (some b) u.start = false :=
    fun b hb u hu ↦ endsLineOf_of_line_lt (habove b hb u hu).line_lt
  refine ⟨last.map fun b ↦ ⟨b.kind, false, false,
    (lineBelow b pending us).any fun line ↦ b.stop.line + 1 < line⟩, ⟨?_, ?_, ?_, ?_⟩, ?_, ?_⟩
  · cases last with
    | none => rfl
    | some b => exact (Token.isCommented_of_forall (hends b rfl)).symm
  · intro b hb _ u hu _
    have hoffset := (habove b hb u (List.mem_of_mem_head? hu)).offset_lt
    rw [Option.mem_def.1 hb, Option.map_some, Option.any_some, eq_comm]
    exact Token.isAdjacentTo_of_offset_lt hoffset
  · intro _
    cases last <;> rfl
  · intro b hb u hu
    obtain ⟨hline, hoffset⟩ := habove b hb u hu
    exact ⟨Nat.le_of_lt hline, Nat.le_of_lt hoffset⟩
  · cases last <;> rfl
  · cases last <;> rfl

end Lexeme

/-- The views of two texts one below the other are those of the first and, under the comments left
over there, what the glances at the second tell. -/
theorem Document.exists_views_append {above below : String} {ts us : List Token}
    (h : Token.tokenize above = .ok ts) (h' : Token.tokenize below = .ok us) :
    ∃ tokens vs b spaced, Token.tokenize (above ++ "\n" ++ below) = .ok tokens ∧
      (ofTokens tokens).lexemes.map Lexeme.view =
        (ofTokens ts).lexemes.map Lexeme.view ++ vs ∧
      View.Agree b vs (View.under ((ofTokens ts).closing.map (·.text)) spaced
        (Glance.views none [] (Token.glances us)).1) ∧
      (ofTokens tokens).closing.map (·.text) =
        if (Glance.views none [] (Token.glances us)).1 = [] then
          (ofTokens ts).closing.map (·.text) ++ (Glance.views none [] (Token.glances us)).2
        else (Glance.views none [] (Token.glances us)).2 := by
  obtain ⟨lines, bytes, htokens, habove⟩ := Token.tokenize_append h h'
  obtain ⟨last, hlast, hgather⟩ := Lexeme.exists_gather_append habove none []
  have hlastAbove : ∀ b ∈ last, ∀ u ∈ us.map (Token.lowered lines bytes), b.IsAbove u := by
    intro b hb
    rcases hlast b hb with hmem | hnone
    · exact habove b hmem
    · cases hnone
  -- the loop goes on below with the last token above and the comments left over there
  obtain ⟨g, hseen, htouches, hcommented⟩ :=
    Lexeme.exists_seenAs_of_above hlastAbove (Lexeme.gather none [] ts).2
  obtain ⟨hviews, hclosing⟩ := hseen.agree (Token.ordered_of_tokenize htokens).of_append
  have hunder := Glance.views_under htouches hcommented
    ((Lexeme.gather none [] ts).2.map (·.text)) [] (Token.glances us)
  rw [List.append_nil] at hunder
  rw [Token.glances_lowered, hunder] at hviews hclosing
  refine ⟨_, _, _, g.any (·.spaced), htokens, ?_, hviews, ?_⟩
  · show (Lexeme.gather none [] _).1.map Lexeme.view = _
    rw [hgather, List.map_append]
    rfl
  · show (Lexeme.gather none [] _).2.map (·.text) = _
    rw [hgather, hclosing]
    rfl

end ModelSignatures
