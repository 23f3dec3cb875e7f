import ModelSignatures.Proofs.Signature.Stretches

/-!
# The tokens of views

The tokens of a text fall into groups, one for each lexeme: a token that is no comment with the
comments above it and the one at the end of its line. `Token.Gathered` goes from the tokens to the
views of the lexemes without leaving out any token, so that what spells a part of a signature can be
traced back to a stretch of the text (`Token.Gathered.exists_append`, `Token.Gathered.exists_line`).
-/

namespace ModelSignatures

namespace Token

/-! ### Lines of comments -/

/-- Whether a token is a comment that has its line in the source for itself: no other token ends on
it. -/
def IsCommentLine (source : List Token) (c : Token) : Prop :=
  c.kind.isComment = true ∧ ∀ u ∈ source, u.stop.line = c.start.line → u = c

/-- Whether some tokens are comments at the end of the last line of others. -/
def EndLineOf (behind code : List Token) : Prop :=
  ∀ c ∈ behind, c.kind.isComment = true ∧ ∃ last ∈ code.getLast?, c.start.line = last.stop.line

/-- Whether the first of some tokens begins more than one line below the end of another token. -/
def endsApart (b : Token) (below : List Token) : Bool :=
  below.head?.any fun first ↦ b.stop.line + 1 < first.start.line

/-- Only the first of some tokens matters to what is above it. -/
theorem endsApart_append {ts : List Token} (h : ts ≠ []) (rest : List Token) (b : Token) :
    b.endsApart (ts ++ rest) = b.endsApart ts := by
  rw [endsApart, List.head?_append_of_ne_nil _ h, endsApart]

open Lexeme (gather gather_cons gather_comment trailingComment trailingComment_of_comment
  endsLineOf)

/-- A comment below comments has a line for itself, unless it ends the line of the token before. -/
theorem isCommentLine_of_endsLineOf {source seen above rest : List Token} {c : Token}
    (hplaced : ∀ t ∈ source, t.WellPlaced) (hpairs : source.Pairwise Precedes)
    (hsource : source = seen ++ (above ++ c :: rest)) (hc : c.kind.isComment = true)
    (habove : ∀ t ∈ above, t.kind.isComment = true)
    (hends : endsLineOf (lastCode seen) c.start = false) : IsCommentLine source c := by
  subst hsource
  obtain ⟨hseen, hbehind, hbefore⟩ := List.pairwise_append.1 hpairs
  obtain ⟨-, hrest, haboveBefore⟩ := List.pairwise_append.1 hbehind
  have hline := (hplaced c (by simp)).line_eq hc
  have hall : ∀ b ∈ seen, b.stop.line < c.start.line := by
    have heq := all_line_lt_eq (fun t ht ↦ hplaced t (List.mem_append_left _ ht)) hseen
      fun b hb ↦ hbefore b hb c (by simp)
    rw [hends, Bool.not_false, List.all_eq_true] at heq
    exact fun b hb ↦ of_decide_eq_true (heq b hb)
  refine ⟨hc, fun u hu hstop ↦ ?_⟩
  rcases List.mem_append.1 hu with hu' | hu'
  · exact absurd hstop (Nat.ne_of_lt (hall u hu'))
  rcases List.mem_append.1 hu' with hu' | hu'
  · exact absurd hstop
      (Nat.ne_of_lt ((haboveBefore u hu' c List.mem_cons_self).line_lt (habove u hu')))
  rcases List.mem_cons.1 hu' with rfl | hu'
  · rfl
  · have hlt := (List.rel_of_pairwise_cons hrest hu').line_lt hc
    have hle := (hplaced u hu).line_le
    omega

/-! ### From tokens to views -/

/-- Whether some views are those of the tokens behind a token of the source that is no comment. -/
inductive Gathered (source : List Token) : Option Token → List Token → List View → Prop
  | nil (before : Option Token) : Gathered source before [] []
  | cons {before : Option Token} {t : Token} {v : View} {above behind ts : List Token}
      {vs : List View} (code : t.kind.isComment = false)
      (leading : above.map (·.kind) = v.leading.map .comment)
      (alone : ∀ c ∈ above, IsCommentLine source c)
      (piece : v.toPiece = ⟨t.kind, before.any (·.isAdjacentTo t)⟩)
      (spaced : v.spaced = before.any (·.endsApart (above ++ [t])))
      (trailing : behind.map (·.kind) = (v.trailing.map .comment).toList)
      (sameLine : ∀ c ∈ behind, c.start.line = t.stop.line ∧ c.stop.line = t.stop.line)
      (rest : Gathered source (some t) ts vs) :
      Gathered source before (above ++ t :: (behind ++ ts)) (v :: vs)

/-- Whether what was gathered from some tokens behind another is the views of the first of them, and
the comments of the others. -/
def Gathers (source : List Token) (before : Option Token) (ts : List Token)
    (gathered : List Lexeme × List Comment) : Prop :=
  ∃ front back, ts = front ++ back ∧ Gathered source before front (gathered.1.map Lexeme.view) ∧
    back.map (·.kind) = gathered.2.map (.comment ·.text) ∧ ∀ c ∈ back, IsCommentLine source c

/-- Comments are pending as they are. -/
theorem map_kind_of_comments {ts : List Token} (h : ∀ t ∈ ts, t.kind.isComment = true) :
    ts.map (·.kind) = (comments ts).map (.comment ·.text) := by
  induction ts with
  | nil => rfl
  | cons t ts ih =>
    rw [List.forall_mem_cons] at h
    obtain ⟨text, htext⟩ := TokenKind.exists_eq_comment h.1
    rw [comments_cons_of_comment htext, List.map_cons, List.map_cons, ih h.2, htext]

theorem firstLine_comments {above : List Token} (h : ∀ t ∈ above, t.kind.isComment = true)
    (b t : Token) :
    decide (b.stop.line + 1 < Lexeme.firstLine (comments above) t) =
      b.endsApart (above ++ [t]) := by
  cases above with
  | nil => rfl
  | cons c above =>
    obtain ⟨text, htext⟩ := TokenKind.exists_eq_comment (h c List.mem_cons_self)
    rw [comments_cons_of_comment htext]
    rfl

/-- Comments with nothing below them. -/
theorem gathers_nil {source above : List Token} (before : Option Token)
    (h : ∀ c ∈ above, IsCommentLine source c) :
    Gathers source before above (gather before (comments above) []) :=
  ⟨[], above, rfl, .nil before, map_kind_of_comments fun c hc ↦ (h c hc).1, h⟩

/-- A token that is no comment makes a group with the comments above it and the one at the end of
its line. -/
theorem Gathers.cons {source above behind rest : List Token} {t : Token}
    (hrest : Gathers source (some t) rest (gather (some t) [] (behind ++ rest)))
    (code : t.kind.isComment = false) (alone : ∀ c ∈ above, IsCommentLine source c)
    (trailing : behind.map (·.kind) =
      ((trailingComment t (behind ++ rest)).map (.comment ·.text)).toList)
    (sameLine : ∀ c ∈ behind, c.start.line = t.stop.line ∧ c.stop.line = t.stop.line)
    (before : Option Token) :
    Gathers source before (above ++ t :: (behind ++ rest))
      (gather before (comments above) (t :: (behind ++ rest))) := by
  have habove : ∀ c ∈ above, c.kind.isComment = true := fun c hc ↦ (alone c hc).1
  obtain ⟨front, back, rfl, hfront, hback, hbackAlone⟩ := hrest
  rw [gather_cons code]
  refine ⟨above ++ t :: (behind ++ front), back, by simp, ?_, hback, hbackAlone⟩
  refine .cons code ?_ alone rfl ?_ ?_ sameLine hfront
  · rw [map_kind_of_comments habove]
    simp [Lexeme.view]
  · exact congrArg before.any (funext fun b ↦ firstLine_comments habove b t)
  · rw [trailing, Lexeme.view, Option.map_map]
    rfl

section Source

variable {source : List Token} (hplaced : ∀ t ∈ source, t.WellPlaced)
  (hpairs : source.Pairwise Precedes)
include hplaced hpairs

/-- Gathering divides the tokens into the groups of the views: comments that are pending go to the
next view, and a comment at the end of a token's line goes with the token. -/
theorem gathers_gather {before : Option Token} {ts : List Token} (h : Grouped before ts) :
    ∀ seen above, source = seen ++ (above ++ ts) → lastCode seen = before →
      (∀ t ∈ above, IsCommentLine source t) →
        Gathers source before (above ++ ts) (gather before (comments above) ts) := by
  induction h with
  | nil before =>
    intro _ above _ _ habove
    rw [List.append_nil]
    exact gathers_nil before habove
  | @alone before c text ts comment below _ ih =>
    intro seen above hsource hseen habove
    -- the comment has its line for itself and joins those that are pending
    have hc := isCommentLine_of_endsLineOf hplaced hpairs hsource (by rw [comment]; rfl)
      (fun t ht ↦ (habove t ht).1) (hseen ▸ below)
    have hsplit : above ++ c :: ts = (above ++ [c]) ++ ts := by simp
    rw [hsplit] at hsource ⊢
    have hmore := ih seen (above ++ [c]) hsource hseen
      (List.forall_mem_append.2 ⟨habove, List.forall_mem_singleton.2 hc⟩)
    rw [comments_append, comments_cons_of_comment comment] at hmore
    rw [gather_comment comment, below, if_neg (by simp)]
    exact hmore
  | @plain before t ts code noComment _ ih =>
    intro seen above hsource _ habove
    have hrest : Gathers source (some t) ts (gather (some t) [] ([] ++ ts)) :=
      ih (seen ++ above ++ [t]) [] (by simp [hsource]) (lastCode_append_of_code code _)
        (List.forall_mem_nil _)
    refine hrest.cons code habove ?_ (List.forall_mem_nil _) before
    rw [List.nil_append, noComment]
    rfl
  | @remarked before t c text ts code comment sameLine _ ih =>
    intro seen above hsource _ habove
    have hc : c.kind.isComment = true := by rw [comment]; rfl
    have hline : c.start.line = t.stop.line := by
      rw [endsLineOf, Option.any_some, beq_iff_eq] at sameLine
      exact sameLine.symm
    have hlast : lastCode (seen ++ above ++ [t] ++ [c]) = some t := by
      rw [lastCode_append_of_comment hc, lastCode_append_of_code code]
    have hrest : Gathers source (some t) ts (gather (some t) [] ([c] ++ ts)) := by
      rw [List.singleton_append, gather_comment comment, sameLine, if_pos rfl]
      exact ih _ [] (by simp [hsource]) hlast (List.forall_mem_nil _)
    refine hrest.cons code habove ?_ (List.forall_mem_singleton.2 ⟨hline, ?_⟩) before
    · rw [List.singleton_append, trailingComment_of_comment comment, sameLine, if_pos rfl,
        List.map_singleton, comment]
      rfl
    · exact ((hplaced c (by simp [hsource])).line_eq hc).trans hline

end Source

/-- The tokens of a text are gathered, but for the comments at its end. -/
theorem gathers_of_tokenize {source : String} {tokens : List Token}
    (h : tokenize source = .ok tokens) :
    Gathers tokens none tokens
      ((Document.ofTokens tokens).lexemes, (Document.ofTokens tokens).closing) := by
  obtain ⟨hplaced, hpairs⟩ := wellPlaced_of_tokenize h
  exact gathers_gather (fun t ht ↦ (hplaced t ht).2) hpairs (grouped_of_tokenize h) [] [] rfl rfl
    (List.forall_mem_nil _)

/-! ### From views to tokens -/

/-- Whether the last of some tokens ends on the line on which the given one does. -/
def EndOnLineOf (ts : List Token) (b : Token) : Prop :=
  ∃ last ∈ ts.getLast?, last.stop.line = b.stop.line

namespace Gathered

variable {source : List Token} {before : Option Token} {ts : List Token}

theorem ne_nil {vs : List View} (h : Gathered source before ts vs) (hvs : vs ≠ []) : ts ≠ [] := by
  cases h with
  | nil => exact absurd rfl hvs
  | cons => simp

theorem exists_mem_of_mem {vs : List View} (h : Gathered source before ts vs) :
    ∀ v ∈ vs, ∃ t ∈ ts, t.kind = v.kind := by
  induction h with
  | nil => exact List.forall_mem_nil _
  | @cons _ t _ _ _ _ _ _ _ _ piece _ _ _ _ ih =>
    refine List.forall_mem_cons.2 ⟨⟨t, by simp, (congrArg Piece.kind piece).symm⟩, fun w hw ↦ ?_⟩
    obtain ⟨u, hu, hkind⟩ := ih w hw
    exact ⟨u, by simp [hu], hkind⟩

/-- What is gathered as two lists of views is two lists of tokens. The second is behind the token
that ends the last line of the first, or behind the same token as the first if that is empty. -/
theorem exists_append {vs ws : List View} (h : Gathered source before ts (vs ++ ws)) :
    ∃ us rest last, ts = us ++ rest ∧ Gathered source before us vs ∧ Gathered source last rest ws ∧
      ((us = [] ∧ last = before) ∨ ∃ b ∈ last, EndOnLineOf us b) := by
  induction vs generalizing before ts with
  | nil => exact ⟨[], ts, before, rfl, .nil before, h, Or.inl ⟨rfl, rfl⟩⟩
  | cons v vs ih =>
    rw [List.cons_append] at h
    cases h with
    | @cons _ t _ above behind ts _ code leading alone piece spaced trailing sameLine rest =>
      obtain ⟨us, more, last, rfl, hus, hmore, hlast⟩ := ih rest
      refine ⟨above ++ t :: (behind ++ us), more, last, by simp,
        .cons code leading alone piece spaced trailing sameLine hus, hmore, Or.inr ?_⟩
      rcases hlast with ⟨rfl, rfl⟩ | ⟨b, hb, u, hu, hline⟩
      · -- the line of `t` is the last one, and a comment behind `t` ends on it as well
        rw [List.append_nil]
        refine ⟨t, rfl, ?_⟩
        rcases behind.eq_nil_or_concat with rfl | ⟨init, c, rfl⟩
        · exact ⟨t, List.getLast?_concat, rfl⟩
        · rw [List.concat_eq_append] at sameLine ⊢
          rw [← List.cons_append, ← List.append_assoc]
          exact ⟨c, List.getLast?_concat, (sameLine c (by simp)).2⟩
      · rw [← List.cons_append, ← List.append_assoc]
        exact ⟨b, hb, u, List.mem_getLast?_append_of_mem_getLast? hu, hline⟩

/-- The tokens of a line: the comments above, the code and the comment at the end of its last
line. -/
theorem exists_line {vs : List View} (h : Gathered source before ts vs) {texts : List String}
    {spaced : Bool} {lineComment : Option String}
    (hline : View.IsLine vs texts spaced lineComment) :
    ∃ above code behind, ts = above ++ (code ++ behind) ∧
      above.map (·.kind) = texts.map .comment ∧ (∀ c ∈ above, IsCommentLine source c) ∧
      vs.map View.toPiece = pieces before code ∧ EndLineOf behind code ∧
      spaced = before.any (·.endsApart ts) := by
  obtain ⟨hunbroken, ⟨v, hv, rfl, rfl⟩, ⟨w, hw, rfl⟩⟩ := hline
  -- over the tokens: only the first has comments above it, and only the last one at its end
  induction h generalizing v with
  | nil => cases hv
  | @cons before t u above behind ts vs code leading alone piece spaced trailing sameLine rest ih =>
    cases hv
    have hspaced : u.spaced = before.any (·.endsApart (above ++ t :: (behind ++ ts))) := by
      rw [spaced]
      cases above <;> rfl
    cases vs with
    | nil =>
      cases hw
      cases rest
      refine ⟨above, [t], behind, by simp, leading, alone, ?_, fun c hc ↦ ?_, hspaced⟩
      · rw [List.map_singleton, piece]
        rfl
      · have hkinds : ∀ kind ∈ behind.map (·.kind), kind.isComment = true := by
          rw [trailing]
          cases u.trailing <;> simp [TokenKind.isComment]
        exact ⟨hkinds _ (List.mem_map_of_mem hc), t, rfl, (sameLine c hc).1⟩
    | cons next vs =>
      rw [List.isChain_cons_cons] at hunbroken
      obtain ⟨⟨hnone, hfree⟩, hrest⟩ := hunbroken
      obtain ⟨above', code', behind', rfl, habove, -, hpieces, hbehind, -⟩ :=
        ih hrest next rfl (by rwa [List.getLast?_cons_cons] at hw)
      rw [hfree, List.map_nil, List.map_eq_nil_iff] at habove
      subst habove
      rw [hnone] at trailing
      obtain rfl := List.map_eq_nil_iff.1 trailing
      refine ⟨above, t :: code', behind', rfl, leading, alone, ?_, fun c hc ↦ ?_, hspaced⟩
      · rw [List.map_cons, piece, hpieces]
        rfl
      · obtain ⟨hkind, last, hlast, hline⟩ := hbehind c hc
        refine ⟨hkind, last, ?_, hline⟩
        rw [List.getLast?_cons, show code'.getLast? = some last from hlast]
        rfl

end Gathered

end Token

end ModelSignatures
