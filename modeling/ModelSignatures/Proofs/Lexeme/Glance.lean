import ModelSignatures.Proofs.Lexeme.Outline
import ModelSignatures.Proofs.Token.Lossless

/-!
# What is seen of the layout

A glance at a token tells its kind and three truth values on what stands behind it: whether a word
touches the next token, whether a comment ends its line, and whether an empty line follows. The
views of the lexemes of a text can be told from the glances at its tokens (`Token.agree_views`), but
for one thing: whether a token touches the one before it is told only behind a word. The rest of the
layout, that is all places and all other gaps, cannot be seen.

The lexemes are gathered by a loop over the tokens. What it remembers, the token before with its
places and the comments pending, is at each step seen as a glance (`Lexeme.SeenAs`).
-/

namespace ModelSignatures

/-- Whether the token is a name or a keyword. -/
def TokenKind.isWord : TokenKind → Bool
  | word _ => true
  | _ => false

/-- What is seen of a token and of the layout behind it. -/
structure Glance where
  kind : TokenKind
  /-- Whether it is a word and ends where the next token begins. -/
  touches : Bool
  /-- Whether the next token is a comment that begins on its last line. -/
  commented : Bool
  /-- Whether it is no comment, nor are all tokens behind it, and the next token but for a comment
  on its last line begins more than one line below that line. -/
  spaced : Bool
deriving DecidableEq, Repr

/-! ### Glances at tokens -/

namespace Token

/-- Whether the first of the tokens behind `t` is a comment on its last line. -/
def isCommented (t : Token) (next : List Token) : Bool :=
  next.head?.any fun u ↦ u.kind.isComment && t.stop.line == u.start.line

/-- The tokens behind `t`, but for a comment on its last line. -/
def belowLine (t : Token) (next : List Token) : List Token :=
  if t.isCommented next then next.tail else next

/-- What is seen of a token, when `next` are the tokens behind it. -/
def glance (t : Token) (next : List Token) : Glance where
  kind := t.kind
  touches := t.kind.isWord && next.head?.any t.isAdjacentTo
  commented := t.isCommented next
  spaced := !t.kind.isComment && next.any (fun u ↦ !u.kind.isComment) &&
    (t.belowLine next).head?.any fun u ↦ t.stop.line + 1 < u.start.line

/-- What is seen of each of the tokens. -/
def glances : List Token → List Glance
  | [] => []
  | t :: tokens => t.glance tokens :: glances tokens

end Token

/-! ### Views told by glances -/

namespace Glance

/-- The comment at the end of the last line of a token, when `next` are the glances behind it. -/
def lineComment (g : Glance) (next : List Glance) : Option String :=
  match next with
  | { kind := .comment text, .. } :: _ => if g.commented then some text else none
  | _ => none

/-- What is still seen of a token when a comment behind it was passed. -/
def passed (g : Glance) : Glance :=
  { g with touches := false, commented := false }

/-- The views that are told by glances, when the last token before that is no comment was seen as
`before`, and the comments that no lexeme follows. -/
def views (before : Option Glance) (pending : List String) :
    List Glance → List View × List String
  | [] => ([], pending)
  | g :: glances =>
    match g.kind with
    | .comment text =>
      views (before.map passed)
        (if before.any (·.commented) then pending else pending ++ [text]) glances
    | kind =>
      let view : View :=
        { kind
          glued := before.any (·.touches)
          leading := pending
          trailing := g.lineComment glances
          spaced := before.any (·.spaced) }
      let (vs, closing) := views (some g) [] glances
      (view :: vs, closing)

/-- A token that is no comment adds its view, and the comments that are pending are above it. -/
theorem views_cons {g : Glance} (hg : g.kind.isComment = false) (before : Option Glance)
    (pending : List String) (glances : List Glance) :
    views before pending (g :: glances) =
      ({ kind := g.kind
         glued := before.any (·.touches)
         leading := pending
         trailing := g.lineComment glances
         spaced := before.any (·.spaced) } :: (views (some g) [] glances).1,
        (views (some g) [] glances).2) := by
  obtain ⟨kind, touches, commented, spaced⟩ := g
  cases kind with
  | comment text => cases hg
  | _ => rfl

/-- A comment adds no view: it is pending, if it does not end the line of a token. -/
theorem views_comment {g : Glance} {text : String} (hg : g.kind = .comment text)
    (before : Option Glance) (pending : List String) (glances : List Glance) :
    views before pending (g :: glances) =
      views (before.map passed)
        (if before.any (·.commented) then pending else pending ++ [text]) glances := by
  obtain ⟨kind, touches, commented, spaced⟩ := g
  cases hg
  rfl

end Glance

/-! ### Agreement -/

/-- Whether two lists are related element by element, where how they are related depends on a mark
of the element before. -/
inductive AgreeFrom {α : Type} (mark : α → Bool) (R : Bool → α → α → Prop) :
    Bool → List α → List α → Prop
  | nil (b : Bool) : AgreeFrom mark R b [] []
  | cons {b : Bool} {x y : α} {xs ys : List α} (head : R b x y)
      (tail : AgreeFrom mark R (mark x) xs ys) : AgreeFrom mark R b (x :: xs) (y :: ys)

namespace AgreeFrom

variable {α β : Type} {mark : α → Bool} {R : Bool → α → α → Prop} {b : Bool} {xs ys zs : List α}

/-- What agrees with two lists one behind the other is two lists that agree with them. -/
theorem exists_of_append (h : AgreeFrom mark R b (xs ++ ys) zs) :
    ∃ xs' ys' c, zs = xs' ++ ys' ∧ AgreeFrom mark R b xs xs' ∧ AgreeFrom mark R c ys ys' := by
  induction xs generalizing b zs with
  | nil => exact ⟨[], zs, b, rfl, .nil b, h⟩
  | cons x xs ih =>
    obtain - | ⟨head, tail⟩ := h
    obtain ⟨xs', ys', c, rfl, hxs, hys⟩ := ih tail
    exact ⟨_ :: xs', ys', c, rfl, .cons head hxs, hys⟩

/-- Agreement is symmetric where the relation is and related elements have the same mark. -/
theorem symm (hmark : ∀ {b x y}, R b x y → mark x = mark y)
    (hR : ∀ {b x y}, R b x y → R b y x) (h : AgreeFrom mark R b xs ys) :
    AgreeFrom mark R b ys xs := by
  induction h with
  | nil b => exact .nil b
  | cons head _ ih => exact .cons (hR head) (hmark head ▸ ih)

/-- Agreement is kept by a function that keeps the marks and the relation. -/
theorem map {mark' : β → Bool} {S : Bool → β → β → Prop} {f : α → β}
    (hmark : ∀ x, mark' (f x) = mark x) (hf : ∀ {b x y}, R b x y → S b (f x) (f y))
    (h : AgreeFrom mark R b xs ys) : AgreeFrom mark' S b (xs.map f) (ys.map f) := by
  induction h with
  | nil b => exact .nil b
  | cons head _ ih => exact .cons (hf head) (by rwa [hmark])

/-- Lists that agree have the same images under a function that does not tell related elements
apart. -/
theorem map_eq {f : α → β} (hf : ∀ {b x y}, R b x y → f x = f y) (h : AgreeFrom mark R b xs ys) :
    xs.map f = ys.map f := by
  induction h with
  | nil => rfl
  | cons head _ ih => rw [List.map_cons, List.map_cons, hf head, ih]

end AgreeFrom

/-- Whether two pieces correspond: behind a word it counts whether they touch it. -/
structure Piece.Corresponds (behindWord : Bool) (p q : Piece) : Prop where
  kind : p.kind = q.kind
  glued : behindWord = true → p.glued = q.glued

/-- The comments around the token, and whether an empty line lies above. -/
def View.layout (v : View) : List String × Option String × Bool :=
  (v.leading, v.trailing, v.spaced)

/-- Whether two views correspond: all of them counts, but for what they touch when it is no word. -/
structure View.Corresponds (behindWord : Bool) (v w : View) : Prop where
  piece : v.toPiece.Corresponds behindWord w.toPiece
  layout : v.layout = w.layout

theorem Piece.Corresponds.symm {b : Bool} {p q : Piece} (h : p.Corresponds b q) :
    q.Corresponds b p :=
  ⟨h.kind.symm, fun hb ↦ (h.glued hb).symm⟩

theorem View.Corresponds.symm {b : Bool} {v w : View} (h : v.Corresponds b w) : w.Corresponds b v :=
  ⟨h.piece.symm, h.layout.symm⟩

/-- Whether two lists of pieces agree, the first two behind a word if `behindWord`. -/
def Piece.Agree (behindWord : Bool) : List Piece → List Piece → Prop :=
  AgreeFrom (fun p ↦ p.kind.isWord) Piece.Corresponds behindWord

/-- Whether two lists of views agree, the first two behind a word if `behindWord`. -/
def View.Agree (behindWord : Bool) : List View → List View → Prop :=
  AgreeFrom (fun v ↦ v.kind.isWord) View.Corresponds behindWord

namespace View.Agree

variable {b : Bool} {vs ws : List View}

theorem symm (h : View.Agree b vs ws) : View.Agree b ws vs :=
  AgreeFrom.symm (fun h ↦ congrArg TokenKind.isWord h.piece.kind) View.Corresponds.symm h

/-- The pieces of views that agree do so too. -/
theorem pieces (h : View.Agree b vs ws) :
    Piece.Agree b (vs.map View.toPiece) (ws.map View.toPiece) :=
  AgreeFrom.map (fun _ ↦ rfl) (fun h ↦ h.piece) h

/-- Views that agree have the same comments and empty lines. -/
theorem map_layout (h : View.Agree b vs ws) : vs.map View.layout = ws.map View.layout :=
  AgreeFrom.map_eq (fun h ↦ h.layout) h

/-- Views that agree have the same kinds. -/
theorem map_kind (h : View.Agree b vs ws) :
    vs.map (fun v ↦ v.kind) = ws.map fun v ↦ v.kind :=
  AgreeFrom.map_eq (fun h ↦ h.piece.kind) h

end View.Agree

/-- Pieces that agree have the same kinds. -/
theorem Piece.Agree.map_kind {b : Bool} {ps qs : List Piece} (h : Piece.Agree b ps qs) :
    ps.map Piece.kind = qs.map Piece.kind :=
  AgreeFrom.map_eq (fun h ↦ h.kind) h

/-! ### The order of tokens -/

namespace Token

/-- Whether tokens stand one behind the other, each on the lines that it says it does. -/
structure Ordered (tokens : List Token) : Prop where
  wellPlaced : ∀ t ∈ tokens, t.WellPlaced
  offset_lt : ∀ t ∈ tokens, t.start.offset < t.stop.offset
  precedes : tokens.Pairwise Precedes
  offset_le : tokens.Pairwise fun t u ↦ t.stop.offset ≤ u.start.offset

/-- The tokens of a source stand in order. -/
theorem ordered_of_tokenize {source : String} {tokens : List Token}
    (h : tokenize source = .ok tokens) : Ordered tokens := by
  obtain ⟨hplaced, hpairs⟩ := wellPlaced_of_tokenize h
  have htile : Tile [] tokens source.toList := Lexer.tile_of_tokensFrom (Nat.le_refl _) h
  refine ⟨fun t ht ↦ (hplaced t ht).2, fun t ht ↦ ?_, hpairs, htile.pairwise_offset_le⟩
  obtain ⟨front, slice, after, -, hspans⟩ := htile.exists_spans t ht
  exact hspans.offset_lt

theorem Ordered.tail {t : Token} {tokens : List Token} (h : Ordered (t :: tokens)) :
    Ordered tokens :=
  ⟨(List.forall_mem_cons.1 h.wellPlaced).2, (List.forall_mem_cons.1 h.offset_lt).2,
    (List.pairwise_cons.1 h.precedes).2, (List.pairwise_cons.1 h.offset_le).2⟩

theorem Ordered.of_append {ts us : List Token} (h : Ordered (ts ++ us)) : Ordered us :=
  ⟨(List.forall_mem_append.1 h.wellPlaced).2, (List.forall_mem_append.1 h.offset_lt).2,
    (List.pairwise_append.1 h.precedes).2.1, (List.pairwise_append.1 h.offset_le).2.1⟩

/-! ### The state of the loop -/

/-- A token that ends before the next one begins does not touch it. -/
theorem isAdjacentTo_of_offset_lt {t u : Token} (h : t.stop.offset < u.start.offset) :
    t.isAdjacentTo u = false := by
  rw [isAdjacentTo, beq_eq_false_iff_ne]
  exact Nat.ne_of_lt h

/-- A token is not commented in front of one that is no comment. -/
theorem isCommented_of_code {u : Token} (hu : u.kind.isComment = false) (t : Token)
    (next : List Token) : t.isCommented (u :: next) = false := by
  simp [isCommented, hu]

/-- A token is commented in front of a comment that stands on its last line. -/
theorem isCommented_of_comment {u : Token} (hu : u.kind.isComment = true) (t : Token)
    (next : List Token) :
    t.isCommented (u :: next) = Lexeme.endsLineOf (some t) u.start := by
  simp [isCommented, hu, Lexeme.endsLineOf]

/-- A token is not commented if nothing behind it stands on its last line. -/
theorem isCommented_of_forall {t : Token} {next : List Token}
    (h : ∀ u ∈ next, Lexeme.endsLineOf (some t) u.start = false) : t.isCommented next = false := by
  cases next with
  | nil => rfl
  | cons u next =>
    cases hu : u.kind.isComment with
    | false => exact isCommented_of_code hu t next
    | true => rw [isCommented_of_comment hu, h u List.mem_cons_self]

/-- The comment at the end of the line of a token is seen. -/
theorem lineComment_glance {t : Token} (next : List Token) :
    (t.glance next).lineComment (glances next) =
      (Lexeme.trailingComment t next).map (·.text) := by
  cases next with
  | nil => rfl
  | cons u next =>
    cases hu : u.kind.isComment with
    | false =>
      rw [Lexeme.trailingComment_of_code hu, glances]
      obtain ⟨kind, start, stop⟩ := u
      cases kind with
      | comment text => cases hu
      | _ => rfl
    | true =>
      obtain ⟨text, htext⟩ := TokenKind.exists_eq_comment hu
      have hcommented : (t.glance (u :: next)).commented = _ := isCommented_of_comment hu t next
      have hline : (t.glance (u :: next)).lineComment (glances (u :: next)) =
          if (t.glance (u :: next)).commented then some text else none := by
        obtain ⟨kind, start, stop⟩ := u
        cases htext
        rfl
      rw [Lexeme.trailingComment_of_comment htext, hline, hcommented]
      split
      · rfl
      · rfl

end Token

namespace Lexeme

/-- The line on which what is pending or comes next begins, but for a comment at the end of the line
of `b`. -/
def lineBelow (b : Token) (pending : List Comment) (tokens : List Token) : Option ℕ :=
  (pending.head?.map (·.position.line)).or ((b.belowLine tokens).head?.map (·.start.line))

/-- Whether the state of the loop, in front of some tokens, is seen as `g`. -/
structure SeenAs (before : Option Token) (pending : List Comment) (tokens : List Token)
    (g : Option Glance) : Prop where
  commented : g.any (·.commented) = before.any (·.isCommented tokens)
  touches : ∀ b ∈ before, b.kind.isWord = true → ∀ u ∈ tokens.head?, u.kind.isComment = false →
    g.any (·.touches) = b.isAdjacentTo u
  spaced : (∃ u ∈ tokens, u.kind.isComment = false) →
    g.any (·.spaced) =
      before.any fun b ↦ (lineBelow b pending tokens).any fun line ↦ b.stop.line + 1 < line
  behind : ∀ b ∈ before, ∀ u ∈ tokens,
    b.stop.line ≤ u.start.line ∧ b.stop.offset ≤ u.start.offset

/-- In front of all tokens the loop has seen nothing. -/
theorem seenAs_none (tokens : List Token) : SeenAs none [] tokens none :=
  ⟨rfl, by simp, fun _ ↦ rfl, by simp⟩

/-- Behind a token that is no comment the state is seen as the token is. -/
theorem seenAs_glance {t : Token} {tokens : List Token} (ht : t.kind.isComment = false)
    (h : Token.Ordered (t :: tokens)) : SeenAs (some t) [] tokens (some (t.glance tokens)) where
  commented := rfl
  touches := by
    rintro _ ⟨⟩ hword u hu -
    rw [Option.any_some, Token.glance, hword, Bool.true_and, Option.mem_def.1 hu, Option.any_some]
  spaced := by
    rintro ⟨u, hu, hcode⟩
    have hany : tokens.any (fun u ↦ !u.kind.isComment) = true :=
      List.any_eq_true.2 ⟨u, hu, by rw [hcode]; rfl⟩
    rw [Option.any_some, Token.glance, ht, hany, Option.any_some, lineBelow, List.head?_nil,
      Option.map_none, Option.none_or, Option.any_map]
    rfl
  behind := by
    rintro _ ⟨⟩ u hu
    exact ⟨((List.pairwise_cons.1 h.precedes).1 u hu).line_le,
      (List.pairwise_cons.1 h.offset_le).1 u hu⟩

section Step

variable {before : Option Token} {pending : List Comment} {t : Token} {tokens : List Token}
  {g : Option Glance}

/-- The state is seen to change when a comment is passed. -/
theorem SeenAs.passed {text : String} (h : SeenAs before pending (t :: tokens) g)
    (ht : t.kind = .comment text) (hordered : Token.Ordered (t :: tokens)) :
    SeenAs before (if endsLineOf before t.start then pending
      else pending ++ [⟨text, t.start.toPosition⟩]) tokens (g.map Glance.passed) := by
  have hcomment : t.kind.isComment = true := by rw [ht]; rfl
  have hbelow : ∀ b ∈ before, ∀ u ∈ tokens, endsLineOf (some b) u.start = false := fun b hb ↦
    endsLineOf_behind_comment (hordered.wellPlaced t List.mem_cons_self) hcomment
      (h.behind b hb t List.mem_cons_self).1 (List.pairwise_cons.1 hordered.precedes).1
  -- what follows the comment neither ends the line of the token before it nor touches that token
  refine ⟨?_, fun b hb _ u hu _ ↦ ?_, fun hcode ↦ ?_, fun b hb u hu ↦
    h.behind b hb u (List.mem_cons_of_mem t hu)⟩
  · have hnot : before.any (·.isCommented tokens) = false := by
      rw [Option.any_eq_false]
      exact fun b hb ↦ by simp [Token.isCommented_of_forall (hbelow b hb)]
    rw [hnot, Option.any_map]
    cases g <;> rfl
  · have hfar := (h.behind b hb t List.mem_cons_self).2
    have hwide := hordered.offset_lt t List.mem_cons_self
    have hnext := (List.pairwise_cons.1 hordered.offset_le).1 u (List.mem_of_mem_head? hu)
    rw [Token.isAdjacentTo_of_offset_lt (by omega), Option.any_map]
    cases g <;> rfl
  · obtain ⟨u, hu, hkind⟩ := hcode
    have hspaced := h.spaced ⟨u, List.mem_cons_of_mem t hu, hkind⟩
    rw [Option.any_map]
    refine hspaced.trans ?_
    cases before with
    | none => rfl
    | some b =>
      -- either the comment ends the line of `b`, or it is the first of those pending or behind them
      have hplace : lineBelow b pending (t :: tokens) =
          lineBelow b (if endsLineOf (some b) t.start then pending
            else pending ++ [⟨text, t.start.toPosition⟩]) tokens := by
        rw [lineBelow, lineBelow, Token.belowLine, Token.belowLine,
          Token.isCommented_of_comment hcomment, Token.isCommented_of_forall (hbelow b rfl)]
        cases endsLineOf (some b) t.start with
        | true => rfl
        | false => cases pending <;> rfl
      rw [Option.any_some, Option.any_some, hplace]

/-- What the loop finds before the next token is what is seen. -/
theorem SeenAs.corresponds (h : SeenAs before pending (t :: tokens) g)
    (ht : t.kind.isComment = false) :
    View.Corresponds (before.any (·.kind.isWord))
      (view
        { kind := t.kind
          position := t.start.toPosition
          leading := pending
          trailing := trailingComment t tokens
          glued := before.any (·.isAdjacentTo t)
          spaced := before.any fun b ↦ b.stop.line + 1 < firstLine pending t })
      { kind := t.kind
        glued := g.any (·.touches)
        leading := pending.map (·.text)
        trailing := (t.glance tokens).lineComment (Token.glances tokens)
        spaced := g.any (·.spaced) } := by
  have hspaced := h.spaced ⟨t, List.mem_cons_self, ht⟩
  refine ⟨⟨rfl, fun hword ↦ ?_⟩, ?_⟩
  · cases before with
    | none => cases hword
    | some b => exact (h.touches b rfl hword t rfl ht).symm
  · have hline : ∀ b : Token, lineBelow b pending (t :: tokens) = some (firstLine pending t) := by
      intro b
      rw [lineBelow, Token.belowLine, Token.isCommented_of_code ht]
      cases pending <;> rfl
    simp only [View.layout, view]
    rw [Token.lineComment_glance, hspaced]
    simp only [hline, Option.any_some]

/-- The views of the lexemes gathered agree with those that the glances tell. -/
theorem SeenAs.agree {tokens : List Token} (h : SeenAs before pending tokens g)
    (hordered : Token.Ordered tokens) :
    View.Agree (before.any (·.kind.isWord)) ((gather before pending tokens).1.map view)
        (Glance.views g (pending.map (·.text)) (Token.glances tokens)).1 ∧
      (gather before pending tokens).2.map (·.text) =
        (Glance.views g (pending.map (·.text)) (Token.glances tokens)).2 := by
  -- over the tokens: `SeenAs` is what both loops keep, whatever places the one remembers
  induction tokens generalizing before pending g with
  | nil => exact ⟨.nil _, rfl⟩
  | cons t tokens ih =>
    cases hkind : t.kind.isComment with
    | false =>
      have hcode : (t.glance tokens).kind.isComment = false := hkind
      obtain ⟨hviews, hclosing⟩ := ih (seenAs_glance hkind hordered) hordered.tail
      rw [gather_cons hkind, Token.glances, Glance.views_cons hcode]
      exact ⟨.cons (h.corresponds hkind) hviews, hclosing⟩
    | true =>
      obtain ⟨text, htext⟩ := TokenKind.exists_eq_comment hkind
      have hcomment : (t.glance tokens).kind = .comment text := htext
      have hends : g.any (·.commented) = endsLineOf before t.start := by
        rw [h.commented]
        cases before with
        | none => rfl
        | some b => exact Token.isCommented_of_comment hkind b tokens
      have hstep := ih (h.passed htext hordered) hordered.tail
      rw [gather_comment htext, Token.glances, Glance.views_comment hcomment, hends]
      cases hline : endsLineOf before t.start with
      | true => simpa [hline] using hstep
      | false => simpa [hline] using hstep

end Step

end Lexeme

/-- What the grammar sees of a text is told by the glances at its tokens. -/
theorem Token.agree_views {source : String} {tokens : List Token}
    (h : Token.tokenize source = .ok tokens) :
    View.Agree false ((Document.ofTokens tokens).lexemes.map Lexeme.view)
        (Glance.views none [] (glances tokens)).1 ∧
      (Document.ofTokens tokens).closing.map (·.text) =
        (Glance.views none [] (glances tokens)).2 :=
  (Lexeme.seenAs_none tokens).agree (ordered_of_tokenize h)

end ModelSignatures
