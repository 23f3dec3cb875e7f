import ModelSignatures.Proofs.Lexeme.View
import ModelSignatures.Proofs.Token.Lexed

/-!
# The outline of a text

The outline of a list of tokens forgets their places, but for where its comments stand: at the end
of the line of the token before, or on lines of their own. What the comments go with is told group
by group (`Token.Grouped`), and lexemes are gathered in the same groups. So nothing that the grammar
sees is missing from the outline, since the views of the lexemes tell that of the tokens which they
were gathered from (`Token.Grouped.gatheredMarks_gather`).
-/

namespace ModelSignatures

/-- Whether a list erases to another by the loss of some things of which `p` holds. -/
inductive ErasesTo {α : Type} (p : α → Prop) : List α → List α → Prop
  | nil : ErasesTo p [] []
  | keep (x : α) {xs ys : List α} (rest : ErasesTo p xs ys) : ErasesTo p (x :: xs) (x :: ys)
  | erase {x : α} {xs ys : List α} (erasable : p x) (rest : ErasesTo p xs ys) :
      ErasesTo p (x :: xs) ys

namespace ErasesTo

variable {α : Type} {p : α → Prop} {xs ys zs ws : List α}

/-- A list may lose nothing. -/
theorem refl (xs : List α) : ErasesTo p xs xs := by
  induction xs with
  | nil => exact .nil
  | cons x xs ih => exact ih.keep x

/-- Lists one behind the other lose what each of them does. -/
theorem append (h : ErasesTo p xs ys) (h' : ErasesTo p zs ws) :
    ErasesTo p (xs ++ zs) (ys ++ ws) := by
  induction h with
  | nil => exact h'
  | keep x _ ih => exact ih.keep x
  | erase erasable _ ih => exact ih.erase erasable

/-- What stands in front may stay as it is. -/
theorem append_left (xs : List α) (h : ErasesTo p zs ws) : ErasesTo p (xs ++ zs) (xs ++ ws) :=
  (refl xs).append h

/-- What stands behind may stay as it is. -/
theorem append_right (h : ErasesTo p xs ys) (zs : List α) : ErasesTo p (xs ++ zs) (ys ++ zs) :=
  h.append (refl zs)

/-- What stands last is lost, if it may be. -/
theorem append_erase (h : ErasesTo p xs ys) {x : α} (hx : p x) : ErasesTo p (xs ++ [x]) ys := by
  have hall := h.append (ErasesTo.nil.erase hx)
  rwa [List.append_nil] at hall

/-- What is lost is lost from the images too, where it may be. -/
theorem map {β : Type} {q : β → Prop} {f : α → β} (hf : ∀ x, p x → q (f x))
    (h : ErasesTo p xs ys) : ErasesTo q (xs.map f) (ys.map f) := by
  induction h with
  | nil => exact .nil
  | keep x _ ih => exact ih.keep (f x)
  | erase erasable _ ih => exact ih.erase (hf _ erasable)

end ErasesTo

/-- Whether a token may be missing from a text that is written anew: it groups types, or allows
`nil`. -/
def TokenKind.IsErasable (kind : TokenKind) : Prop :=
  kind ∈ [.symbol .leftParen, .symbol .rightParen, .symbol .question]

/-! ### Outlines -/

/-- A token of an outline. -/
structure Mark where
  kind : TokenKind
  /-- Whether it is a comment on the last line of the token before it that is no comment. -/
  atLineEnd : Bool
  /-- Whether it is a comment, and no token before it ends on its line. -/
  alone : Bool
deriving DecidableEq, Repr

namespace Mark

/-- The mark of a token that is no comment. -/
def code (kind : TokenKind) : Mark := ⟨kind, false, false⟩

/-- The mark of a comment. -/
def comment (atLineEnd : Bool) (text : String) : Mark := ⟨.comment text, atLineEnd, !atLineEnd⟩

end Mark

namespace Token

/-- The last token that is no comment. -/
def lastCode (tokens : List Token) : Option Token :=
  (tokens.filter fun t ↦ !t.kind.isComment).getLast?

/-- The outline of some tokens behind those that were seen. -/
def outlineBehind (seen : List Token) : List Token → List Mark
  | [] => []
  | t :: tokens =>
    { kind := t.kind
      atLineEnd := t.kind.isComment && Lexeme.endsLineOf (lastCode seen) t.start
      alone := t.kind.isComment && seen.all fun b ↦ b.stop.line < t.start.line } ::
        outlineBehind (seen ++ [t]) tokens

/-- The outline of the tokens of a text. -/
def outline (tokens : List Token) : List Mark :=
  outlineBehind [] tokens

/-- The marks of some tokens behind a token, where a comment that is not at the end of its line is
alone. -/
def marks (before : Option Token) : List Token → List Mark
  | [] => []
  | t :: tokens =>
    match t.kind with
    | .comment text => .comment (Lexeme.endsLineOf before t.start) text :: marks before tokens
    | kind => .code kind :: marks (some t) tokens

/-- A token that is no comment is a mark, and what follows is behind it. -/
theorem marks_cons {t : Token} (ht : t.kind.isComment = false) (before : Option Token)
    (tokens : List Token) : marks before (t :: tokens) = .code t.kind :: marks (some t) tokens := by
  obtain ⟨kind, start, stop⟩ := t
  cases kind with
  | comment text => cases ht
  | _ => rfl

/-- A comment is a mark that tells whether it ends the line of the token before. -/
theorem marks_comment {t : Token} {text : String} (ht : t.kind = .comment text)
    (before : Option Token) (tokens : List Token) :
    marks before (t :: tokens) =
      .comment (Lexeme.endsLineOf before t.start) text :: marks before tokens := by
  obtain ⟨kind, start, stop⟩ := t
  cases ht
  rfl

/-- The last token of code has been seen. -/
theorem mem_of_lastCode {seen : List Token} {last : Token} (h : lastCode seen = some last) :
    last ∈ seen :=
  (List.mem_filter.1 (List.mem_of_getLast? h)).1

/-- A comment does not change what token of code was last. -/
theorem lastCode_append_of_comment {t : Token} (ht : t.kind.isComment = true)
    (seen : List Token) : lastCode (seen ++ [t]) = lastCode seen := by
  rw [lastCode, List.filter_append, List.filter_cons_of_neg (by simp [ht]), List.filter_nil,
    List.append_nil, lastCode]

/-- A token of code is then the last one. -/
theorem lastCode_append_of_code {t : Token} (ht : t.kind.isComment = false)
    (seen : List Token) : lastCode (seen ++ [t]) = some t := by
  rw [lastCode, List.filter_append, List.filter_cons_of_pos (by simp [ht]), List.filter_nil,
    List.getLast?_concat]

section Placed

variable {seen : List Token} (hplaced : ∀ t ∈ seen, t.WellPlaced)
  (hpairs : seen.Pairwise Precedes)
include hplaced hpairs

/-- Of the tokens that are no comments the last ends on the last line. -/
theorem line_le_of_lastCode {b last : Token} (hlast : lastCode seen = some last) (hb : b ∈ seen)
    (hcode : b.kind.isComment = false) : b.stop.line ≤ last.stop.line := by
  obtain ⟨init, hinit⟩ := List.getLast?_eq_some_iff.1 hlast
  have hmem : b ∈ init ++ [last] := by
    rw [← hinit]
    exact List.mem_filter.2 ⟨hb, by simp [hcode]⟩
  have hfiltered := hpairs.filter fun t ↦ !t.kind.isComment
  rw [hinit] at hfiltered
  rcases List.mem_append.1 hmem with hmem | hmem
  · have hprecedes := (List.pairwise_append.1 hfiltered).2.2 b hmem last List.mem_cons_self
    exact Nat.le_trans hprecedes.line_le (hplaced last (mem_of_lastCode hlast)).line_le
  · rw [List.mem_singleton.1 hmem]

/-- A comment is alone on its line unless it ends the line of the token before. -/
theorem all_line_lt_eq {c : Token} (hc : ∀ b ∈ seen, b.Precedes c) :
    (seen.all fun b ↦ b.stop.line < c.start.line) =
      !Lexeme.endsLineOf (lastCode seen) c.start := by
  rw [Bool.eq_iff_iff, List.all_eq_true, Bool.not_eq_true', Lexeme.endsLineOf, Option.any_eq_false]
  constructor
  · intro hall last hlast
    have hlt := hall last (mem_of_lastCode hlast)
    rw [decide_eq_true_eq] at hlt
    simpa using Nat.ne_of_lt hlt
  · intro hends b hb
    rw [decide_eq_true_eq]
    cases hcode : b.kind.isComment with
    | true => exact (hc b hb).line_lt hcode
    | false =>
      rcases hlast : lastCode seen with - | last
      · have hmem : b ∈ seen.filter fun t ↦ !t.kind.isComment :=
          List.mem_filter.2 ⟨hb, by simp [hcode]⟩
        rw [List.getLast?_eq_none_iff.1 hlast] at hmem
        cases hmem
      · have hle := line_le_of_lastCode hplaced hpairs hlast hb hcode
        have hlastLe := (hc last (mem_of_lastCode hlast)).line_le
        have hne := hends last hlast
        rw [beq_eq_false_iff_ne] at hne
        omega

end Placed

/-- Behind tokens that stand one behind the other an outline is told by the last that is no
comment. -/
theorem outlineBehind_eq (seen : List Token) {tokens : List Token}
    (hplaced : ∀ t ∈ seen ++ tokens, t.WellPlaced)
    (hpairs : (seen ++ tokens).Pairwise Precedes) :
    outlineBehind seen tokens = marks (lastCode seen) tokens := by
  induction tokens generalizing seen with
  | nil => rfl
  | cons t tokens ih =>
    have hassoc : seen ++ t :: tokens = (seen ++ [t]) ++ tokens := by simp
    have hrest := ih (seen ++ [t]) (hassoc ▸ hplaced) (hassoc ▸ hpairs)
    rw [outlineBehind, hrest]
    obtain ⟨hseen, -, hbefore⟩ := List.pairwise_append.1 hpairs
    cases hcode : t.kind.isComment with
    | false => rw [marks_cons hcode, lastCode_append_of_code hcode, Mark.code]; rfl
    | true =>
      obtain ⟨text, htext⟩ := TokenKind.exists_eq_comment hcode
      rw [all_line_lt_eq (fun b hb ↦ hplaced b (List.mem_append_left _ hb)) hseen
        fun b hb ↦ hbefore b hb t List.mem_cons_self, lastCode_append_of_comment hcode,
        marks_comment htext, htext, Mark.comment]
      rfl

/-- The outline of a source is told token by token. -/
theorem outline_eq_marks {source : String} {tokens : List Token}
    (h : Token.tokenize source = .ok tokens) : outline tokens = marks none tokens := by
  obtain ⟨hplaced, hpairs⟩ := Token.wellPlaced_of_tokenize h
  exact outlineBehind_eq [] (fun t ht ↦ (hplaced t ht).2) hpairs

end Token

/-! ### Outlines of views -/

/-- The marks of a view: its comments around its token. -/
def View.marks (v : View) : List Mark :=
  v.leading.map (Mark.comment false) ++ .code v.kind :: (v.trailing.map (Mark.comment true)).toList

/-- The comments around a line stand where they do in the marks of its views. -/
theorem View.IsLine.marks_eq {vs : List View} {comments : List String} {spaced : Bool}
    {lineComment : Option String} (h : View.IsLine vs comments spaced lineComment) :
    vs.flatMap View.marks =
      comments.map (Mark.comment false) ++ (vs.map fun v ↦ .code v.kind) ++
        (lineComment.map (Mark.comment true)).toList := by
  obtain ⟨hunbroken, ⟨v, hv, rfl, -⟩, ⟨w, hw, rfl⟩⟩ := h
  induction vs generalizing v with
  | nil => cases hv
  | cons u vs ih =>
    cases hv
    rw [List.flatMap_cons]
    cases vs with
    | nil =>
      cases hw
      simp [View.marks]
    | cons next vs =>
      rw [List.isChain_cons_cons] at hunbroken
      obtain ⟨⟨htrailing, hleading⟩, hrest⟩ := hunbroken
      rw [List.getLast?_cons_cons] at hw
      rw [ih hrest next rfl hw, hleading, View.marks, htrailing]
      simp

namespace Lexeme

/-- The marks of gathered lexemes, and of the comments that no lexeme follows. -/
def gatheredMarks (gathered : List Lexeme × List Comment) : List Mark :=
  (gathered.1.map view).flatMap View.marks ++
    (gathered.2.map (·.text)).map (Mark.comment false)

/-- A lexeme adds the marks of its view to those of the lexemes behind it. -/
theorem gatheredMarks_cons (l : Lexeme) (gathered : List Lexeme × List Comment) :
    gatheredMarks (l :: gathered.1, gathered.2) = l.view.marks ++ gatheredMarks gathered := by
  simp [gatheredMarks]

/-- In front of a token of code no comment ends the line. -/
theorem trailingComment_of_code {t : Token} (ht : t.kind.isComment = false) (before : Token)
    (tokens : List Token) : trailingComment before (t :: tokens) = none := by
  obtain ⟨kind, start, stop⟩ := t
  cases kind with
  | comment text => cases ht
  | _ => rfl

/-- A comment ends the line of the token before it if it stands on that line. -/
theorem trailingComment_of_comment {t : Token} {text : String} (ht : t.kind = .comment text)
    (before : Token) (tokens : List Token) :
    trailingComment before (t :: tokens) =
      if endsLineOf (some before) t.start then some ⟨text, t.start.toPosition⟩ else none := by
  obtain ⟨kind, start, stop⟩ := t
  cases ht
  rfl

/-- What begins below the end of a token does not end its line. -/
theorem endsLineOf_of_line_lt {b : Token} {place : Location} (h : b.stop.line < place.line) :
    endsLineOf (some b) place = false := by
  rw [endsLineOf, Option.any_some, beq_eq_false_iff_ne]
  exact Nat.ne_of_lt h

/-- What follows a comment begins below its line, and so below that of the token before it. -/
theorem endsLineOf_behind_comment {b t : Token} {tokens : List Token} (hplaced : t.WellPlaced)
    (ht : t.kind.isComment = true) (hb : b.stop.line ≤ t.start.line)
    (hbefore : ∀ u ∈ tokens, t.Precedes u) :
    ∀ u ∈ tokens, endsLineOf (some b) u.start = false := by
  intro u hu
  have hline := (hbefore u hu).line_lt ht
  have hplace := hplaced.line_le
  exact endsLineOf_of_line_lt (by omega)

end Lexeme

/-! ### Comments and the tokens they go with -/

namespace Token

open Lexeme (endsLineOf trailingComment)

/-- The tokens behind a token that is no comment, group by group: a comment is alone, or it ends the
line of the token that it stands behind. -/
inductive Grouped : (before : Option Token) → List Token → Prop
  | nil (before : Option Token) : Grouped before []
  | alone {before : Option Token} {c : Token} {text : String} {ts : List Token}
      (comment : c.kind = .comment text) (below : endsLineOf before c.start = false)
      (rest : Grouped before ts) : Grouped before (c :: ts)
  | plain {before : Option Token} {t : Token} {ts : List Token} (code : t.kind.isComment = false)
      (noComment : trailingComment t ts = none) (rest : Grouped (some t) ts) :
      Grouped before (t :: ts)
  | remarked {before : Option Token} {t c : Token} {text : String} {ts : List Token}
      (code : t.kind.isComment = false) (comment : c.kind = .comment text)
      (sameLine : endsLineOf (some t) c.start = true) (rest : Grouped (some t) ts) :
      Grouped before (t :: c :: ts)

/-- Tokens that stand one behind the other are grouped behind a token on whose line they do not
begin with a comment. -/
theorem grouped_of_placed : ∀ {before : Option Token} {tokens : List Token},
    (∀ t ∈ tokens, t.WellPlaced) → tokens.Pairwise Precedes →
    (∀ b ∈ before, ∀ t ∈ tokens.head?, t.kind.isComment = true → b.stop.line < t.start.line) →
    Grouped before tokens
  | before, [], _, _, _ => .nil before
  | before, t :: tokens, hplaced, hpairs, hbelow => by
    rw [List.forall_mem_cons] at hplaced
    rw [List.pairwise_cons] at hpairs
    cases hkind : t.kind.isComment with
    | true =>
      obtain ⟨text, htext⟩ := TokenKind.exists_eq_comment hkind
      refine .alone htext ?_ (grouped_of_placed hplaced.2 hpairs.2 fun b hb u hu _ ↦ ?_)
      · cases before with
        | none => rfl
        | some b => exact Lexeme.endsLineOf_of_line_lt (hbelow b rfl t rfl hkind)
      · have ht := hbelow b hb t rfl hkind
        have hline := hplaced.1.line_le
        have hu := (hpairs.1 u (List.mem_of_mem_head? hu)).line_le
        omega
    | false =>
      cases tokens with
      | nil => exact .plain hkind rfl (.nil _)
      | cons u tokens =>
        have hle := (hpairs.1 u List.mem_cons_self).line_le
        cases hu : u.kind.isComment with
        | false =>
          refine .plain hkind (Lexeme.trailingComment_of_code hu t tokens)
            (grouped_of_placed hplaced.2 hpairs.2 ?_)
          rintro b - w ⟨⟩ hw
          rw [hu] at hw
          cases hw
        | true =>
          obtain ⟨text, htext⟩ := TokenKind.exists_eq_comment hu
          cases hends : endsLineOf (some t) u.start with
          | false =>
            refine .plain hkind ?_ (grouped_of_placed hplaced.2 hpairs.2 ?_)
            · rw [Lexeme.trailingComment_of_comment htext, hends]
              rfl
            · rintro b ⟨⟩ w ⟨⟩ -
              rw [endsLineOf, Option.any_some, beq_eq_false_iff_ne] at hends
              exact Nat.lt_of_le_of_ne hle hends
          | true =>
            -- what follows the comment begins below the line that it ends
            rw [List.forall_mem_cons] at hplaced
            obtain ⟨hplaced, huPlaced, hrest⟩ := hplaced
            rw [List.pairwise_cons] at hpairs
            refine .remarked hkind htext hends (grouped_of_placed hrest hpairs.2.2 ?_)
            rintro b ⟨⟩ w hw -
            have hlt := (hpairs.2.1 w (List.mem_of_mem_head? hw)).line_lt hu
            have hline := huPlaced.line_le
            omega

/-- The tokens of a source are gathered into lexemes and comments as the loop gathers them. -/
theorem grouped_of_tokenize {source : String} {tokens : List Token}
    (h : Token.tokenize source = .ok tokens) : Grouped none tokens := by
  obtain ⟨hplaced, hpairs⟩ := wellPlaced_of_tokenize h
  exact grouped_of_placed (fun t ht ↦ (hplaced t ht).2) hpairs fun b hb ↦ (nomatch hb)

/-- Gathering keeps the marks of the tokens: those of pending comments stay in front, and that of a
comment at the end of a token's line goes with the token. -/
theorem Grouped.gatheredMarks_gather {before : Option Token} {tokens : List Token}
    (h : Grouped before tokens) (pending : List Comment) :
    Lexeme.gatheredMarks (Lexeme.gather before pending tokens) =
      (pending.map (·.text)).map (Mark.comment false) ++ marks before tokens := by
  induction h generalizing pending with
  | nil before => simp [Lexeme.gatheredMarks, Lexeme.gather, marks]
  | alone comment below _ ih =>
    rw [Lexeme.gather_comment comment, marks_comment comment, below, if_neg (by simp), ih]
    simp
  | plain code noComment _ ih =>
    rw [Lexeme.gather_cons code, Lexeme.gatheredMarks_cons, marks_cons code, noComment, ih []]
    simp [View.marks, Lexeme.view]
  | remarked code comment sameLine _ ih =>
    rw [Lexeme.gather_cons code, Lexeme.gatheredMarks_cons, marks_cons code, marks_comment comment,
      Lexeme.trailingComment_of_comment comment, Lexeme.gather_comment comment, sameLine,
      if_pos rfl, if_pos rfl, ih []]
    simp [View.marks, Lexeme.view]

end Token

/-- The outline of a text is that of its lexemes. -/
theorem Token.outline_eq_marks_views {source : String} {tokens : List Token}
    (h : Token.tokenize source = .ok tokens) :
    outline tokens =
      ((Document.ofTokens tokens).lexemes.map Lexeme.view).flatMap View.marks ++
        ((Document.ofTokens tokens).closing.map (·.text)).map (Mark.comment false) := by
  rw [outline_eq_marks h]
  exact ((grouped_of_tokenize h).gatheredMarks_gather []).symm

end ModelSignatures
