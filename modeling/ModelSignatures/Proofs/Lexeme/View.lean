import Mathlib.Data.List.Chain
import ModelSignatures.Reading

/-!
# What the grammar sees of a lexeme

A reader that succeeds has looked at no more of a lexeme than its *view*: its kind, the texts of the
comments around it, and two truth values on the layout before it. The grammar is therefore a
relation on lists of views, and inside a header or a member, where no comment may stand, a relation
on the still smaller *pieces*. `View.IsLine` says of a header or a member which comments it has.
-/

namespace ModelSignatures

/-- A token and whether it begins where the token before it ends. -/
structure Piece where
  kind : TokenKind
  glued : Bool
deriving DecidableEq, Repr

/-- A lexeme without the places of its token and of its comments. -/
structure View extends Piece where
  /-- The comments on the lines before the token. -/
  leading : List String
  /-- The comment at the end of the token's last line. -/
  trailing : Option String
  /-- Whether an empty line lies above the token and its comments. -/
  spaced : Bool
deriving DecidableEq, Repr

/-- What the grammar sees of a lexeme. -/
def Lexeme.view (l : Lexeme) : View where
  kind := l.kind
  glued := l.glued
  leading := l.leading.map (·.text)
  trailing := l.trailing.map (·.text)
  spaced := l.spaced

/-- The lexeme without anything but its token. -/
def Lexeme.piece (l : Lexeme) : Piece := l.view.toPiece

@[simp] theorem Lexeme.kind_view (l : Lexeme) : l.view.kind = l.kind := rfl

@[simp] theorem Lexeme.toPiece_view (l : Lexeme) : l.view.toPiece = l.piece := rfl

@[simp] theorem Lexeme.kind_piece (l : Lexeme) : l.piece.kind = l.kind := rfl

@[simp] theorem Lexeme.glued_piece (l : Lexeme) : l.piece.glued = l.glued := rfl

/-- A token that is no comment becomes a lexeme. -/
theorem Lexeme.gather_cons {t : Token} (ht : t.kind.isComment = false) (before : Option Token)
    (pending : List Comment) (tokens : List Token) :
    gather before pending (t :: tokens) =
      ({ kind := t.kind
         position := t.start.toPosition
         leading := pending
         trailing := trailingComment t tokens
         glued := before.any (·.isAdjacentTo t)
         spaced := before.any fun b ↦ b.stop.line + 1 < firstLine pending t } ::
          (gather (some t) [] tokens).1, (gather (some t) [] tokens).2) := by
  obtain ⟨kind, start, stop⟩ := t
  cases kind with
  | comment text => cases ht
  | _ => rfl

theorem TokenKind.exists_eq_comment {kind : TokenKind} (h : kind.isComment = true) :
    ∃ text, kind = .comment text := by
  cases kind with
  | comment text => exact ⟨text, rfl⟩
  | _ => cases h

/-- A comment is pending, unless it ends the line of the token before. -/
theorem Lexeme.gather_comment {t : Token} {text : String} (ht : t.kind = .comment text)
    (before : Option Token) (pending : List Comment) (tokens : List Token) :
    gather before pending (t :: tokens) =
      gather before (if endsLineOf before t.start then pending
        else pending ++ [⟨text, t.start.toPosition⟩]) tokens := by
  obtain ⟨kind, start, stop⟩ := t
  cases ht
  cases hends : endsLineOf before start <;> simp [gather, hends]

/-- The comment at the end of a token's line is the one behind it. -/
theorem Lexeme.trailingComment_eq_some {t : Token} {tokens : List Token} {c : Comment}
    (h : trailingComment t tokens = some c) :
    ∃ u ∈ tokens, u.kind = .comment c.text ∧ c.position = u.start.toPosition := by
  unfold trailingComment at h
  split at h
  · split at h
    · cases h
      exact ⟨_, List.mem_cons_self, rfl, rfl⟩
    · cases h
  · cases h

namespace View

/-- Whether some views are those of one header or member: no comment stands between two of them, the
given comments stand above, the given one ends the last line, and an empty line lies above if
`spaced`. -/
structure IsLine (vs : List View) (comments : List String) (spaced : Bool)
    (lineComment : Option String) : Prop where
  unbroken : vs.IsChain fun v w ↦ v.trailing = none ∧ w.leading = []
  head : ∃ v ∈ vs.head?, v.leading = comments ∧ v.spaced = spaced
  last : ∃ v ∈ vs.getLast?, v.trailing = lineComment

end View

namespace Reading

theorem taken_append (pre rest : List Lexeme) : taken (pre ++ rest) rest = pre := by
  rw [taken, List.length_append, Nat.add_sub_cancel, List.take_left]

/-- No comment stands inside some lexemes exactly when their views are unbroken. -/
theorem innerComments_eq_nil_iff (ls : List Lexeme) :
    innerComments ls = [] ↔
      (ls.map Lexeme.view).IsChain fun v w ↦ v.trailing = none ∧ w.leading = [] := by
  induction ls with
  | nil => simp [innerComments]
  | cons l ls ih =>
    cases ls with
    | nil => simp [innerComments]
    | cons next ls =>
      rw [List.map_cons, List.map_cons, List.isChain_cons_cons, ← List.map_cons, ← ih,
        innerComments, List.append_eq_nil_iff, List.append_eq_nil_iff]
      simp [Lexeme.view]

/-- A line is ended without fault, and its comments are found. -/
theorem endOfLine_of_isLine {pre : List Lexeme} {comments : List String} {spaced : Bool}
    {lineComment : Option String}
    (h : View.IsLine (pre.map Lexeme.view) comments spaced lineComment) (rest : List Lexeme) :
    endOfLine (pre ++ rest) rest = .ok lineComment ∧
      leadingComments (pre ++ rest) = comments ∧
      (pre ++ rest).head?.any (·.spaced) = spaced := by
  obtain ⟨v, hv, hleading, hspaced⟩ := h.head
  obtain ⟨w, hw, htrailing⟩ := h.last
  rcases pre with - | ⟨l, pre⟩
  · cases hv
  · cases hv
    refine ⟨?_, hleading, hspaced⟩
    rw [List.getLast?_map, Option.mem_def, Option.map_eq_some_iff] at hw
    obtain ⟨last, hlast, rfl⟩ := hw
    rw [endOfLine, taken_append, (innerComments_eq_nil_iff _).2 h.unbroken, hlast]
    exact congrArg Except.ok htrailing

/-- Only a line is ended without fault. -/
theorem isLine_of_endOfLine {pre rest : List Lexeme} {lineComment : Option String}
    (hne : pre ≠ []) (h : endOfLine (pre ++ rest) rest = .ok lineComment) :
    View.IsLine (pre.map Lexeme.view) (leadingComments (pre ++ rest))
      ((pre ++ rest).head?.any (·.spaced)) lineComment := by
  rw [endOfLine, taken_append] at h
  split at h
  · cases h
  next hinner =>
    rcases pre with - | ⟨l, pre⟩
    · exact absurd rfl hne
    · refine ⟨(innerComments_eq_nil_iff _).1 hinner, ⟨l.view, rfl, rfl, rfl⟩, ?_⟩
      rw [List.getLast?_map]
      obtain ⟨last, hlast⟩ : ∃ last, (l :: pre).getLast? = some last :=
        ⟨_, List.getLast?_eq_some_getLast (List.cons_ne_nil l pre)⟩
      rw [hlast] at h ⊢
      exact ⟨last.view, rfl, Except.ok.inj h⟩

end Reading

end ModelSignatures
