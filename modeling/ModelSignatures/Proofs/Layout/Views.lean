import ModelSignatures.Lexeme
import ModelSignatures.Proofs.Layout.Tokens
import ModelSignatures.Proofs.Lexeme.View
import ModelSignatures.Proofs.Token.Lexed

/-!
# The views of a laid out text

What the grammar sees of a text can be computed from its layout without any counting of places: it
is enough to keep track of the `Gap` between a place and the token before it (`views_tokensAt`). The
layouts of a signature are put together from entries, each with its comments, its annotations, its
code and the comment at the end of its last line, and `shows_entry` gives the views of an entry.
-/

namespace ModelSignatures

namespace Layout

/-! ### Gaps -/

/-- What stands between a place of a layout and the token before it that is no comment. -/
structure Gap where
  /-- Whether there is a token before. -/
  inside : Bool
  /-- Whether nothing stands between. -/
  touching : Bool
  /-- The line breaks between. -/
  breaks : Nat
  /-- The comments between, but for one on the last line of the token before. -/
  comments : List String
  /-- The line breaks above the first of the comments, or all of them if there is no comment. -/
  top : Nat

namespace Gap

/-- The gap at the start of a text. -/
def start : Gap := ⟨false, false, 0, [], 0⟩

/-- The gap behind a token that is no comment. -/
def behindToken : Gap := ⟨true, true, 0, [], 0⟩

/-- The gap with a space more. -/
def space (g : Gap) : Gap :=
  { g with touching := false }

/-- The gap with a line break more. -/
def line (g : Gap) : Gap :=
  { g with
    touching := false
    breaks := g.breaks + 1
    top := if g.comments.isEmpty then g.breaks + 1 else g.top }

/-- The gap with a comment more. -/
def comment (g : Gap) (text : String) : Gap :=
  if g.inside && g.breaks == 0 then g.space else { g.space with comments := g.comments ++ [text] }

/-- The view of a token behind the gap. -/
def view (g : Gap) (kind : TokenKind) (trailing : Option String) : View where
  kind
  glued := g.inside && g.touching
  leading := g.comments
  trailing
  spaced := g.inside && decide (1 < g.top)

end Gap

/-- The comment that stands on the line of the token before the layout. -/
def trailing : Layout → Option String
  | .space :: layout => trailing layout
  | .token (.comment text) :: _ => some text
  | _ => none

/-- The views of the tokens of a layout behind a gap, and the comments that no token follows. -/
def views (g : Gap) : Layout → List View × List String
  | [] => ([], g.comments)
  | .line _ :: layout => views g.line layout
  | .blank :: layout => views g.line layout
  | .space :: layout => views g.space layout
  | .token (.comment text) :: layout => views (g.comment text) layout
  | .token kind :: layout =>
    let (vs, closing) := views .behindToken layout
    (g.view kind (trailing layout) :: vs, closing)

/-- The views of a layout are those of its tokens, but for the comments. -/
theorem map_kind_views (g : Gap) (layout : Layout) :
    (views g layout).1.map (·.kind) = (tokens layout).filter fun kind ↦ !kind.isComment := by
  induction layout generalizing g with
  | nil => rfl
  | cons item layout ih =>
    cases item with
    | token kind =>
      cases kind with
      | comment text => exact ih _
      | _ => exact congrArg (_ :: ·) (ih _)
    | _ => exact ih _

/-! ### From places to gaps -/

/-- The line on which the comments above a place begin, or that of the place if there are none. -/
def topLine (pending : List Comment) (place : Location) : Nat :=
  match pending with
  | comment :: _ => comment.position.line
  | [] => place.line

/-- Whether the gap is that between the place and the token before it, where the comments between
are pending. -/
structure Gap.Measures (g : Gap) (before : Option Token) (pending : List Comment)
    (place : Location) : Prop where
  inside : g.inside = before.isSome
  comments : g.comments = pending.map (·.text)
  touching : ∀ b ∈ before, b.stop.offset ≤ place.offset ∧
    (g.touching = true ↔ b.stop.offset = place.offset)
  breaks : ∀ b ∈ before, place.line = b.stop.line + g.breaks
  top : ∀ b ∈ before, topLine pending place = b.stop.line + g.top

/-- Behind a token the gap is that which nothing stands in. -/
theorem Gap.measures_behindToken (t : Token) : Gap.behindToken.Measures (some t) [] t.stop := by
  refine ⟨rfl, rfl, fun b hb ↦ ?_, fun b hb ↦ ?_, fun b hb ↦ ?_⟩
  · cases hb
    exact ⟨Nat.le_refl _, iff_of_true rfl rfl⟩
  · cases hb
    rfl
  · cases hb
    rfl

section Measures

variable {g : Gap} {before : Option Token} {pending : List Comment} {place next : Location}

/-- A space keeps the lines between, but parts what stands on its two sides. -/
theorem Gap.Measures.space (h : g.Measures before pending place) (hline : next.line = place.line)
    (hoffset : place.offset < next.offset) : g.space.Measures before pending next := by
  refine ⟨h.inside, h.comments, fun b hb ↦ ?_, fun b hb ↦ ?_, fun b hb ↦ ?_⟩
  · have hle := (h.touching b hb).1
    refine ⟨by omega, iff_of_false (by simp [Gap.space]) (by omega)⟩
  · rw [hline]
    exact h.breaks b hb
  · have htop := h.top b hb
    cases pending with
    | nil => exact hline.trans htop
    | cons comment pending => exact htop

/-- A line break adds a line to those between. -/
theorem Gap.Measures.line (h : g.Measures before pending place)
    (hline : next.line = place.line + 1) (hoffset : place.offset < next.offset) :
    g.line.Measures before pending next := by
  refine ⟨h.inside, h.comments, fun b hb ↦ ?_, fun b hb ↦ ?_, fun b hb ↦ ?_⟩
  · have hle := (h.touching b hb).1
    refine ⟨by omega, iff_of_false (by simp [Gap.line]) (by omega)⟩
  · rw [hline, h.breaks b hb]
    rfl
  · have htop := h.top b hb
    cases pending with
    | nil =>
      have htop : g.line.top = g.breaks + 1 := by simp [Gap.line, h.comments]
      rw [topLine, htop, hline, h.breaks b hb]
      rfl
    | cons comment pending =>
      have hsame : g.line.top = g.top := by simp [Gap.line, h.comments]
      rw [hsame]
      exact htop

/-- A comment either stands on the line of the token before, or is pending. -/
theorem Gap.Measures.comment (h : g.Measures before pending place) (text : String)
    (hline : next.line = place.line) (hoffset : place.offset < next.offset) :
    (g.comment text).Measures before
      (if Lexeme.endsLineOf before place then pending else pending ++ [⟨text, place.toPosition⟩])
      next := by
  have hends : (g.inside && g.breaks == 0) = Lexeme.endsLineOf before place := by
    cases before with
    | none =>
      rw [h.inside]
      rfl
    | some b =>
      have hbreaks := h.breaks b rfl
      rw [h.inside, Bool.eq_iff_iff]
      simp only [Lexeme.endsLineOf, Option.isSome_some, Option.any_some, Bool.true_and, beq_iff_eq]
      omega
  have hspace := h.space hline hoffset
  rw [Gap.comment, hends]
  split
  · exact hspace
  · refine ⟨hspace.inside, ?_, hspace.touching, hspace.breaks, fun b hb ↦ ?_⟩
    · rw [List.map_append, ← h.comments]
      rfl
    · have htop := h.top b hb
      cases pending <;> exact htop

end Measures

/-- No token of a layout begins above the place where the layout is written. -/
theorem line_le_of_mem_tokensAt {place : Location} {layout : Layout} {t : Token}
    (h : t ∈ layout.tokensAt place) : place.line ≤ t.start.line := by
  induction layout generalizing place with
  | nil => cases h
  | cons item layout ih =>
    cases item with
    | token kind =>
      rcases List.mem_cons.1 h with rfl | h
      · exact Nat.le_refl _
      · exact Nat.le_trans (Location.line_le_walk _ _) (ih h)
    | _ => exact Nat.le_trans (Location.line_le_walk _ _) (ih h)

theorem line_walk_line (place : Location) (indent : Nat) :
    (place.walk (Item.line indent).chars).line = place.line + 1 := by
  rw [Item.chars, Location.walk_cons, Location.line_walk_of_not_mem (by simp), Location.step,
    if_pos rfl]

/-- The comment at the end of a token's line can be told from the layout. -/
theorem trailingComment_tokensAt {t : Token} {place : Location} (h : place.line = t.stop.line)
    (layout : Layout) :
    (Lexeme.trailingComment t (layout.tokensAt place)).map (·.text) = trailing layout := by
  have hbelow : ∀ {layout : Layout} (place : Location), t.stop.line < place.line →
      (Lexeme.trailingComment t (tokensAt place layout)).map (·.text) = none := by
    intro layout place hlt
    rcases htokens : tokensAt place layout with - | ⟨u, tokens⟩
    · rfl
    · have hline := line_le_of_mem_tokensAt
        (htokens ▸ List.mem_cons_self : u ∈ layout.tokensAt place)
      obtain ⟨kind, start, stop⟩ := u
      cases kind with
      | comment text =>
        have hne : (t.stop.line == start.line) = false := by
          rw [beq_eq_false_iff_ne]
          exact Nat.ne_of_lt (Nat.lt_of_lt_of_le hlt hline)
        simp [Lexeme.trailingComment, Lexeme.endsLineOf, hne]
      | _ => rfl
  induction layout generalizing place with
  | nil => rfl
  | cons item layout ih =>
    cases item with
    | line indent =>
      refine hbelow (place.walk (Item.line indent).chars) ?_
      rw [line_walk_line]
      omega
    | blank =>
      refine hbelow (place.walk Item.blank.chars) ?_
      show _ < place.line + 1
      omega
    | space => exact ih h
    | token kind =>
      cases kind with
      | comment text => simp [tokensAt, trailing, Lexeme.trailingComment, Lexeme.endsLineOf, h]
      | _ => rfl

/-- The view of a token is told by the gap before it and by the comment behind it on its line. -/
@[simp] theorem views_token {kind : TokenKind} (hkind : kind.isComment = false) (g : Gap)
    (layout : Layout) : views g (.token kind :: layout) =
      (g.view kind (trailing layout) :: (views .behindToken layout).1,
        (views .behindToken layout).2) := by
  cases kind with
  | comment text => cases hkind
  | _ => rfl

/-- A token that is no comment has the view that its gap tells. -/
theorem Gap.Measures.views_token {g : Gap} {before : Option Token} {pending : List Comment}
    {place : Location} (h : g.Measures before pending place) {kind : TokenKind}
    (hkind : kind.isComment = false) {layout : Layout}
    (hbehind :
      ((Lexeme.gather (some ⟨kind, place, place.walk kind.spelling⟩) []
          (layout.tokensAt (place.walk kind.spelling))).1.map Lexeme.view,
        (Lexeme.gather (some ⟨kind, place, place.walk kind.spelling⟩) []
          (layout.tokensAt (place.walk kind.spelling))).2.map (·.text)) =
            views .behindToken layout) :
    ((Lexeme.gather before pending (tokensAt place (.token kind :: layout))).1.map Lexeme.view,
      (Lexeme.gather before pending (tokensAt place (.token kind :: layout))).2.map (·.text)) =
        views g (.token kind :: layout) := by
  rw [Layout.views_token hkind, ← hbehind, tokensAt, Lexeme.gather_cons hkind, List.map_cons]
  congr 2
  have htrailing : (Lexeme.trailingComment ⟨kind, place, place.walk kind.spelling⟩
      (layout.tokensAt (place.walk kind.spelling))).map (·.text) = trailing layout :=
    trailingComment_tokensAt rfl layout
  have hfirst : Lexeme.firstLine pending ⟨kind, place, place.walk kind.spelling⟩ =
      topLine pending place := by
    cases pending <;> rfl
  simp only [Lexeme.view, Gap.view, View.mk.injEq, Piece.mk.injEq, true_and, h.inside, h.comments,
    htrailing]
  cases before with
  | none => simp
  | some b =>
    have htouching := (h.touching b rfl).2
    have htop := h.top b rfl
    simp only [Option.any_some, Option.isSome_some, Bool.true_and, Token.isAdjacentTo, hfirst, htop]
    refine ⟨?_, ?_⟩
    · rw [Bool.eq_iff_iff, htouching, beq_iff_eq]
    · rw [decide_eq_decide]
      omega

/-- The lexemes of a layout's tokens have the views of the layout. -/
theorem views_tokensAt {layout : Layout}
    (hlayout : ∀ text, .token (.comment text) ∈ layout → '\n' ∉ text.toList) {g : Gap}
    {before : Option Token} {pending : List Comment} {place : Location}
    (h : g.Measures before pending place) :
    ((Lexeme.gather before pending (layout.tokensAt place)).1.map Lexeme.view,
      (Lexeme.gather before pending (layout.tokensAt place)).2.map (·.text)) =
        views g layout := by
  induction layout generalizing g before pending place with
  | nil =>
    rw [views, h.comments]
    rfl
  | cons item layout ih =>
    have hrest : ∀ text, .token (.comment text) ∈ layout → '\n' ∉ text.toList :=
      fun text hmem ↦ hlayout text (List.mem_cons_of_mem _ hmem)
    cases item with
    | line indent =>
      exact ih hrest
        (h.line (line_walk_line place indent) (Location.offset_lt_walk (by simp [Item.chars])))
    | blank => exact ih hrest (h.line rfl (Location.offset_lt_walk (by simp [Item.chars])))
    | space => exact ih hrest (h.space rfl (Location.offset_lt_walk (by simp [Item.chars])))
    | token kind =>
      cases kind with
      | comment text =>
        have hline : (place.walk (TokenKind.comment text).spelling).line = place.line := by
          refine Location.line_walk_of_not_mem ?_
          rw [TokenKind.spelling, List.mem_cons, not_or]
          exact ⟨by decide, hlayout text List.mem_cons_self⟩
        have hnext := h.comment text hline
          (Location.offset_lt_walk (by simp [TokenKind.spelling]))
        rw [tokensAt, Lexeme.gather, views]
        dsimp only
        split
        next hends =>
          rw [if_pos hends] at hnext
          exact ih hrest hnext
        next hends =>
          rw [if_neg hends] at hnext
          exact ih hrest hnext
      | word text => exact h.views_token rfl (ih hrest (Gap.measures_behindToken ⟨_, place, _⟩))
      | symbol s => exact h.views_token rfl (ih hrest (Gap.measures_behindToken ⟨_, place, _⟩))
      | annot text => exact h.views_token rfl (ih hrest (Gap.measures_behindToken ⟨_, place, _⟩))

/-! ### Layouts of code -/

/-- The pieces of a layout without comments, the first of which touches what stands before the
layout if `touching`. -/
def pieces (touching : Bool) : Layout → List Piece
  | [] => []
  | .token kind :: layout => ⟨kind, touching⟩ :: pieces true layout
  | _ :: layout => pieces false layout

/-- The pieces of a layout are its tokens. -/
theorem map_kind_pieces (touching : Bool) (layout : Layout) :
    (pieces touching layout).map Piece.kind = tokens layout := by
  induction layout generalizing touching with
  | nil => rfl
  | cons item layout ih =>
    cases item with
    | token kind =>
      rw [pieces, List.map_cons, ih]
      rfl
    | _ => exact ih false

/-- Whether the layout has no comment, and a token below each of its line breaks. -/
def IsCode : Layout → Prop
  | [] => True
  | .line _ :: layout | .blank :: layout => tokens layout ≠ [] ∧ IsCode layout
  | .space :: layout => IsCode layout
  | .token kind :: layout => kind.isComment = false ∧ IsCode layout

/-- Code goes on behind code. -/
theorem IsCode.append {first second : Layout} (hfirst : IsCode first) (hsecond : IsCode second) :
    IsCode (first ++ second) := by
  induction first with
  | nil => exact hsecond
  | cons item first ih =>
    cases item with
    | line | blank =>
      refine ⟨fun hempty ↦ hfirst.1 ?_, ih hfirst.2⟩
      exact (List.append_eq_nil_iff.1 ((tokens_append first second).symm.trans hempty)).1
    | space => exact ih hfirst
    | token kind => exact ⟨hfirst.1, ih hfirst.2⟩

/-- Whether some layout shows the views between two gaps, where no comment on its last line
follows. -/
def Shows (g : Gap) (layout : Layout) (vs : List View) (g' : Gap) : Prop :=
  ∀ rest, trailing rest = none →
    views g (layout ++ rest) = (vs ++ (views g' rest).1, (views g' rest).2)

theorem shows_nil (g : Gap) : Shows g [] [] g :=
  fun _ _ ↦ rfl

/-- What two layouts show is shown by the one behind the other, if the second does not take a
comment that the first would have at its end. -/
theorem Shows.append {g g' g'' : Gap} {first second : Layout} {vs ws : List View}
    (hfirst : Shows g first vs g') (hsecond : Shows g' second ws g'')
    (hbreak : ∀ rest, trailing rest = none → trailing (second ++ rest) = none) :
    Shows g (first ++ second) (vs ++ ws) g'' := by
  intro rest hrest
  rw [List.append_assoc, hfirst _ (hbreak rest hrest), hsecond rest hrest, List.append_assoc]

/-- Whether a line ends at the gap. -/
structure Gap.AtLineEnd (g : Gap) : Prop where
  inside : g.inside = true
  breaks : g.breaks = 0
  comments : g.comments = []

/-- Behind a token its line may end. -/
theorem Gap.atLineEnd_behindToken : Gap.behindToken.AtLineEnd :=
  ⟨rfl, rfl, rfl⟩

/-- A comment at the end of a line shows nothing of its own, and ends the line. -/
theorem shows_lineComment {g : Gap} (hg : g.AtLineEnd) (c : Option String) :
    ∃ g', Shows g (lineComment c) [] g' ∧ g'.AtLineEnd := by
  cases c with
  | none => exact ⟨g, shows_nil g, hg⟩
  | some text =>
    refine ⟨g.space.space, fun rest _ ↦ ?_, ⟨hg.inside, hg.breaks, hg.comments⟩⟩
    have hcomment : g.space.comment text = g.space.space := by
      rw [Gap.comment, if_pos]
      rw [show g.space.inside = true from hg.inside, show g.space.breaks = 0 from hg.breaks]
      rfl
    show views (g.space.comment text) rest = _
    rw [hcomment, List.nil_append]

/-- The comment at the end of a line is the one that is read behind it. -/
theorem trailing_lineComment (c : Option String) {rest : Layout} (hrest : trailing rest = none) :
    trailing (lineComment c ++ rest) = c := by
  cases c with
  | none => exact hrest
  | some text => rfl

/-- The comment behind code belongs to the last token of the code. -/
theorem IsCode.trailing_append {layout : Layout} (h : IsCode layout) (c : Option String)
    {rest : Layout} (hrest : trailing rest = none) :
    trailing (layout ++ (lineComment c ++ rest)) = if tokens layout = [] then c else none := by
  induction layout with
  | nil => exact trailing_lineComment c hrest
  | cons item layout ih =>
    cases item with
    | line | blank => exact (if_neg h.1).symm
    | space => exact ih h
    | token kind =>
      cases kind with
      | comment => cases h.1
      | _ => rfl

/-- What no token stands in front of the comment at the end of a line shows nothing. -/
theorem IsCode.shows_of_tokens_eq_nil {layout : Layout} (h : IsCode layout)
    (hempty : tokens layout = []) {g : Gap} (hg : g.AtLineEnd) (c : Option String) :
    ∃ g', Shows g (layout ++ lineComment c) [] g' ∧ g'.AtLineEnd := by
  induction layout generalizing g with
  | nil => exact shows_lineComment hg c
  | cons item layout ih =>
    cases item with
    | line | blank => exact absurd hempty h.1
    | space => exact ih h hempty (g := g.space) ⟨hg.inside, hg.breaks, hg.comments⟩
    | token kind => cases hempty

end Layout

namespace View

/-- A token is a line of its own, with the comments around it. -/
theorem IsLine.singleton {v : View} : IsLine [v] v.leading v.spaced v.trailing :=
  ⟨.singleton v, ⟨v, rfl, rfl, rfl⟩, ⟨v, rfl, rfl⟩⟩

/-- A token without a comment behind it stands on the line of the tokens that follow it. -/
theorem IsLine.cons {v : View} {vs : List View} {spaced : Bool} {lineComment : Option String}
    (h : IsLine vs [] spaced lineComment) (hv : v.trailing = none) :
    IsLine (v :: vs) v.leading v.spaced lineComment := by
  obtain ⟨w, hw, hleading, -⟩ := h.head
  refine ⟨h.unbroken.cons fun w' hw' ↦ ?_, ⟨v, rfl, rfl, rfl⟩, ?_⟩
  · cases Option.mem_unique hw hw'
    exact ⟨hv, hleading⟩
  · obtain ⟨u, hu, htrailing⟩ := h.last
    cases vs with
    | nil => cases hw
    | cons w' vs => exact ⟨u, by rwa [List.getLast?_cons_cons], htrailing⟩

end View

namespace Layout

/-- Code with a comment at its end shows one line. -/
theorem IsCode.shows {layout : Layout} (h : IsCode layout) (hne : tokens layout ≠ []) (g : Gap)
    (c : Option String) :
    ∃ vs g' spaced, Shows g (layout ++ lineComment c) vs g' ∧ g'.AtLineEnd ∧
      vs.map View.toPiece = pieces (g.inside && g.touching) layout ∧
      View.IsLine vs g.comments spaced c ∧
      ∀ kind more, layout = .token kind :: more → spaced = (g.inside && decide (1 < g.top)) := by
  induction layout generalizing g with
  | nil => exact absurd rfl hne
  | cons item layout ih =>
    cases item with
    | line | blank =>
      obtain ⟨vs, g', spaced, hshows, hend, hpieces, hline, -⟩ := ih h.2 h.1 g.line
      refine ⟨vs, g', spaced, hshows, hend, ?_, hline, by simp⟩
      rw [hpieces, show g.line.touching = false from rfl, Bool.and_false]
      rfl
    | space =>
      obtain ⟨vs, g', spaced, hshows, hend, hpieces, hline, -⟩ := ih h hne g.space
      refine ⟨vs, g', spaced, hshows, hend, ?_, hline, by simp⟩
      rw [hpieces, show g.space.touching = false from rfl, Bool.and_false]
      rfl
    | token kind =>
      -- the comment goes to the token behind which there is none
      by_cases hempty : tokens layout = []
      · obtain ⟨g', hshows, hend⟩ :=
          h.2.shows_of_tokens_eq_nil hempty Gap.atLineEnd_behindToken c
        refine ⟨[g.view kind c], g', _, fun rest hrest ↦ ?_, hend, ?_, View.IsLine.singleton,
          fun _ _ _ ↦ rfl⟩
        · have hcomment := h.2.trailing_append c hrest
          rw [if_pos hempty, ← List.append_assoc] at hcomment
          rw [List.cons_append, List.cons_append, views_token h.1, hcomment, hshows rest hrest]
          rfl
        · have hnone : pieces true layout = [] := by
            rw [← List.map_eq_nil_iff, map_kind_pieces, hempty]
          rw [pieces, hnone]
          rfl
      · obtain ⟨vs, g', spaced, hshows, hend, hpieces, hline, -⟩ :=
          ih h.2 hempty Gap.behindToken
        refine ⟨g.view kind none :: vs, g', _, fun rest hrest ↦ ?_, hend, ?_, hline.cons rfl,
          fun _ _ _ ↦ rfl⟩
        · have hcomment := h.2.trailing_append c hrest
          rw [if_neg hempty, ← List.append_assoc] at hcomment
          rw [List.cons_append, List.cons_append, views_token h.1, hcomment, hshows rest hrest]
          rfl
        · rw [List.map_cons, hpieces]
          rfl

/-- The gap behind the comments above an entry. -/
theorem shows_commentLines (indent : Nat) (texts : List String) (g : Gap) :
    ∃ g', (∀ rest, views g (texts.flatMap (commentLine indent) ++ rest) = views g' rest) ∧
      g'.inside = g.inside ∧ g'.comments = g.comments ++ texts ∧ g'.line.top = g.line.top := by
  induction texts generalizing g with
  | nil => exact ⟨g, fun _ ↦ rfl, rfl, by simp, rfl⟩
  | cons text texts ih =>
    obtain ⟨g', hviews, hinside, hcomments, htop⟩ := ih (g.line.comment text)
    have hcomment : g.line.comment text =
        { g.line.space with comments := g.comments ++ [text] } := by
      rw [Gap.comment, if_neg (by simp [Gap.line])]
      rfl
    refine ⟨g', hviews, ?_, ?_, ?_⟩
    · rw [hinside, hcomment]
      rfl
    · rw [hcomments, hcomment]
      simp
    · rw [htop, hcomment]
      simp [Gap.line, Gap.space]

/-- Lines of annotations are code, since no comment stands between them. -/
theorem isCode_annotLines (indent : Nat) (texts : List String) :
    IsCode (texts.flatMap (annotLine indent)) := by
  induction texts with
  | nil => trivial
  | cons text texts ih => exact ⟨by simp, rfl, ih⟩

/-- The annotations of a line are its first pieces, and none of them touches another. -/
theorem pieces_annotLines (indent : Nat) (texts : List String) (layout : Layout) :
    pieces false (texts.flatMap (annotLine indent) ++ .line indent :: layout) =
      texts.map (fun text ↦ ⟨.annot text, false⟩) ++ pieces false layout := by
  induction texts with
  | nil => rfl
  | cons text texts ih =>
    rw [List.map_cons, List.cons_append, ← ih]
    cases texts <;> rfl

/-- Some code with all that belongs to it: the comments and the annotations on the lines above, and
the comment at the end. The comments above the end of a declaration are indented like its
members. -/
def entry (outer indent : Nat) (comments annots : List String) (code : Layout)
    (c : Option String) : Layout :=
  comments.flatMap (commentLine outer) ++
    (annots.flatMap (annotLine indent) ++ .line indent :: (code ++ lineComment c))

/-- An entry shows its annotations and its code, in one line with the comments around them. -/
theorem shows_entry {g : Gap} (hg : g.comments = []) (outer indent : Nat)
    (comments annots : List String) {code : Layout} (hcode : IsCode code)
    (hhead : ∃ kind more, code = .token kind :: more) (c : Option String) :
    ∃ above vs g',
      Shows g (entry outer indent comments annots code c) (above ++ vs) g' ∧ g'.AtLineEnd ∧
      above.map (·.kind) = annots.map .annot ∧ vs.map View.toPiece = pieces false code ∧
      View.IsLine (above ++ vs) comments (g.inside && decide (0 < g.breaks)) c := by
  obtain ⟨kind, more, rfl⟩ := hhead
  obtain ⟨first, hviews, hinside, hcomments, htop⟩ := shows_commentLines outer comments g
  -- the line of the code begins with the first annotation, if there is one
  obtain ⟨kind', behind, hbehind, hbehindCode⟩ : ∃ kind' behind,
      annots.flatMap (annotLine indent) ++ .line indent :: (.token kind :: more) =
        .line indent :: .token kind' :: behind ∧ IsCode (.token kind' :: behind) := by
    have hall : IsCode (annots.flatMap (annotLine indent) ++ .line indent :: .token kind :: more) :=
      (isCode_annotLines indent annots).append ⟨by simp, hcode⟩
    cases annots with
    | nil => exact ⟨kind, more, rfl, hcode⟩
    | cons annot annots => exact ⟨.annot annot, _, rfl, hall.2⟩
  have hpieces : pieces false (.token kind' :: behind) =
      annots.map (fun text ↦ ⟨.annot text, false⟩) ++ pieces false (.token kind :: more) := by
    have h := congrArg (pieces false) hbehind
    rw [pieces_annotLines] at h
    exact h.symm
  obtain ⟨vs, g', spaced, hshows, hend, hvs, hline, hspaced⟩ :=
    hbehindCode.shows (by simp) first.line c
  rw [show (first.line.inside && first.line.touching) = false from Bool.and_false _, hpieces]
    at hvs
  obtain ⟨above, code, rfl, habove, hcodeViews⟩ := List.map_eq_append_iff.1 hvs
  refine ⟨above, code, g', fun rest hrest ↦ ?_, hend, ?_, hcodeViews, ?_⟩
  · have hlayout : annots.flatMap (annotLine indent) ++
        .line indent :: (.token kind :: more ++ lineComment c) =
          .line indent :: (.token kind' :: behind ++ lineComment c) := by
      rw [← List.cons_append, ← List.append_assoc, hbehind, List.cons_append]
    rw [entry, List.append_assoc, hviews, hlayout]
    exact hshows rest hrest
  · have hkinds := congrArg (List.map Piece.kind) habove
    rw [List.map_map, List.map_map] at hkinds
    exact hkinds
  · have hfirst : first.line.comments = comments := by
      rw [show first.line.comments = first.comments from rfl, hcomments, hg, List.nil_append]
    have hspacing : spaced = (g.inside && decide (0 < g.breaks)) := by
      rw [hspaced _ _ rfl, htop, show first.line.inside = g.inside from hinside]
      simp [Gap.line, hg]
    rw [← hfirst, ← hspacing]
    exact hline

/-! ### Lines -/

/-- Whether the layout begins with a line break, if it is not empty. -/
def OpensLine : Layout → Prop
  | [] | .line _ :: _ | .blank :: _ => True
  | _ => False

/-- What opens a line still does with more lines below it. -/
theorem OpensLine.append {first second : Layout} (hfirst : OpensLine first)
    (hsecond : OpensLine second) : OpensLine (first ++ second) := by
  cases first with
  | nil => exact hsecond
  | cons item first => cases item <;> exact hfirst

/-- A layout that opens a line takes no comment of the line above. -/
theorem OpensLine.trailing_append {layout : Layout} (h : OpensLine layout) {rest : Layout}
    (hrest : trailing rest = none) : trailing (layout ++ rest) = none := by
  cases layout with
  | nil => exact hrest
  | cons item layout => cases item <;> first | rfl | cases h

/-- Whether a line ends in front of the given characters. -/
def EndsLine (after : List Char) : Prop :=
  after.head? = some '\n'

/-- In front of a layout that opens a line the line above ends. -/
theorem OpensLine.endsLine {layout : Layout} (h : OpensLine layout) {after : List Char}
    (hafter : EndsLine after) : EndsLine (chars layout ++ after) := by
  cases layout with
  | nil => exact hafter
  | cons item layout => cases item <;> first | rfl | cases h

/-- Comments stand on lines of their own, below the line above. -/
theorem opensLine_commentLines (indent : Nat) (texts : List String) :
    OpensLine (texts.flatMap (commentLine indent)) := by
  cases texts <;> trivial

/-- An entry opens a line with its first comment, with its first annotation or with its code. -/
theorem opensLine_entry_append (outer indent : Nat) (comments annots : List String) (code : Layout)
    (c : Option String) (rest : Layout) :
    OpensLine (entry outer indent comments annots code c ++ rest) := by
  rw [entry, List.append_assoc]
  refine (opensLine_commentLines outer comments).append ?_
  cases annots <;> trivial

theorem opensLine_entry (outer indent : Nat) (comments annots : List String) (code : Layout)
    (c : Option String) : OpensLine (entry outer indent comments annots code c) := by
  have h := opensLine_entry_append outer indent comments annots code c []
  rwa [List.append_nil] at h

/-! ### Texts -/

theorem mem_tokens {kind : TokenKind} {layout : Layout} (h : .token kind ∈ layout) :
    kind ∈ tokens layout :=
  List.mem_filterMap.2 ⟨_, h, rfl⟩

/-- A readable layout of lines is read as the document that it shows. -/
theorem document_text {layout : Layout}
    (hlines : layout = [] ∨ ∃ indent more, layout = .line indent :: more)
    (h : layout.Readable ['\n']) (hannots : layout.AnnotsFit) :
    ∃ found, Token.tokenize (text layout) = .ok found ∧
      ((Document.ofTokens found).lexemes.map Lexeme.view,
        (Document.ofTokens found).closing.map (·.text)) = views .start layout := by
  rcases hlines with rfl | ⟨indent, more, rfl⟩
  · exact ⟨[], tokenize_text_nil, rfl⟩
  · rw [readable_line] at h
    refine ⟨_, tokenize_text indent h hannots.of_cons, ?_⟩
    refine views_tokensAt (fun text hmem ↦ (legible_of_readable h (mem_tokens hmem)).1) ?_
    -- at the start of a text no token is before, so the line break there tells nothing
    exact ⟨rfl, rfl, by simp, by simp, by simp⟩

end Layout

end ModelSignatures
