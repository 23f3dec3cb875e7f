import ModelSignatures.Proofs.Signature.Code

/-!
# The lines of declarations and signatures

The layout of a well-formed declaration is made of entries: its header, its members and its end. The
views that they show spell the declaration, each comment in its place.
The induction is on declarations inside declarations; along the members of a body the gap between
two of them is kept.
-/

namespace ModelSignatures

open Layout (tokens word chars Gap Shows shows_nil shows_entry entry endsWord_nil OpensLine
  opensLine_entry commentLine annotLine lineComment)

/-! ### Views -/

/-- The gap in front of a member has an empty line in it if the member says so. The first member
of a body has none. -/
theorem Layout.exists_gap_of_blank {first blank : Bool} (hfirst : first = true → blank = false)
    {g : Gap} (hg : g.AtLineEnd) :
    ∃ gap, Shows g (if blank && !first then [.blank] else []) [] gap ∧ gap.comments = [] ∧
      (!first && (gap.inside && decide (0 < gap.breaks))) = blank := by
  cases blank with
  | false => exact ⟨g, shows_nil g, hg.comments, by simp [hg.breaks]⟩
  | true =>
    obtain rfl : first = false := by
      by_contra h
      cases hfirst (by simpa using h)
    refine ⟨g.line, fun rest _ ↦ rfl, hg.comments, ?_⟩
    simp [Gap.line, hg.inside]

/-- Whether the declaration shows what spells it wherever it is nested. -/
def Declaration.IsShown (e : Declaration) : Prop :=
  e.WellFormed → e.comments = [] → e.annotations = [] →
    ∀ (depth : Nat) (comments annots : List String) (g : Gap), g.comments = [] →
      ∃ vs g', Shows g (e.layout depth comments annots) vs g' ∧ g'.AtLineEnd ∧
        Phrase.Spells (.declaration comments annots (g.inside && decide (0 < g.breaks)) e) vs

/-- A member shows what spells it in front of other members. -/
theorem Member.shows_layout {m : Member} (hm : m.WellFormed)
    (hnested : ∀ e, m.content = .nested e → e.IsShown) (depth : Nat) {first : Bool} {gap : Gap}
    (hcomments : gap.comments = [])
    (hblank : (!first && (gap.inside && decide (0 < gap.breaks))) = m.blankBefore) :
    ∃ vs g', Shows gap (m.layout depth) vs g' ∧ g'.AtLineEnd ∧
      ∀ ms more, Phrase.Spells (.members false ms) more →
        Phrase.Spells (.members first (m :: ms)) (vs ++ more) := by
  obtain ⟨content, comments, annots, comment, blankBefore⟩ := m
  rw [Member.WellFormed] at hm
  obtain ⟨hcontent, -, -, hnone⟩ := hm
  dsimp only at hblank hnested
  by_cases hline : content.isDeclaration = false
  · obtain ⟨text, more, hcode, hspells⟩ := hcontent.spells hline (2 * depth)
    rw [Member.layout_eq hcontent.legible hline]
    obtain ⟨above, vs, g', hshows, hend, habove, hvs, hisLine⟩ := shows_entry hcomments
      (2 * depth) (2 * depth) comments annots
      (hcontent.isCodeBefore (2 * depth) endsWord_nil).isCode
      ⟨_, more, hcode⟩ comment
    refine ⟨above ++ vs, g', hshows, hend, fun ms others hspelled ↦ ?_⟩
    rw [List.append_assoc, ← hblank]
    exact .lineMember habove (hvs ▸ hspells) hisLine hspelled
  · cases content with
    | nested d =>
      rw [MemberContent.WellFormed] at hcontent
      obtain ⟨hown, hownAnnots, hd⟩ := hcontent
      rw [Member.layout]
      obtain ⟨vs, g', hshows, hend, hspells⟩ :=
        hnested d rfl hd hown hownAnnots depth comments annots gap hcomments
      refine ⟨vs, g', hshows, hend, fun ms others hspelled ↦ ?_⟩
      rw [hnone rfl, ← hblank]
      exact .nestedMember hspells hspelled
    | _ => exact absurd rfl hline

/-- Members show what spells them, if the declarations among them do. -/
theorem Member.shows_layouts {members : List Member} (hmembers : ∀ m ∈ members, m.WellFormed)
    (hnested : ∀ m ∈ members, ∀ e, m.content = .nested e → e.IsShown) (depth : Nat) {first : Bool}
    (hfirst : first = true → ∀ m ∈ members.head?, m.blankBefore = false) {g : Gap}
    (hg : g.AtLineEnd) :
    ∃ vs g', Shows g (Member.layouts members depth first) vs g' ∧ g'.AtLineEnd ∧
      Phrase.Spells (.members first members) vs := by
  induction members generalizing first g with
  | nil => exact ⟨[], g, shows_nil g, hg, .noMember first⟩
  | cons m ms ih =>
    obtain ⟨hm, hothers⟩ := List.forall_mem_cons.1 hmembers
    obtain ⟨hmNested, hothersNested⟩ := List.forall_mem_cons.1 hnested
    obtain ⟨gap, hgap, hcomments, hblank⟩ :=
      Layout.exists_gap_of_blank (fun h ↦ hfirst h m rfl) hg
    obtain ⟨vs, behind, hshows, hbehind, hspells⟩ :=
      Member.shows_layout hm hmNested depth hcomments hblank
    have hlater : false = true → ∀ m ∈ ms.head?, m.blankBefore = false := fun h ↦ nomatch h
    obtain ⟨more, g', hmore, hend, hspelled⟩ := ih hothers hothersNested hlater hbehind
    refine ⟨vs ++ more, g', ?_, hend, hspells ms more hspelled⟩
    rw [Member.layouts]
    have hmember := hgap.append hshows fun rest hrest ↦
      (hm.legible.opensLine_layout depth).trailing_append hrest
    exact hmember.append hmore fun rest hrest ↦
      (Member.opensLine_layouts (fun m hm ↦ (hothers m hm).legible) depth false).trailing_append
        hrest

/-- The line of a header, the members and the line of an `end` show a declaration, if the layout
between the two lines shows members, of which `P` may be known. -/
theorem Layout.shows_declaration {g : Gap} (hg : g.comments = []) (indent outer : Nat)
    (comments annots : List String) {kind : DeclarationKind} {name : TypeName} {header : Layout}
    (hcode : Layout.IsCode header) (hhead : ∃ text more, header = .token (.word text) :: more)
    (hheader : kind.Spells name (tokens header)) (headerComment : Option String) {inner : Layout}
    (hopens : OpensLine inner) {P : List Member → Prop}
    (hinner : ∀ {g : Gap}, g.AtLineEnd → ∃ vs g' ms, P ms ∧ Shows g inner vs g' ∧
      g'.comments = [] ∧ Phrase.Spells (.members true ms) vs)
    (trailingComments : List String) (endComment : Option String) :
    ∃ vs g' ms, P ms ∧
      Shows g (entry indent indent comments annots header headerComment ++
        (inner ++ entry outer indent trailingComments [] (word "end") endComment)) vs g' ∧
      g'.AtLineEnd ∧
      Phrase.Spells (.declaration comments annots (g.inside && decide (0 < g.breaks))
        ⟨kind, name, [], [], headerComment, ms, trailingComments, endComment⟩) vs := by
  obtain ⟨text, more, hhead⟩ := hhead
  obtain ⟨above, vs, behind, hheaderShows, hbehind, habove, hpieces, hline⟩ :=
    shows_entry hg indent indent comments annots hcode ⟨_, more, hhead⟩ headerComment
  obtain ⟨body, last, ms, hms, hbodyShows, hlast, hbody⟩ := hinner hbehind
  have hendCode : Layout.IsCode (word "end") := ⟨rfl, trivial⟩
  obtain ⟨none', ending, g', hendShows, hend, hnone, hending, hendLine⟩ :=
    shows_entry hlast outer indent trailingComments [] hendCode ⟨_, _, rfl⟩ endComment
  rw [List.map_nil, List.map_eq_nil_iff] at hnone
  subst hnone
  obtain ⟨v, rfl, hv⟩ := List.map_eq_singleton_iff.1 hending
  obtain ⟨_, ⟨⟩, hleading, -⟩ := hendLine.head
  obtain ⟨_, ⟨⟩, htrailing⟩ := hendLine.last
  have hlines : ∀ rest, Layout.trailing rest = none →
      Layout.trailing (entry outer indent trailingComments [] (word "end") endComment ++ rest) =
        none :=
    fun rest hrest ↦ (opensLine_entry _ _ _ _ _ _).trailing_append hrest
  have hspells : kind.Spells name (vs.map (·.kind)) := by
    have hkinds := congrArg (List.map Piece.kind) hpieces
    rw [Layout.map_kind_pieces, List.map_map] at hkinds
    rw [show vs.map (·.kind) = _ from hkinds]
    exact hheader
  refine ⟨(above ++ vs) ++ (body ++ [v]), g', ms, hms, ?_, hend, ?_⟩
  · exact hheaderShows.append (hbodyShows.append hendShows hlines) fun rest hrest ↦
      (hopens.append (opensLine_entry _ _ _ _ _ _)).trailing_append hrest
  · rw [← hleading, ← htrailing, List.append_assoc]
    exact .declaration habove hspells hline hbody (congrArg Piece.kind hv)

/-- A well-formed declaration shows what spells it, with the comments and the annotations of the
place where it stands. -/
theorem Declaration.isShown (d : Declaration) : d.IsShown := by
  induction d using Declaration.induction with
  | step d ih =>
    intro h hown hownAnnots depth comments annots g hg
    obtain ⟨kind, name, own, ownAnnots, headerComment, members, trailingComments, endComment⟩ := d
    dsimp only at hown hownAnnots
    subst hown hownAnnots
    rw [Declaration.WellFormed] at h
    obtain ⟨hkind, hname, -, -, hmembers, hfirst, -, -⟩ := h
    rw [Member.allWellFormed_iff] at hmembers
    obtain ⟨text, more, hhead, hheader⟩ := hkind.spells hname
    have hinner : ∀ {g : Gap}, g.AtLineEnd → ∃ vs g' ms, ms = members ∧
        Shows g (Member.layouts members (depth + 1) true) vs g' ∧ g'.comments = [] ∧
          Phrase.Spells (.members true ms) vs := by
      intro g hg
      obtain ⟨vs, g', hshows, hend, hspells⟩ :=
        Member.shows_layouts hmembers ih (depth + 1) (fun _ ↦ hfirst) hg
      exact ⟨vs, g', members, rfl, hshows, hend.comments, hspells⟩
    obtain ⟨vs, g', _, rfl, hshows, hend, hspells⟩ :=
      Layout.shows_declaration hg (2 * depth) (2 * depth + 2) comments annots
        (hkind.isCodeBefore hname endsWord_nil).isCode ⟨text, more, hhead⟩
        hheader headerComment
        (Member.opensLine_layouts (fun m hm ↦ (hmembers m hm).legible) (depth + 1) true) hinner
        trailingComments endComment
    refine ⟨vs, g', ?_, hend, hspells⟩
    rw [Declaration.layout_eq, List.append_nil, List.append_nil]
    exact hshows

end ModelSignatures
