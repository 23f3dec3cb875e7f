import ModelSignatures.Proofs.Generator.Declared
import ModelSignatures.Proofs.Signature.Lines
import ModelSignatures.Proofs.Signature.Annotations

/-!
# Drafts

A draft is a text of members that is not in canonical layout: lines without indentation, with empty
lines anywhere. It is laid out in a way of its own, and that layout shows its members all the same
(`shows_draft`), because the grammar sees neither indentation nor how many empty lines there are. So
a draft is told by its paragraphs (`IsDraft`).
-/

namespace ModelSignatures

open Layout (tokens word chars pieces entry IsCodeBefore EndsWord EndsLine OpensLine Gap Shows
  endsWord_nil shows_nil shows_entry opensLine_entry opensLine_entry_append readable_entry
  readable_append)

/-- A member as a draft has it. -/
structure DraftMember where
  annots : List String
  content : MemberContent
  code : Layout

namespace DraftMember

/-- The lines of a member in a draft. -/
def layout (m : DraftMember) : Layout :=
  entry 0 0 [] m.annots m.code none

/-- The member that the draft has. -/
def member (m : DraftMember) (blankBefore : Bool) : Member :=
  { Member.of m.annots m.content with blankBefore }

/-- Whether the code can be read back as the member's content. -/
structure Fits (m : DraftMember) : Prop where
  annots : ∀ text ∈ m.annots, IsAnnotText text
  head : ∃ text more, m.code = .token (.word text) :: more
  code : ∀ {after}, EndsWord after → IsCodeBefore m.code after
  spelled : m.content.Spells (pieces false m.code)

/-- The annotations of a fitting member are well formed. -/
theorem Fits.annotsFit {m : DraftMember} (h : m.Fits) : m.layout.AnnotsFit := by
  have hcode := codeClosed_annotTexts.member h.spelled
  rw [Layout.map_kind_pieces] at hcode
  intro text hmem
  refine h.annots text ?_
  have htexts : annotTexts (tokens m.layout) = m.annots := by
    have hlines : annotTexts (tokens (m.annots.flatMap (Layout.annotLine 0))) = m.annots := by
      induction m.annots with
      | nil => rfl
      | cons text texts ih => exact congrArg (text :: ·) ih
    simp [layout, entry, hlines, hcode, Layout.lineComment]
  rw [← htexts]
  exact mem_annotTexts.2 hmem

end DraftMember

/-- The layout of a draft of members and empty lines. -/
def draftLayout (items : List (Option DraftMember)) : Layout :=
  items.flatMap fun item ↦
    match item with
    | some m => m.layout
    | none => [.blank]

@[simp] theorem draftLayout_nil : draftLayout [] = [] := rfl

@[simp] theorem draftLayout_none (items : List (Option DraftMember)) :
    draftLayout (none :: items) = .blank :: draftLayout items := rfl

@[simp] theorem draftLayout_some (m : DraftMember) (items : List (Option DraftMember)) :
    draftLayout (some m :: items) = m.layout ++ draftLayout items := rfl

/-- A draft of some members and then others is their drafts one behind the other. -/
@[simp] theorem draftLayout_append (first second : List (Option DraftMember)) :
    draftLayout (first ++ second) = draftLayout first ++ draftLayout second :=
  List.flatMap_append

/-- The members of a draft, where the first has an empty line above it if `spaced`. -/
def draftMembers (first spaced : Bool) : List (Option DraftMember) → List Member
  | [] => []
  | none :: items => draftMembers first true items
  | some m :: items => m.member (!first && spaced) :: draftMembers false false items

/-- Above the first member of a body no empty line is kept. -/
theorem draftMembers_first (spaced : Bool) (items : List (Option DraftMember)) :
    draftMembers true spaced items = draftMembers true true items := by
  cases items with
  | nil => rfl
  | cons item items => cases item <;> rfl

/-- A draft opens a line, unless it is empty. -/
theorem opensLine_draftLayout (items : List (Option DraftMember)) :
    OpensLine (draftLayout items) := by
  cases items with
  | nil => trivial
  | cons item items =>
    cases item with
    | none => trivial
    | some m => exact opensLine_entry_append _ _ _ _ _ _ _

section Fits

variable {items : List (Option DraftMember)} (hitems : ∀ m, some m ∈ items → m.Fits)
include hitems

/-- A draft of fitting members is readable in front of the end of a line. -/
theorem readable_draftLayout {after : List Char} (hafter : EndsLine after) :
    (draftLayout items).Readable after := by
  induction items with
  | nil => trivial
  | cons item items ih =>
    have hrest := ih fun m hm ↦ hitems m (List.mem_cons_of_mem _ hm)
    cases item with
    | none => exact hrest
    | some m =>
      rw [draftLayout_some, readable_append]
      exact ⟨readable_entry (by simp) (fun after hword ↦ (hitems m List.mem_cons_self).code hword)
        (by simp) _ _ _ ((opensLine_draftLayout items).endsLine hafter), hrest⟩

/-- The annotations of a draft of fitting members are well formed. -/
theorem annotsFit_draftLayout : (draftLayout items).AnnotsFit := by
  induction items with
  | nil =>
    intro text hmem
    cases hmem
  | cons item items ih =>
    have hrest := ih fun m hm ↦ hitems m (List.mem_cons_of_mem _ hm)
    cases item with
    | none => exact hrest
    | some m =>
      intro text hmem
      rw [draftLayout_some, Layout.tokens_append, List.mem_append] at hmem
      rcases hmem with hmem | hmem
      · exact (hitems m List.mem_cons_self).annotsFit text hmem
      · exact hrest text hmem

/-- A draft shows its members, in a gap of any height. -/
theorem shows_draft (first : Bool) {g : Gap} (hg : g.comments = [])
    (hinside : first = false → g.inside = true) :
    ∃ vs g', Shows g (draftLayout items) vs g' ∧ g'.comments = [] ∧
      Phrase.Spells (.members first (draftMembers first (decide (0 < g.breaks)) items)) vs := by
  induction items generalizing first g with
  | nil => exact ⟨[], g, shows_nil g, hg, .noMember first⟩
  | cons item items ih =>
    have hrest : ∀ m, some m ∈ items → m.Fits := fun m hm ↦ hitems m (List.mem_cons_of_mem _ hm)
    cases item with
    | none =>
      obtain ⟨vs, g', hshows, hcomments, hspells⟩ := ih hrest first (g := g.line) hg hinside
      rw [show decide (0 < g.line.breaks) = true from decide_eq_true (Nat.succ_pos _)] at hspells
      exact ⟨vs, g', fun rest htrailing ↦ hshows rest htrailing, hcomments, hspells⟩
    | some m =>
      have hm := hitems m List.mem_cons_self
      obtain ⟨text, more, hcode⟩ := hm.head
      obtain ⟨above, vs, behind, hshows, hbehind, habove, hvs, hline⟩ := shows_entry hg 0 0 []
        m.annots (hm.code endsWord_nil).isCode ⟨_, more, hcode⟩ none
      obtain ⟨others, g', hothers, hcomments, hspells⟩ :=
        ih hrest false hbehind.comments fun _ ↦ hbehind.inside
      rw [show decide (0 < behind.breaks) = false by simp [hbehind.breaks]] at hspells
      have hspaced : (!first && (g.inside && decide (0 < g.breaks))) =
          (!first && decide (0 < g.breaks)) := by
        cases first with
        | true => rfl
        | false => rw [hinside rfl, Bool.true_and]
      have hspelled : Phrase.Spells (.members first _) (above ++ (vs ++ others)) :=
        .lineMember habove (hvs ▸ hm.spelled) hline hspells
      rw [hspaced, ← List.append_assoc] at hspelled
      exact ⟨(above ++ vs) ++ others, g', hshows.append hothers fun rest hrest ↦
        (opensLine_draftLayout items).trailing_append hrest, hcomments, hspelled⟩

end Fits

/-! ### Paragraphs -/

/-- Whether the members of a draft are those of the paragraphs, behind any empty line and in front
of one. -/
def HasParagraphs (items : List (Option DraftMember)) (paragraphs : List (List Member)) : Prop :=
  ∀ first more, draftMembers first true (items ++ none :: more) =
    Member.joined first paragraphs ++
      draftMembers (first && paragraphs.all List.isEmpty) true more

theorem hasParagraphs_blank : HasParagraphs [none] [] := by
  intro first more
  simp [draftMembers, Member.joined]

/-- Paragraphs with a blank line between them are those above it and those below. -/
theorem HasParagraphs.apart {items others : List (Option DraftMember)}
    {paragraphs more : List (List Member)} (h : HasParagraphs items paragraphs)
    (hmore : HasParagraphs others more) :
    HasParagraphs (items ++ none :: others) (paragraphs ++ more) := by
  intro first rest
  rw [List.append_assoc, List.cons_append, h, hmore, Member.joined_append, List.append_assoc,
    List.all_append, Bool.and_assoc]

/-- Members one below the other are a paragraph. -/
theorem hasParagraphs_map_some (ms : List DraftMember) :
    HasParagraphs (ms.map some) [ms.map (·.member false)] := by
  have hbelow : ∀ (ms : List DraftMember) more,
      draftMembers false false (ms.map some ++ none :: more) =
        ms.map (·.member false) ++ draftMembers false true more := by
    intro ms more
    induction ms with
    | nil => rfl
    | cons m ms ih => exact congrArg (m.member false :: ·) ih
  intro first more
  cases ms with
  | nil => simp [draftMembers, Member.joined]
  | cons m ms =>
    rw [List.map_cons, List.cons_append, draftMembers, hbelow, Bool.and_true]
    simp [Member.joined, DraftMember.member]

/-- The members of a body are those of its paragraphs. -/
theorem HasParagraphs.draftMembers_eq {items : List (Option DraftMember)}
    {paragraphs : List (List Member)} (h : HasParagraphs items paragraphs) (spaced : Bool) :
    draftMembers true spaced items = Member.joined true paragraphs := by
  have hend : ∀ first spaced (items : List (Option DraftMember)),
      draftMembers first spaced (items ++ [none]) = draftMembers first spaced items := by
    intro first spaced items
    induction items generalizing first spaced with
    | nil => rfl
    | cons item items ih =>
      cases item with
      | none => exact ih first true
      | some m => exact congrArg (m.member _ :: ·) (ih false false)
  rw [draftMembers_first, ← hend, h, draftMembers, List.append_nil]

/-! ### Texts of drafts -/

/-- Whether a text is a draft of the paragraphs. -/
def IsDraft (paragraphs : List (List Member)) (text : String) : Prop :=
  ∃ items, (∀ m, some m ∈ items → DraftMember.Fits m) ∧
    '\n' :: text.toList = chars (draftLayout items) ∧ HasParagraphs items paragraphs

/-- The empty text is a draft of no paragraph. -/
theorem isDraft_empty : IsDraft [] "" :=
  ⟨[none], by simp, rfl, hasParagraphs_blank⟩

/-- Drafts with an empty line between them are a draft of the paragraphs of both. -/
theorem IsDraft.apart {paragraphs more : List (List Member)} {first second : String}
    (hfirst : IsDraft paragraphs first) (hsecond : IsDraft more second) :
    IsDraft (paragraphs ++ more) (first ++ "\n\n" ++ second) := by
  obtain ⟨items, hitems, hchars, hparagraphs⟩ := hfirst
  obtain ⟨others, hothers, hcharsMore, hmore⟩ := hsecond
  refine ⟨items ++ none :: others, ?_, ?_, hparagraphs.apart hmore⟩
  · intro m hm
    rcases List.mem_append.1 hm with hm | hm
    · exact hitems m hm
    · exact hothers m (by simpa using hm)
  · rw [draftLayout_append, draftLayout_none, Layout.chars_append, Layout.chars_cons, ← hchars,
      ← hcharsMore]
    simp [Layout.Item.chars]

/-- Drafts with an empty line between each two of them. -/
theorem isDraft_intercalate {parts : List (List (List Member))} {texts : List String}
    (h : List.Forall₂ IsDraft parts texts) :
    IsDraft parts.flatten ("\n\n".intercalate texts) := by
  induction h with
  | nil => exact isDraft_empty
  | @cons part text parts texts hpart hparts ih =>
    cases hparts with
    | nil => simpa using hpart
    | cons =>
      rw [List.flatten_cons, String.intercalate_cons_cons]
      exact hpart.apart ih

/-- Whether a text is that of the member in a draft. -/
def IsDraftOf (m : Member) (text : String) : Prop :=
  ∃ draft : DraftMember, draft.Fits ∧ draft.member false = m ∧
    '\n' :: text.toList = chars draft.layout

/-- The texts of members one below the other are a paragraph. -/
theorem isDraft_lines {ms : List Member} {texts : List String}
    (h : List.Forall₂ IsDraftOf ms texts) : IsDraft [ms] ("\n".intercalate texts) := by
  by_cases hne : ms = []
  · subst hne
    cases h
    exact ⟨[none], by simp, rfl, fun first more ↦ by simp [draftMembers, Member.joined]⟩
  have hdrafts : ∃ drafts : List DraftMember, (∀ m ∈ drafts, m.Fits) ∧
      drafts.map (·.member false) = ms ∧
        '\n' :: ("\n".intercalate texts).toList = chars (draftLayout (drafts.map some)) := by
    induction h with
    | nil => exact absurd rfl hne
    | @cons m text ms texts hm hms ih =>
      obtain ⟨draft, hfits, rfl, hchars⟩ := hm
      cases hms with
      | nil =>
        refine ⟨[draft], by simpa using hfits, rfl, ?_⟩
        rw [String.intercalate_singleton]
        simpa using hchars
      | cons =>
        obtain ⟨drafts, hall, hmembers, hcharsMore⟩ := ih (List.cons_ne_nil _ _)
        refine ⟨draft :: drafts, List.forall_mem_cons.2 ⟨hfits, hall⟩,
          congrArg (draft.member false :: ·) hmembers, ?_⟩
        rw [String.intercalate_cons_cons, List.map_cons, draftLayout_some, Layout.chars_append,
          ← hchars, ← hcharsMore]
        simp
  obtain ⟨drafts, hfits, rfl, hchars⟩ := hdrafts
  refine ⟨drafts.map some, fun m hm ↦ hfits m ?_, hchars, hasParagraphs_map_some drafts⟩
  simpa using hm

/-- The canonical code of a member is a draft of it. -/
theorem isDraftOf_code {content : MemberContent} (h : content.WellFormed)
    (hline : content.isDeclaration = false) {annots : List String}
    (hannots : ∀ text ∈ annots, IsAnnotText text) {text : String}
    (htext : '\n' :: text.toList =
      chars (annots.flatMap (Layout.annotLine 0) ++ .line 0 :: content.code 0)) :
    IsDraftOf (.of annots content) text := by
  obtain ⟨keyword, more, hcode, hspells⟩ := h.spells hline 0
  refine ⟨⟨annots, content, content.code 0⟩, ⟨hannots, ⟨keyword, more, hcode⟩,
    fun hafter ↦ h.isCodeBefore 0 hafter, hspells⟩, rfl, ?_⟩
  rw [htext, DraftMember.layout, entry]
  simp [Layout.lineComment]

end ModelSignatures
