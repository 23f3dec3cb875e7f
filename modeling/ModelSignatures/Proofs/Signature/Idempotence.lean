import ModelSignatures.Proofs.Signature.RoundTrip

/-!
# Formatting twice

Formatting a text that formatting gave changes nothing, provided that its annotations are well
formed. An annotation that clashes with all delimiters is written between braces nevertheless, and
there it is read only up to the first closing brace inside it (`scan_clashing`). So the tree is
lost, and if every annotation stays on its line, then formatting again fails or gives another text:
what is left of the annotation stands behind it on the same line, where formatting writes nothing.
-/

namespace ModelSignatures

open Layout (tokens chars tokensAt AnnotsFit readable_append)

/-! ### An annotation that clashes -/

/-- The text up to the first closing brace, which is what is read of an annotation that clashes. -/
def beforeBrace (text : String) : String :=
  String.ofList (text.toList.takeWhile (· != '}'))

namespace Lexer

theorem exists_brace_of_not_isAnnotText {text : String} (h : ¬IsAnnotText text) :
    delimitersFor text.toList = ('{', '}') ∧ ∃ behind,
      text.toList = (beforeBrace text).toList ++ '}' :: behind := by
  rcases delimitersFor_eq_or text.toList with ⟨-, -, hclosing⟩ | ⟨heq, -⟩
  · exact absurd (isAnnotText_iff.2 hclosing) h
  · refine ⟨heq, ?_⟩
    have hmem : '}' ∈ text.toList := by
      rw [isAnnotText_iff, heq, not_not] at h
      exact h
    rw [beforeBrace, String.toList_ofList]
    have hsplit := List.takeWhile_append_dropWhile (p := (· != '}')) (l := text.toList)
    rcases hdrop : text.toList.dropWhile (· != '}') with - | ⟨c, behind⟩
    · rw [List.dropWhile_eq_nil_iff] at hdrop
      exact absurd (hdrop '}' hmem) (by decide)
    · have hc : c = '}' := by
        have hhead := List.head?_dropWhile_not (· != '}') text.toList
        rw [hdrop] at hhead
        simpa using hhead
      refine ⟨behind, ?_⟩
      rw [hdrop, hc] at hsplit
      exact hsplit.symm

/-- Of an annotation that clashes only the text before its first closing brace is read. -/
theorem scan_clashing {text : String} (h : ¬IsAnnotText text) (rest : List Char) :
    ∃ cs behind, (TokenKind.annot text).spelling ++ rest = '%' :: cs ∧
      text.toList = (beforeBrace text).toList ++ '}' :: behind ∧
      scan '%' cs = .ok ⟨.annot (beforeBrace text),
        '%' :: 'a' :: '{' :: ((beforeBrace text).toList ++ ['}']), behind ++ '}' :: rest⟩ := by
  obtain ⟨hdelimiters, behind, htext⟩ := exists_brace_of_not_isAnnotText h
  have hbefore : '}' ∉ (beforeBrace text).toList := by
    rw [beforeBrace, String.toList_ofList]
    exact not_mem_takeWhile_bne
  refine ⟨'a' :: '{' :: ((beforeBrace text).toList ++ '}' :: (behind ++ '}' :: rest)), behind, ?_,
    htext, ?_⟩
  · rw [TokenKind.spelling, hdelimiters, htext]
    simp
  · have hbraces : ('{', '}') ∈ annotationDelimiters := by decide
    have hscans : Scans '%' _ ⟨_, _, behind ++ '}' :: rest⟩ := .annot hbraces hbefore
    rw [String.ofList_toList] at hscans
    simpa using scan_eq_ok_iff.2 hscans

end Lexer

namespace Layout

/-- In front of the first annotation that clashes all is well. -/
theorem exists_clashing_of_not_annotsFit {layout : Layout} (h : ¬AnnotsFit layout) :
    ∃ before text behind, layout = before ++ .token (.annot text) :: behind ∧ AnnotsFit before ∧
      ¬IsAnnotText text := by
  induction layout with
  | nil => exact absurd (fun text hmem ↦ by cases hmem) h
  | cons item layout ih =>
    by_cases hitem : ∃ text, item = .token (.annot text) ∧ ¬IsAnnotText text
    · obtain ⟨text, rfl, htext⟩ := hitem
      exact ⟨[], text, layout, rfl, fun text hmem ↦ (by cases hmem), htext⟩
    · have hfit : ∀ {more : Layout}, AnnotsFit more → AnnotsFit (item :: more) := by
        intro more hmore text hmem
        cases item with
        | token kind =>
          rcases List.mem_cons.1 hmem with heq | hmem
          · by_contra hclash
            exact hitem ⟨text, by rw [heq], hclash⟩
          · exact hmore text hmem
        | _ => exact hmore text hmem
      obtain ⟨before, text, behind, rfl, hbefore, htext⟩ := ih fun hmore ↦ h (hfit hmore)
      exact ⟨item :: before, text, behind, rfl, hfit hbefore, htext⟩

end Layout

namespace Lexer

/-- What stands behind a place on the same line is the next token. -/
theorem Tokenized.line_eq {place : Location} {line rest : List Char} {found : List Token}
    (h : Tokenized place (line ++ '}' :: rest) found) (hline : '\n' ∉ line) :
    ∃ t more, found = t :: more ∧ t.start.line = place.line := by
  generalize hcs : line ++ '}' :: rest = cs at h
  cases h with
  | blanks blank =>
    have hbrace : '}' ∈ cs := hcs ▸ List.mem_append_right line List.mem_cons_self
    exact absurd (blank '}' hbrace) (by decide)
  | @token _ blanks cs c s tokens blank first scanned behind =>
    -- the brace is no blank, so all blanks are on the line
    have hblanks : '\n' ∉ blanks := by
      rcases List.append_eq_append_iff.1 hcs with ⟨inner, rfl, hinner⟩ | ⟨inner, rfl, -⟩
      · cases inner with
        | nil => simpa using hline
        | cons d inner =>
          obtain rfl := (List.cons.inj hinner).1
          exact absurd (blank '}' (by simp)) (by decide)
      · exact fun hmem ↦ hline (List.mem_append_left _ hmem)
    exact ⟨_, tokens, rfl, Location.line_walk_of_not_mem hblanks⟩

end Lexer

namespace Layout

/-- The first annotation that clashes is read as a shorter one, and what is left of it, unless it
goes on on another line, is read from the same line. -/
theorem tokenize_clashing (indent : Nat) {layout : Layout} (h : layout.Readable ['\n'])
    (hclash : ¬AnnotsFit layout) {found : List Token}
    (hfound : Token.tokenize (text (.line indent :: layout)) = .ok found) :
    ∃ before text behind place t more, layout = before ++ .token (.annot text) :: behind ∧
      ¬IsAnnotText text ∧ found = tokensAt place before ++ t :: more ∧
      t.kind = .annot (beforeBrace text) ∧
      ('\n' ∉ text.toList → ∃ u others, more = u :: others ∧ u.start.line = t.stop.line) := by
  obtain ⟨before, text, behind, rfl, hbefore, htext⟩ := exists_clashing_of_not_annotsFit hclash
  rw [readable_append] at h
  obtain ⟨cs, left, hspelling, hleft, hscan⟩ :=
    Lexer.scan_clashing htext (chars behind ++ ['\n'])
  have hchars : chars (before ++ .token (.annot text) :: behind) ++ ['\n'] =
      chars before ++ '%' :: cs := by
    rw [chars_append, List.append_assoc, ← hspelling, chars_cons, chars_token, List.append_assoc]
  have hreadable : Readable before ('%' :: cs) := by
    have hfirst := h.1
    rwa [chars_cons, chars_token, List.append_assoc, hspelling] at hfirst
  rw [tokenize_text_eq_ok_iff, hchars, Lexer.tokenized_chars_append_iff hreadable hbefore] at hfound
  obtain ⟨rest, rfl, hrest⟩ := hfound
  obtain ⟨more, rfl, hmore⟩ := (Lexer.tokenized_cons_iff (by decide) hscan).1 hrest
  refine ⟨before, text, behind, _, _, more, rfl, htext, rfl, rfl, fun hline ↦ ?_⟩
  obtain ⟨u, others, rfl, hu⟩ := Lexer.Tokenized.line_eq hmore fun hmem ↦ hline (by
    rw [hleft]
    exact List.mem_append_right _ (List.mem_cons_of_mem _ hmem))
  exact ⟨u, others, rfl, hu⟩

/-! ### Annotations end their lines -/

/-- Whether nothing stands behind an annotation on its line. -/
def AnnotsEndLines : Layout → Prop
  | [] => True
  | .token (.annot _) :: layout => OpensLine layout ∧ AnnotsEndLines layout
  | _ :: layout => AnnotsEndLines layout

theorem annotsEndLines_append {code rest : Layout} (hcode : annotTexts (tokens code) = [])
    (hrest : AnnotsEndLines rest) : AnnotsEndLines (code ++ rest) := by
  induction code with
  | nil => exact hrest
  | cons item code ih =>
    cases item with
    | token kind =>
      cases kind with
      | annot text => cases hcode
      | _ => exact ih hcode
    | _ => exact ih hcode

theorem annotsEndLines_entry_append {code rest : Layout} (hcode : annotTexts (tokens code) = [])
    (hrest : AnnotsEndLines rest) (outer indent : Nat) (comments annots : List String)
    (c : Option String) :
    AnnotsEndLines (entry outer indent comments annots code c ++ rest) := by
  have hcomments : annotTexts (tokens (comments.flatMap (commentLine outer))) = [] := by
    induction comments with
    | nil => rfl
    | cons text comments ih => exact ih
  have hline : annotTexts (tokens (lineComment c)) = [] := by
    cases c <;> rfl
  rw [entry, List.append_assoc]
  refine annotsEndLines_append hcomments ?_
  induction annots with
  | nil =>
    rw [List.flatMap_nil, List.nil_append, List.cons_append, List.append_assoc]
    exact annotsEndLines_append hcode (annotsEndLines_append hline hrest)
  | cons text annots ih =>
    refine ⟨?_, ih⟩
    cases annots <;> trivial

/-- Where annotations end their lines, the next token stands on a line below. -/
theorem AnnotsEndLines.isChain_tokensAt {layout : Layout} (h : AnnotsEndLines layout)
    (place : Location) :
    (tokensAt place layout).IsChain fun t u ↦
      ∀ text, t.kind = .annot text → t.stop.line < u.start.line := by
  induction layout generalizing place with
  | nil => exact .nil
  | cons item layout ih =>
    cases item with
    | token kind =>
      rw [tokensAt, List.isChain_cons]
      cases kind with
      | annot text =>
        refine ⟨fun u hu text' _ ↦ ?_, ih h.2 _⟩
        rcases layout with - | ⟨item, layout⟩
        · cases hu
        · cases item with
          | line indent =>
            have hmem : u ∈ tokensAt ((place.walk (TokenKind.annot text).spelling).walk
                (Item.line indent).chars) layout := List.mem_of_mem_head? hu
            have hle := line_le_of_mem_tokensAt hmem
            rw [line_walk_line] at hle
            exact hle
          | blank =>
            have hmem : u ∈ tokensAt ((place.walk (TokenKind.annot text).spelling).walk
                Item.blank.chars) layout := List.mem_of_mem_head? hu
            exact line_le_of_mem_tokensAt hmem
          | space | token => exact h.1.elim
      | _ => exact ⟨fun u _ text htext ↦ (by cases htext), ih h _⟩
    | _ => exact ih h _

end Layout

section AnnotsEndLines

variable {members : List Member} (hmembers : ∀ m ∈ members, m.WellFormed)
  (hnested : ∀ m ∈ members, ∀ e, m.content = .nested e → e.WellFormed →
    ∀ (depth : Nat) (comments annots : List String) (rest : Layout), rest.AnnotsEndLines →
      (e.layout depth comments annots ++ rest).AnnotsEndLines)
include hmembers hnested

theorem Member.annotsEndLines_layouts (depth : Nat) (first : Bool) {rest : Layout}
    (hrest : rest.AnnotsEndLines) :
    (Member.layouts members depth first ++ rest).AnnotsEndLines := by
  induction members generalizing first with
  | nil => exact hrest
  | cons m ms ih =>
    have hmore := ih (fun m hm ↦ hmembers m (List.mem_cons_of_mem _ hm))
      (fun m hm ↦ hnested m (List.mem_cons_of_mem _ hm)) false
    have hblank : annotTexts (tokens (if m.blankBefore && !first then [.blank] else [])) = [] := by
      split <;> rfl
    have hm := hmembers m List.mem_cons_self
    replace hnested := hnested m List.mem_cons_self
    rw [Member.layouts, List.append_assoc, List.append_assoc]
    refine Layout.annotsEndLines_append hblank ?_
    obtain ⟨content, comments, annots, comment, blankBefore⟩ := m
    rw [Member.WellFormed] at hm
    by_cases hline : content.isDeclaration = false
    · obtain ⟨-, -, -, hspells⟩ := hm.1.spells hline (2 * depth)
      have hcode := codeClosed_annotTexts.member hspells
      rw [Layout.map_kind_pieces] at hcode
      rw [Member.layout_eq hm.1.legible hline]
      exact Layout.annotsEndLines_entry_append hcode hmore _ _ _ _ _
    · cases content with
      | nested d =>
        have hd := hm.1
        rw [MemberContent.WellFormed] at hd
        rw [Member.layout]
        exact hnested d rfl hd.2.2 depth comments annots _ hmore
      | _ => exact absurd rfl hline

end AnnotsEndLines

theorem Declaration.WellFormed.annotsEndLines {d : Declaration} :
    d.WellFormed → ∀ (depth : Nat) (comments annots : List String) (rest : Layout),
      rest.AnnotsEndLines → (d.layout depth comments annots ++ rest).AnnotsEndLines := by
  induction d using Declaration.induction with
  | step d ih =>
    intro h depth comments annots rest hrest
    obtain ⟨kind, name, own, ownAnnots, headerComment, members, trailingComments, endComment⟩ := d
    rw [Declaration.WellFormed] at h
    obtain ⟨hkind, hname, -, -, hmembers, -⟩ := h
    rw [Member.allWellFormed_iff] at hmembers
    obtain ⟨-, -, -, hspells⟩ := hkind.spells hname
    rw [Declaration.layout_eq, List.append_assoc, List.append_assoc]
    refine Layout.annotsEndLines_entry_append (codeClosed_annotTexts.header hspells) ?_ _ _ _ _ _
    refine Member.annotsEndLines_layouts hmembers ih _ _ ?_
    exact Layout.annotsEndLines_entry_append rfl hrest _ _ _ _ _

theorem Signature.WellShaped.annotsEndLines {s : Signature} (h : s.WellShaped) :
    s.layout.AnnotsEndLines := by
  have hds : ∀ {ds : List Declaration}, (∀ d ∈ ds, d.WellFormed) → ∀ {rest : Layout},
      rest.AnnotsEndLines →
        Layout.AnnotsEndLines (ds.flatMap (fun d ↦ .blank :: d.layout 0 [] []) ++ rest) := by
    intro ds hds rest hrest
    induction ds with
    | nil => exact hrest
    | cons d ds ih =>
      rw [List.flatMap_cons, List.append_assoc]
      exact (hds d List.mem_cons_self).annotsEndLines 0 [] [] _
        (ih fun d hd ↦ hds d (List.mem_cons_of_mem _ hd))
  have hclosing : Layout.AnnotsEndLines
      ((if s.declarations.isEmpty || s.trailingComments.isEmpty then [] else [.blank]) ++
        s.trailingComments.flatMap (Layout.commentLine 0)) := by
    have hcomments : Layout.AnnotsEndLines
        (s.trailingComments.flatMap (Layout.commentLine 0)) := by
      induction s.trailingComments with
      | nil => trivial
      | cons text texts ih => exact ih
    split
    · exact hcomments
    · exact hcomments
  rw [Signature.layout, List.append_assoc]
  obtain ⟨ds, comments⟩ := s
  cases ds with
  | nil => exact hclosing
  | cons d ds =>
    rw [Signature.declarationsLayout_cons, List.append_assoc]
    exact (h.declarations d List.mem_cons_self).annotsEndLines 0 [] [] _
      (hds (fun d hd ↦ h.declarations d (List.mem_cons_of_mem _ hd)) hclosing)

/-! ### Canonical texts -/

namespace Signature

/-- Of the first annotation that clashes something else is read, and the rest of it behind. -/
theorem WellShaped.exists_clashing {s : Signature} (h : s.WellShaped)
    (hclash : ¬∀ text ∈ s.annotations, IsAnnotText text) {found : List Token}
    (hfound : Token.tokenize s.text = .ok found) :
    ∃ before t more text others, found = before ++ t :: more ∧ t.kind = .annot (beforeBrace text) ∧
      ¬IsAnnotText text ∧ s.annotations = annotTexts (before.map (·.kind)) ++ text :: others ∧
      ('\n' ∉ text.toList → ∃ u rest, more = u :: rest ∧ u.start.line = t.stop.line) := by
  have hlayout : ¬s.layout.AnnotsFit := by
    intro hfit
    refine hclash fun text hmem ↦ hfit text ?_
    rw [← h.annotTexts_layout] at hmem
    exact mem_annotTexts.1 hmem
  have hannots := h.annotTexts_layout
  have hreadable := h.readable_views.1
  rcases s.layout_eq_nil_or with heq | ⟨indent, layout, heq⟩
  · rw [heq] at hlayout
    exact absurd (fun text hmem ↦ by cases hmem) hlayout
  · rw [Signature.text, heq] at hfound
    rw [heq] at hlayout hreadable hannots
    rw [Layout.readable_line] at hreadable
    obtain ⟨before, text, behind, place, t, more, rfl, htext, rfl, ht, hline⟩ :=
      Layout.tokenize_clashing indent hreadable (fun hfit ↦ hlayout hfit) hfound
    refine ⟨_, t, more, text, annotTexts (tokens behind), rfl, ht, htext, ?_, hline⟩
    rw [← hannots, Layout.map_kind_tokensAt, Layout.tokens_line, Layout.tokens_append,
      annotTexts_append]
    rfl

/-- A text that is read as the signature that it was written for has no annotation that clashes. -/
theorem WellShaped.isAnnotText_of_parse_text {s : Signature} (h : s.WellShaped)
    (hparse : Signature.parse s.text = .ok s) : ∀ text ∈ s.annotations, IsAnnotText text := by
  by_contra hclash
  obtain ⟨found, hfound, hread⟩ := parse_eq_ok_iff.1 hparse
  obtain ⟨before, t, more, text, others, rfl, ht, htext, hannots, -⟩ :=
    h.exists_clashing hclash hfound
  rw [annotations_of_ofTokens hread, List.map_append, List.map_cons, ht, annotTexts_append]
    at hannots
  have hsame : beforeBrace text = text := (List.cons.inj (List.append_cancel_left hannots)).1
  obtain ⟨-, behind, hbehind⟩ := Lexer.exists_brace_of_not_isAnnotText htext
  rw [hsame] at hbehind
  have hlength := congrArg List.length hbehind
  rw [List.length_append, List.length_cons] at hlength
  omega

/-- The canonical texts are those of well-formed signatures. -/
theorem format_eq_self_iff {t : String} :
    Signature.format t = .ok t ↔ ∃ s : Signature, s.WellFormed ∧ s.text = t := by
  rw [Signature.format, Except.bind_eq_ok_iff]
  constructor
  · rintro ⟨s, hparse, htext⟩
    have heq : s.text = t := Except.ok.inj htext
    have hshaped := wellShaped_of_parse hparse
    rw [← heq] at hparse
    exact ⟨s, ⟨hshaped, hshaped.isAnnotText_of_parse_text hparse⟩, heq⟩
  · rintro ⟨s, hs, rfl⟩
    exact ⟨s, parse_eq_ok_iff.2 hs.ofTokens_text, rfl⟩

/-- The tokens of a canonical text stand where its layout has them. -/
theorem WellFormed.isChain_of_tokenize {s : Signature} (h : s.WellFormed) {found : List Token}
    (hfound : Token.tokenize s.text = .ok found) :
    found.IsChain fun t u ↦ ∀ text, t.kind = .annot text → t.stop.line < u.start.line := by
  have hreadable := h.toWellShaped.readable_views.1
  have hlines := h.toWellShaped.annotsEndLines
  have hfit := h.annotsFit
  rcases s.layout_eq_nil_or with heq | ⟨indent, layout, heq⟩
  · rw [Signature.text, heq, Layout.tokenize_text_nil] at hfound
    cases hfound
    exact .nil
  · rw [heq] at hreadable hlines hfit
    rw [Layout.readable_line] at hreadable
    rw [Signature.text, heq, Layout.tokenize_text indent hreadable hfit.of_cons] at hfound
    cases hfound
    have hbelow : Layout.AnnotsEndLines layout := hlines
    exact hbelow.isChain_tokensAt _

/-- Nothing stands behind an annotation of a canonical text, so no annotation clashed when the text
was written, if they all stay on their lines. -/
theorem WellShaped.isAnnotText_of_format_text {s : Signature} (h : s.WellShaped)
    (hlines : ∀ text ∈ s.annotations, '\n' ∉ text.toList)
    (hformat : Signature.format s.text = .ok s.text) :
    ∀ text ∈ s.annotations, IsAnnotText text := by
  by_contra hclash
  obtain ⟨s', hs', htext⟩ := format_eq_self_iff.1 hformat
  obtain ⟨found, hfound, -⟩ := hs'.ofTokens_text
  have hchain := hs'.isChain_of_tokenize hfound
  rw [htext] at hfound
  obtain ⟨before, t, more, text, others, rfl, ht, -, hannots, hline⟩ :=
    h.exists_clashing hclash hfound
  obtain ⟨u, rest, rfl, hu⟩ := hline (hlines text (by simp [hannots]))
  have hbelow := (List.isChain_cons_cons.1 (List.isChain_append.1 hchain).2.1).1 _ ht
  omega

/-- A text that formatting gives is formatted as itself if the annotations of the source are well
formed, and only then it is still read as the source is. It is formatted as itself exactly if it is
the text of some well-formed signature; where no annotation has a line break inside, that is only if
they are well formed. -/
theorem format_format_iff {source t : String} (h : Signature.format source = .ok t) :
    ∃ s, Signature.parse source = .ok s ∧ s.text = t ∧
      ((∀ text ∈ s.annotations, IsAnnotText text) →
        Signature.format t = .ok t ∧ Signature.isCanonical t = .ok true) ∧
      (Signature.parse t = .ok s ↔ ∀ text ∈ s.annotations, IsAnnotText text) ∧
      (Signature.format t = .ok t ↔ ∃ s' : Signature, s'.WellFormed ∧ s'.text = t) ∧
      ((∀ text ∈ s.annotations, '\n' ∉ text.toList) →
        (Signature.format t = .ok t ↔ ∀ text ∈ s.annotations, IsAnnotText text)) := by
  rw [Signature.format, Except.bind_eq_ok_iff] at h
  obtain ⟨s, hparse, htext⟩ := h
  cases htext
  have hshaped := wellShaped_of_parse hparse
  have hformat : (∀ text ∈ s.annotations, IsAnnotText text) →
      Signature.format s.text = .ok s.text :=
    fun hannots ↦ format_eq_self_iff.2 ⟨s, ⟨hshaped, hannots⟩, rfl⟩
  refine ⟨s, hparse, rfl, fun hannots ↦ ⟨hformat hannots, ?_⟩,
    ⟨hshaped.isAnnotText_of_parse_text, fun hannots ↦ ?_⟩, format_eq_self_iff, fun hlines ↦
      ⟨hshaped.isAnnotText_of_format_text hlines, hformat⟩⟩
  · rw [Signature.isCanonical, hformat hannots]
    exact congrArg Except.ok (beq_self_eq_true s.text)
  · exact parse_eq_ok_iff.2 (WellFormed.ofTokens_text ⟨hshaped, hannots⟩)

/-- An annotation in angle brackets is written in braces, and a comment behind an optional union
stays where it is. -/
theorem format_format_sample :
    ∃ s, Signature.parse "%a<pure> class A\n  def b: () -> ((B|C)?)? # c\nend" = .ok s ∧
      s.text = "%a{pure}\nclass A\n  def b: () -> (B | C)? # c\nend\n" ∧
      ((∀ text ∈ s.annotations, IsAnnotText text) →
        Signature.format s.text = .ok s.text ∧ Signature.isCanonical s.text = .ok true) := by
  have hformat : Signature.format "%a<pure> class A\n  def b: () -> ((B|C)?)? # c\nend" =
      .ok "%a{pure}\nclass A\n  def b: () -> (B | C)? # c\nend\n" := by
    decide +kernel
  obtain ⟨s, hparse, htext, hcanonical, -⟩ := format_format_iff hformat
  exact ⟨s, hparse, htext, by rwa [htext]⟩

/-- A text that has the closing brace and one character of each other pair of delimiters is written
in braces, where it ends too early. -/
theorem format_clashing_annotation :
    Signature.format "%a<\x7d()[]<|>\nclass A\nend\n" =
        .ok "%a\x7b\x7d()[]<|\x7d\nclass A\nend\n" ∧
      ∃ error, Signature.format "%a\x7b\x7d()[]<|\x7d\nclass A\nend\n" = .error error := by
  exact ⟨by decide +kernel, ⟨⟨1, 5⟩, .unexpectedToken .classOrModule
    (some (.symbol .leftParen))⟩, by decide +kernel⟩

end Signature

end ModelSignatures
