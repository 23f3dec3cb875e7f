import ModelSignatures.Proofs.Lexeme.Glance
import ModelSignatures.Proofs.Signature.Grammar

/-!
# What a signature tells of the layout

Formatting sees the layout of a text only through the glances at its tokens: two texts at which the
glances are the same are both refused, or both read as the same signature and formatted alike
(`Signature.format_eq_of_glances`). Their tokens may stand on other lines and in other columns, with
other blanks between them, and they may be written in other ways.

That a token touches the one before it matters only for the suffix of the name of a method, which
stands behind a word. So no phrase of the grammar can tell views that agree from each other
(`Phrase.Spells.of_agree`).
-/

namespace ModelSignatures

/-! ### Lists that are split alike -/

theorem Piece.Agree.exists_of_append {b : Bool} {ps qs rs : List Piece}
    (h : Piece.Agree b (ps ++ qs) rs) :
    ∃ ps' qs' c, rs = ps' ++ qs' ∧ Piece.Agree b ps ps' ∧ Piece.Agree c qs qs' :=
  AgreeFrom.exists_of_append h

theorem View.Agree.exists_of_append {b : Bool} {vs ws us : List View}
    (h : View.Agree b (vs ++ ws) us) :
    ∃ vs' ws' c, us = vs' ++ ws' ∧ View.Agree b vs vs' ∧ View.Agree c ws ws' :=
  AgreeFrom.exists_of_append h

/-! ### The grammar of a line -/

/-- The suffix of a name stands behind a word. -/
theorem Method.NameSpells.of_agree {name : String} {ps qs : List Piece} {b : Bool}
    (h : NameSpells name ps) (hagree : Piece.Agree b ps qs) : NameSpells name qs := by
  cases h with
  | plain =>
    obtain - | @⟨_, _, q, _, _, head, ⟨⟩⟩ := hagree
    obtain ⟨kind, glued'⟩ := q
    obtain rfl : TokenKind.word name = kind := head.kind
    exact .plain name glued'
  | @suffixed stem glued s c suffix =>
    obtain - | @⟨_, _, q, _, _, head, - | @⟨_, _, r, _, _, next, ⟨⟩⟩⟩ := hagree
    obtain ⟨kind, glued'⟩ := q
    obtain ⟨kind', glued''⟩ := r
    obtain rfl : TokenKind.word stem = kind := head.kind
    obtain rfl : TokenKind.symbol s = kind' := next.kind
    obtain rfl : true = glued'' := next.glued rfl
    exact .suffixed stem glued' suffix

theorem Method.Spells.of_agree {m : Method} {ps qs : List Piece} {b : Bool} (h : m.Spells ps)
    (hagree : Piece.Agree b ps qs) : m.Spells qs := by
  obtain ⟨marked, named, spelled, repeated, typed⟩ := h
  obtain ⟨self, behind, c, rfl, hself, hbehind⟩ := hagree.exists_of_append
  obtain ⟨stem, signature, d, rfl, hstem, hsignature⟩ := hbehind.exists_of_append
  exact .mk (hself.map_kind ▸ marked) (named.of_agree hstem) spelled repeated
    (hsignature.map_kind ▸ typed)

theorem MemberContent.Spells.of_agree {content : MemberContent} {ps qs : List Piece} {b : Bool}
    (h : content.Spells ps) (hagree : Piece.Agree b ps qs) : content.Spells qs := by
  cases h with
  | including keyword spelled =>
    obtain - | ⟨head, tail⟩ := hagree
    exact .including (head.kind ▸ keyword) (Piece.Agree.map_kind tail ▸ spelled)
  | extending keyword spelled =>
    obtain - | ⟨head, tail⟩ := hagree
    exact .extending (head.kind ▸ keyword) (Piece.Agree.map_kind tail ▸ spelled)
  | attr keyword named spelled typed =>
    obtain - | ⟨head, tail⟩ := hagree
    obtain ⟨stem, signature, c, rfl, hstem, hsignature⟩ := Piece.Agree.exists_of_append tail
    exact .attr (head.kind ▸ keyword) (named.of_agree hstem) spelled (hsignature.map_kind ▸ typed)
  | method keyword spelled =>
    obtain - | ⟨head, tail⟩ := hagree
    exact .method (head.kind ▸ keyword) (spelled.of_agree tail)
  | aliasing keyword new old =>
    obtain - | ⟨head, tail⟩ := hagree
    obtain ⟨newName, oldName, c, rfl, hnew, hold⟩ := Piece.Agree.exists_of_append tail
    exact .aliasing (head.kind ▸ keyword) (new.of_agree hnew) (old.of_agree hold)

/-- Which comments a line has is told by the layout of its views. -/
theorem View.IsLine.of_map_layout {vs ws : List View} {comments : List String} {spaced : Bool}
    {lineComment : Option String} (h : View.IsLine vs comments spaced lineComment)
    (hlayout : vs.map View.layout = ws.map View.layout) :
    View.IsLine ws comments spaced lineComment := by
  obtain ⟨hchain, ⟨v, hv, hleading, hspaced⟩, ⟨w, hw, htrailing⟩⟩ := h
  have hunbroken : ∀ us : List View,
      (us.IsChain fun v w ↦ v.trailing = none ∧ w.leading = []) ↔
        (us.map View.layout).IsChain fun l m ↦ l.2.1 = none ∧ m.1 = [] := fun us ↦
    (List.isChain_map (R := fun l m ↦ l.2.1 = none ∧ m.1 = []) View.layout).symm
  have hhead := congrArg List.head? hlayout
  have hlast := congrArg List.getLast? hlayout
  rw [List.head?_map, List.head?_map, Option.mem_def.1 hv] at hhead
  rw [List.getLast?_map, List.getLast?_map, Option.mem_def.1 hw] at hlast
  obtain ⟨v', hv', hfirst⟩ := Option.map_eq_some_iff.1 hhead.symm
  obtain ⟨w', hw', hend⟩ := Option.map_eq_some_iff.1 hlast.symm
  refine ⟨?_, ⟨v', hv', ?_, ?_⟩, ⟨w', hw', ?_⟩⟩
  · rw [hunbroken, ← hlayout, ← hunbroken]
    exact hchain
  · exact (congrArg Prod.fst hfirst).trans hleading
  · exact (congrArg (·.2.2) hfirst).trans hspaced
  · exact (congrArg (·.2.1) hend).trans htrailing

/-! ### The grammar of signatures -/

/-- Views that agree spell the same phrases. -/
theorem Phrase.Spells.of_agree {phrase : Phrase} {vs ws : List View} {b : Bool}
    (h : phrase.Spells vs) (hagree : View.Agree b vs ws) : phrase.Spells ws := by
  -- over the derivation: views that agree with those of a production are split where these are
  induction h generalizing b ws with
  | @declaration kind name comments annots spaced headerComment members above header body ending
      annotated headed line inner closed ih =>
    rw [← List.append_assoc] at hagree
    obtain ⟨front, behind, c, rfl, hfront, hbehind⟩ := hagree.exists_of_append
    have hlayout := hfront.map_layout
    obtain ⟨above', header', d, rfl, habove, hheader⟩ := hfront.exists_of_append
    obtain ⟨body', last, e, rfl, hbody, hlast⟩ := hbehind.exists_of_append
    obtain - | @⟨_, _, ending', _, _, hending, ⟨⟩⟩ := hlast
    have hleading : ending.leading = ending'.leading := congrArg Prod.fst hending.layout
    have htrailing : ending.trailing = ending'.trailing := congrArg (·.2.1) hending.layout
    rw [List.append_assoc, hleading, htrailing]
    exact .declaration (habove.map_kind ▸ annotated) (hheader.map_kind ▸ headed)
      (line.of_map_layout hlayout) (ih hbody) (hending.piece.kind ▸ closed)
  | noMember first =>
    cases hagree
    exact .noMember first
  | @lineMember first content comments annots spaced lineComment ms above code more annotated
      spelled line others ih =>
    rw [← List.append_assoc] at hagree
    obtain ⟨front, more', c, rfl, hfront, hmore⟩ := hagree.exists_of_append
    have hlayout := hfront.map_layout
    obtain ⟨above', code', d, rfl, habove, hcode⟩ := hfront.exists_of_append
    rw [List.append_assoc]
    exact .lineMember (habove.map_kind ▸ annotated) (spelled.of_agree hcode.pieces)
      (line.of_map_layout hlayout) (ih hmore)
  | nestedMember declared others ihd ih =>
    obtain ⟨front, more, c, rfl, hfront, hmore⟩ := hagree.exists_of_append
    exact .nestedMember (ihd hfront) (ih hmore)
  | noDeclaration =>
    cases hagree
    exact .noDeclaration
  | moreDeclarations declared others ihd ih =>
    obtain ⟨front, more, c, rfl, hfront, hmore⟩ := hagree.exists_of_append
    exact .moreDeclarations (ihd hfront) (ih hmore)

namespace Signature

theorem parse_eq_of_tokenize {source : String} {tokens : List Token}
    (h : Token.tokenize source = .ok tokens) : parse source = ofTokens tokens := by
  rw [parse, h]
  rfl

/-- A text is read as a signature exactly when what the glances tell spells the signature. -/
theorem parse_eq_ok_iff_views {source : String} {tokens : List Token}
    (h : Token.tokenize source = .ok tokens) {s : Signature} :
    parse source = .ok s ↔
      Phrase.Spells (.declarations s.declarations)
          (Glance.views none [] (Token.glances tokens)).1 ∧
        s.trailingComments = (Glance.views none [] (Token.glances tokens)).2 := by
  obtain ⟨hagree, hclosing⟩ := Token.agree_views h
  rw [parse_eq_of_tokenize h, ofTokens, ofDocument_eq_ok_iff, hclosing]
  exact and_congr_left fun _ ↦
    ⟨fun hspells ↦ hspells.of_agree hagree, fun hspells ↦ hspells.of_agree hagree.symm⟩

/-- Texts at which the glances are the same are both refused, or both read as the same signature and
so formatted alike. -/
theorem format_eq_of_glances {source source' : String} {tokens tokens' : List Token}
    (h : Token.tokenize source = .ok tokens) (h' : Token.tokenize source' = .ok tokens')
    (hglances : Token.glances tokens = Token.glances tokens') :
    (∃ e e', parse source = .error e ∧ parse source' = .error e' ∧
      format source = .error e ∧ format source' = .error e') ∨
    ∃ s, parse source = .ok s ∧ parse source' = .ok s ∧
      format source = .ok s.text ∧ format source' = .ok s.text := by
  -- both texts are read by what their glances tell, and by nothing else
  have hsame : ∀ s, parse source = .ok s ↔ parse source' = .ok s := by
    intro s
    rw [parse_eq_ok_iff_views h, parse_eq_ok_iff_views h', hglances]
  rw [format, format]
  cases hs : parse source with
  | ok s => exact Or.inr ⟨s, rfl, (hsame s).1 hs, rfl, by rw [(hsame s).1 hs]; rfl⟩
  | error e =>
    cases hs' : parse source' with
    | ok s =>
      rw [(hsame s).2 hs'] at hs
      cases hs
    | error e' => exact Or.inl ⟨e, e', rfl, rfl, rfl, rfl⟩

theorem format_eq_of_glances_sample :
    let source := "class A # c\n  # d\n\n def m?: () -> B\n\n\n  include C\n#e\nend"
    let source' := "class\n\tA # c \n # d\ndef m?\n:()->B\n\ninclude C\n\t#e\n\n\nend\n"
    ∃ tokens tokens' text,
      Token.tokenize source = .ok tokens ∧ Token.tokenize source' = .ok tokens' ∧
      Token.glances tokens = Token.glances tokens' ∧ tokens ≠ tokens' ∧
      format source = .ok text ∧ format source' = .ok text := by
  intro source source'
  have hsame : ((Token.tokenize source).toOption.any fun tokens ↦
      (Token.tokenize source').toOption.any fun tokens' ↦
        Token.glances tokens = Token.glances tokens' ∧ tokens ≠ tokens' ∧
          (ofTokens tokens).isOk = true) = true := by
    decide +kernel
  generalize source = source, source' = source' at *
  cases h : Token.tokenize source with
  | error e => rw [h] at hsame; cases hsame
  | ok tokens =>
    cases h' : Token.tokenize source' with
    | error e => rw [h, h'] at hsame; cases hsame
    | ok tokens' =>
      rw [h, h'] at hsame
      obtain ⟨hglances, hne, hok⟩ := of_decide_eq_true hsame
      rcases format_eq_of_glances h h' hglances with ⟨e, -, he, -⟩ | ⟨s, -, -, hs, hs'⟩
      · rw [← parse_eq_of_tokenize h, he] at hok
        cases hok
      · exact ⟨tokens, tokens', s.text, rfl, rfl, hglances, hne, hs, hs'⟩

end Signature

end ModelSignatures
