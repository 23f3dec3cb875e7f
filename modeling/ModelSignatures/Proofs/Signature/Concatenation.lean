import ModelSignatures.Proofs.Lexeme.Concatenation
import ModelSignatures.Proofs.Signature.LayoutSeen

/-!
# Signatures one below the other

Two texts that are read as signatures are read as one when the second is written below the first
(`Signature.parse_append`). Nothing of either is changed, but for the comments after the last
declaration of the first, which now stand above what the second declares.
-/

namespace ModelSignatures

/-- The declarations of a signature with those of another behind them, where the comments in between
stand above the first of those. -/
def Signature.followedBy (s s' : Signature) : Signature :=
  match s'.declarations with
  | [] => ⟨s.declarations, s.trailingComments ++ s'.trailingComments⟩
  | d :: ds =>
    ⟨s.declarations ++ { d with comments := s.trailingComments ++ d.comments } :: ds,
      s'.trailingComments⟩

/-! ### The grammar of declarations below others -/

namespace Phrase.Spells

theorem append {ds ds' : List Declaration} {vs ws : List View}
    (h : Spells (.declarations ds) vs) (h' : Spells (.declarations ds') ws) :
    Spells (.declarations (ds ++ ds')) (vs ++ ws) := by
  generalize hphrase : Phrase.declarations ds = phrase at h
  induction h generalizing ds with
  | noDeclaration =>
    cases hphrase
    exact h'
  | @moreDeclarations comments annots spaced d ds vs more declared others _ ih =>
    cases hphrase
    rw [List.append_assoc]
    exact .moreDeclarations declared (ih rfl)
  | _ => cases hphrase

/-- Under comments a declaration is spelled with those above it. -/
theorem declaration_under {comments annots : List String} {spaced : Bool} {d : Declaration}
    {vs : List View} (h : Spells (.declaration comments annots spaced d) vs)
    (more : List String) (spaced' : Bool) :
    Spells (.declaration (more ++ comments) annots spaced' d) (View.under more spaced' vs) := by
  obtain @⟨kind, name, _, _, _, headerComment, members, above, header, body, ending, annotated,
    headed, line, inner, closed⟩ := h
  have hne : above ++ header ≠ [] := by
    obtain ⟨v, hv, -⟩ := line.head
    intro hnil
    rw [hnil] at hv
    cases hv
  have hkinds := View.map_kind_under more spaced' (above ++ header)
  rw [List.map_append] at hkinds
  obtain ⟨above', header', hsplit, habove, hheader⟩ := List.map_eq_append_iff.1 hkinds
  have hline := line.under more spaced'
  rw [hsplit] at hline
  rw [← List.append_assoc, View.under_append hne, hsplit, List.append_assoc]
  exact .declaration (habove.trans annotated) (hheader ▸ headed) hline inner closed

/-- Under comments declarations are spelled with those above the first. -/
theorem declarations_under {d : Declaration} {ds : List Declaration} {vs : List View}
    (h : Spells (.declarations (d :: ds)) vs) (more : List String) (spaced : Bool) :
    vs ≠ [] ∧ Spells (.declarations ({ d with comments := more ++ d.comments } :: ds))
      (View.under more spaced vs) := by
  cases h with
  | moreDeclarations declared behind =>
    have hne := List.ne_nil_of_length_pos (Nat.zero_lt_of_lt declared.length_lt)
    refine ⟨List.append_ne_nil_of_left_ne_nil hne _, ?_⟩
    have hall := Spells.moreDeclarations (declared.declaration_under more spaced) behind
    rw [View.under_append hne]
    exact hall

end Phrase.Spells

namespace Signature

/-- Two texts that are read as signatures are read as one when the second stands below the first:
first the declarations of the one, then those of the other, with the comments in between above
them. -/
theorem parse_append {above below : String} {s s' : Signature} (h : parse above = .ok s)
    (h' : parse below = .ok s') : parse (above ++ "\n" ++ below) = .ok (s.followedBy s') := by
  obtain ⟨ts, hts, hs⟩ := Except.bind_eq_ok_iff.1 h
  obtain ⟨us, hus, -⟩ := Except.bind_eq_ok_iff.1 h'
  obtain ⟨tokens, vs, b, spaced, htokens, hviews, hagree, hclosing⟩ :=
    Document.exists_views_append hts hus
  obtain ⟨hfirst, hcomments⟩ := ofDocument_eq_ok_iff.1 hs
  obtain ⟨hsecond, hcomments'⟩ := (parse_eq_ok_iff_views hus).1 h'
  rw [parse_eq_of_tokenize htokens, ofTokens, ofDocument_eq_ok_iff, hviews, hclosing, ← hcomments,
    ← hcomments']
  rw [← hcomments] at hagree
  obtain ⟨ds, trailing⟩ := s'
  cases ds with
  | nil =>
    -- nothing is declared below, so the comments left over above stay at the end
    obtain ⟨hnil, hspells⟩ : (Glance.views none [] (Token.glances us)).1 = [] ∧
        Phrase.Spells (.declarations []) vs := by
      generalize (Glance.views none [] (Token.glances us)).1 = ws at hsecond hagree
      cases hsecond
      cases hagree
      exact ⟨rfl, .noDeclaration⟩
    have hall := hfirst.append hspells
    rw [List.append_nil] at hall
    rw [if_pos hnil]
    exact ⟨hall, rfl⟩
  | cons d ds =>
    obtain ⟨hne, hunder⟩ := hsecond.declarations_under s.trailingComments spaced
    rw [if_neg hne]
    exact ⟨hfirst.append (hunder.of_agree hagree.symm), rfl⟩

theorem parse_append_sample :
    let above := "class A\nend # a\n#b"
    let below := "#c\n%a\x7bd\x7d\nmodule B\nend\n#e"
    ∃ s s', parse above = .ok s ∧ parse below = .ok s' ∧
      parse (above ++ "\n" ++ below) = .ok (s.followedBy s') ∧
      (s.followedBy s').declarations.map (·.comments) = [[], ["b", "c"]] := by
  intro above below
  have hboth : ((parse above).toOption.any fun s ↦ (parse below).toOption.any fun s' ↦
      (s.followedBy s').declarations.map (·.comments) = [[], ["b", "c"]]) = true := by
    decide +kernel
  generalize above = above, below = below at *
  cases h : parse above with
  | error e => rw [h] at hboth; cases hboth
  | ok s =>
    cases h' : parse below with
    | error e => rw [h, h'] at hboth; cases hboth
    | ok s' =>
      rw [h, h'] at hboth
      exact ⟨s, s', rfl, rfl, parse_append h h', of_decide_eq_true hboth⟩

end Signature

end ModelSignatures
