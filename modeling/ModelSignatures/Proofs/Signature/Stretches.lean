import ModelSignatures.Proofs.Signature.Acceptance

/-!
# Stretches of tokens

A stretch of a text begins and ends with tokens that are no comments. Its lexemes have the comments
of the stretch between them, and no others (`Lexeme.exists_gather_stretch`), whatever stands before
and behind it.
-/

namespace ModelSignatures

open Reading (innerComments)

/-! ### The comments of a text -/

namespace Token

/-- The tokens without the comments among them. -/
def withoutComments (tokens : List Token) : List Token :=
  tokens.filter fun t ↦ !t.kind.isComment

/-- The comments among some tokens. -/
def comments (tokens : List Token) : List Comment :=
  tokens.filterMap fun t ↦
    match t.kind with
    | .comment text => some ⟨text, t.start.toPosition⟩
    | _ => none

@[simp] theorem comments_append (ts us : List Token) :
    comments (ts ++ us) = comments ts ++ comments us :=
  List.filterMap_append

theorem comments_cons_of_code {t : Token} (ht : t.kind.isComment = false) (ts : List Token) :
    comments (t :: ts) = comments ts := by
  obtain ⟨kind, start, stop⟩ := t
  cases kind with
  | comment text => cases ht
  | _ => rfl

theorem comments_cons_of_comment {t : Token} {text : String} (ht : t.kind = .comment text)
    (ts : List Token) : comments (t :: ts) = ⟨text, t.start.toPosition⟩ :: comments ts := by
  obtain ⟨kind, start, stop⟩ := t
  cases ht
  rfl

@[simp] theorem withoutComments_append (ts us : List Token) :
    withoutComments (ts ++ us) = withoutComments ts ++ withoutComments us :=
  List.filter_append ..

theorem withoutComments_cons_of_code {t : Token} (ht : t.kind.isComment = false)
    (ts : List Token) : withoutComments (t :: ts) = t :: withoutComments ts :=
  List.filter_cons_of_pos (by simp [ht])

theorem withoutComments_cons_of_comment {t : Token} (ht : t.kind.isComment = true)
    (ts : List Token) : withoutComments (t :: ts) = withoutComments ts :=
  List.filter_cons_of_neg (by simp [ht])

/-- Whether there are tokens, and neither the first nor the last is a comment. -/
structure IsStretch (ts : List Token) : Prop where
  head : ∃ t ∈ ts.head?, t.kind.isComment = false
  last : ∃ t ∈ ts.getLast?, t.kind.isComment = false

end Token

/-! ### The lexemes of a stretch -/

namespace Lexeme

/-- A token that is no comment is a lexeme, and what follows it is gathered behind it. -/
theorem exists_gather_cons {t : Token} (ht : t.kind.isComment = false) (before : Option Token)
    (pending : List Comment) (tokens : List Token) :
    ∃ l : Lexeme, l.kind = t.kind ∧ gather before pending (t :: tokens) =
      (l :: (gather (some t) [] tokens).1, (gather (some t) [] tokens).2) :=
  ⟨_, rfl, gather_cons ht before pending tokens⟩

/-- Whether lexemes are gathered up to the token `last`, the comments above the first and between
them are the given ones, and the rest is gathered behind `last`. -/
def GathersUpTo (last : Token) (rest : List Token) (cs : List Comment)
    (gathered : List Lexeme × List Comment) : Prop :=
  ∃ l ls, gathered = (l :: ls ++ (gather (some last) [] rest).1, (gather (some last) [] rest).2) ∧
    l.leading ++ innerComments (l :: ls) = cs

/-- In front of lexemes a token that is no comment is one more, with the comments pending. -/
theorem GathersUpTo.cons {last t : Token} {rest tokens : List Token} {cs : List Comment}
    (h : GathersUpTo last rest cs (gather (some t) [] tokens)) (ht : t.kind.isComment = false)
    (before : Option Token) (pending : List Comment) :
    GathersUpTo last rest (pending ++ ((trailingComment t tokens).toList ++ cs))
      (gather before pending (t :: tokens)) := by
  obtain ⟨l, ls, hgather, rfl⟩ := h
  rw [gather_cons ht, hgather]
  refine ⟨_, l :: ls, rfl, ?_⟩
  rw [innerComments, List.append_assoc]

/-- What ends the line of a token is not changed by what stands behind another token of code. -/
theorem trailingComment_append_of_code {last : Token} (hlast : last.kind.isComment = false)
    (t : Token) (init rest : List Token) :
    trailingComment t (init ++ last :: rest) = trailingComment t init := by
  cases init with
  | nil => exact trailingComment_of_code hlast t rest
  | cons u init =>
    obtain ⟨kind, start, stop⟩ := u
    cases kind <;> rfl

/-- Up to a token that is no comment all comments that are met belong to the lexemes gathered: those
pending, and that at the end of the line of the token before. -/
theorem gathersUpTo_gather {before : Option Token} {init : List Token}
    (h : Token.Grouped before init) {last : Token} (hlast : last.kind.isComment = false)
    (rest : List Token) (pending : List Comment) :
    GathersUpTo last rest (pending ++ Token.comments init)
      (gather before pending (init ++ last :: rest)) := by
  induction h generalizing pending with
  | nil before =>
    rw [List.nil_append, gather_cons hlast]
    exact ⟨_, [], rfl, rfl⟩
  | @alone before c text init comment below _ ih =>
    have hrest := ih (pending ++ [⟨text, c.start.toPosition⟩])
    rw [List.append_assoc] at hrest
    rwa [List.cons_append, gather_comment comment, below, if_neg (by simp),
      Token.comments_cons_of_comment comment]
  | @plain before t init code noComment _ ih =>
    have hall := (ih []).cons code before pending
    rw [trailingComment_append_of_code hlast, noComment] at hall
    rwa [Token.comments_cons_of_code code]
  | @remarked before t c text init code comment sameLine _ ih =>
    have hrest := ih []
    have hgather := gather_comment comment (some t) [] (init ++ last :: rest)
    rw [sameLine, if_pos rfl] at hgather
    rw [← hgather] at hrest
    have hall := hrest.cons code before pending
    rw [trailingComment_of_comment comment, sameLine, if_pos rfl] at hall
    rwa [Token.comments_cons_of_code code, Token.comments_cons_of_comment comment]

/-- The lexemes of a stretch have the comments of the stretch between them, and its pieces. -/
theorem exists_gather_stretch {ts : List Token} (hts : Token.IsStretch ts)
    (hplaced : ∀ t ∈ ts, t.WellPlaced) (hpairs : ts.Pairwise Token.Precedes)
    (before : Option Token) (pending : List Comment) (rest : List Token) :
    ∃ ls last, gather before pending (ts ++ rest) =
        (ls ++ (gather last [] rest).1, (gather last [] rest).2) ∧
      innerComments ls = Token.comments ts ∧
      ls.map piece = Token.pieces before (Token.withoutComments ts) := by
  obtain ⟨⟨first, hfirst, hfirstCode⟩, ⟨last, hlast, hlastCode⟩⟩ := hts
  obtain ⟨more, hmore⟩ := List.head?_eq_some_iff.1 hfirst
  have hshape : ∃ ls, gather before pending (ts ++ rest) =
      (ls ++ (gather (some last) [] rest).1, (gather (some last) [] rest).2) ∧
        innerComments ls = Token.comments ts := by
    obtain ⟨init, hinit⟩ := List.getLast?_eq_some_iff.1 hlast
    have hgrouped : Token.Grouped before init := by
      rw [hinit, List.forall_mem_append] at hplaced
      rw [hinit, List.pairwise_append] at hpairs
      refine Token.grouped_of_placed hplaced.1 hpairs.1 fun b _ t ht hcomment ↦ ?_
      rw [hinit, List.head?_append, Option.mem_def.1 ht] at hfirst
      cases hfirst
      rw [hfirstCode] at hcomment
      cases hcomment
    obtain ⟨l, ls, hgather, hcomments⟩ := gathersUpTo_gather hgrouped hlastCode rest pending
    have hts : ts ++ rest = init ++ last :: rest := by rw [hinit, List.append_assoc]; rfl
    -- no comments but those pending stand above the first lexeme
    have hleading : pending = l.leading := by
      rw [← hts, hmore, List.cons_append, gather_cons hfirstCode] at hgather
      exact congrArg Lexeme.leading (List.cons.inj (congrArg Prod.fst hgather)).1
    rw [hleading] at hcomments
    refine ⟨l :: ls, hts ▸ hgather, ?_⟩
    rw [List.append_cancel_left hcomments, hinit, Token.comments_append,
      Token.comments_cons_of_code hlastCode]
    exact (List.append_nil _).symm
  obtain ⟨ls, hgather, hinner⟩ := hshape
  refine ⟨ls, some last, hgather, hinner, ?_⟩
  have hpieces := map_piece_gather before pending (ts ++ rest)
  obtain ⟨init, rfl⟩ := List.getLast?_eq_some_iff.1 hlast
  have hend : (Token.withoutComments (init ++ [last])).getLast?.or before = some last := by
    rw [Token.withoutComments_append, Token.withoutComments_cons_of_code hlastCode,
      List.getLast?_append]
    rfl
  rw [hgather, List.map_append, map_piece_gather, List.filter_append,
    Token.pieces_append] at hpieces
  rw [Token.withoutComments] at hend ⊢
  rw [hend] at hpieces
  exact List.append_cancel_right hpieces

end Lexeme

end ModelSignatures
