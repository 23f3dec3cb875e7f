import ModelSignatures.Proofs.Lexeme.Outline
import ModelSignatures.Proofs.Signature.Productions

/-!
# What is accepted

Without comments a text is accepted exactly if its pieces are derivable, and the tree is told by how
they are spelled (`parse_iff_derives`). That an accepted text is derivable was shown for each level
of the grammar; for the converse every nonterminal means that something is spelled
(`Nonterminal.Means`), and each production keeps that.
-/

namespace ModelSignatures

open Nonterminal (production)
open Rule (Derives)

/-- Whether there is no comment around the token. -/
def View.IsBare (v : View) : Prop :=
  v.leading = [] ∧ v.trailing = none

/-- Some views without comments are those of one line. -/
theorem View.isLine_of_isBare {vs : List View} (hne : vs ≠ []) (hvs : ∀ v ∈ vs, v.IsBare) :
    ∃ spaced, View.IsLine vs [] spaced none := by
  obtain ⟨v, more, rfl⟩ := List.exists_cons_of_ne_nil hne
  refine ⟨v.spaced, ?_, ⟨v, rfl, (hvs v List.mem_cons_self).1, rfl⟩, ?_⟩
  · refine List.Pairwise.isChain (List.pairwise_of_forall_mem_list fun u hu w hw ↦ ?_)
    exact ⟨(hvs u hu).2, (hvs w hw).1⟩
  · refine ⟨_, List.getLast?_eq_some_getLast hne, (hvs _ (List.getLast_mem hne)).2⟩

namespace Nonterminal

/-- What is said of a list of pieces by a nonterminal: it spells something. Declarations and members
are spelled by views, which have the pieces and no comments. -/
def Means : Nonterminal → List Piece → Prop
  | signature, ps => ∀ vs : List View, (∀ v ∈ vs, v.IsBare) → vs.map View.toPiece = ps →
    ∃ ds, Phrase.Spells (.declarations ds) vs
  | declaration, ps => ∀ vs : List View, (∀ v ∈ vs, v.IsBare) → vs.map View.toPiece = ps →
    ∃ annots spaced d, Phrase.Spells (.declaration [] annots spaced d) vs
  | member, ps => ∀ vs : List View, (∀ v ∈ vs, v.IsBare) → vs.map View.toPiece = ps →
    ∀ first ms more, Phrase.Spells (.members false ms) more →
      ∃ m, Phrase.Spells (.members first (m :: ms)) (vs ++ more)
  | methodType, ps => ∃ o, Overload.Spells o (ps.map Piece.kind)
  | param, ps => ∃ p, Param.Spells p (ps.map Piece.kind)
  | unionType, ps => ∃ t, TypeForm.Spells (.union t) (ps.map Piece.kind)
  | optionalType, ps => ∃ t, TypeForm.Spells (.optional t) (ps.map Piece.kind)
  | primaryType, ps => ∃ t, TypeForm.Spells (.primary t) (ps.map Piece.kind)
  | args, ps => ∃ ts, TypeForm.Spells (.args ts) (ps.map Piece.kind)
  | classType, ps => ∃ c, ClassType.Spells c (ps.map Piece.kind)
  | name, ps => ∃ name : TypeName, name.path ≠ [] ∧ ps.map Piece.kind = name.kinds
  | methodName, ps => ∃ name, Method.NameSpells name ps

/-! ### Types and names -/

/-- A repetition with a separator is one of what is spelled. -/
theorem exists_repeated {α : Type} {s : Symbol} {item : Rule Piece Nonterminal}
    {P : α → List TokenKind → Prop}
    {ps : List Piece} (h : Rule.Denotes Means (.many (symbol s ++ item)) ps)
    (hitem : ∀ ps, item.Denotes Means ps → ∃ x, P x (ps.map Piece.kind)) :
    ∃ xs, Repeated s P xs (ps.map Piece.kind) := by
  obtain ⟨parts, hall, rfl⟩ := h
  induction parts with
  | nil => exact ⟨[], .nil⟩
  | cons part parts ih =>
    obtain ⟨hpart, hparts⟩ := List.forall_mem_cons.1 hall
    obtain ⟨xs, hxs⟩ := ih hparts
    obtain ⟨_, rest, ⟨p, hp, rfl⟩, hrest, rfl⟩ := hpart
    obtain ⟨x, hx⟩ := hitem rest hrest
    refine ⟨x :: xs, ?_⟩
    rw [List.flatten_cons, List.map_append, List.map_append, List.map_singleton, hp]
    exact .cons hx hxs

/-- A name that the grammar derives spells a name. -/
theorem means_name {ps : List Piece} (h : (production name).Denotes Means ps) :
    Means name ps := by
  obtain ⟨_, others, ⟨colons, _, hcolons, ⟨p, ⟨first, hp⟩, rfl⟩, rfl⟩, hothers, rfl⟩ := h
  have hword : ∀ ps, word.Denotes Means ps → ∃ segment, ps.map Piece.kind = [.word segment] := by
    rintro _ ⟨q, ⟨segment, hq⟩, rfl⟩
    exact ⟨segment, congrArg (fun k ↦ [k]) hq⟩
  obtain ⟨segments, hsegments⟩ :=
    exists_repeated (P := fun segment ks ↦ ks = [.word segment]) hothers hword
  rw [TypeName.repeated_segments] at hsegments
  rcases hcolons with ⟨colons, hcolons, rfl⟩ | rfl
  · refine ⟨⟨true, first :: segments⟩, List.cons_ne_nil _ _, ?_⟩
    simp [TypeName.kinds, hcolons, hp, hsegments]
  · refine ⟨⟨false, first :: segments⟩, List.cons_ne_nil _ _, ?_⟩
    simp [TypeName.kinds, hp, hsegments]

/-- Arguments that the grammar derives spell arguments, with their brackets. -/
theorem means_args {ps : List Piece} (h : (production args).Denotes Means ps) : Means args ps := by
  obtain ⟨_, _, ⟨_, _, ⟨opening, hopening, rfl⟩, ⟨first, others, ⟨t, ht⟩, hothers, rfl⟩, rfl⟩,
    ⟨closing, hclosing, rfl⟩, rfl⟩ := h
  obtain ⟨ts, hts⟩ :=
    exists_repeated (P := fun t ks ↦ TypeForm.Spells (.union t) ks) hothers fun _ h ↦ h
  refine ⟨t :: ts, ?_⟩
  have hall := TypeForm.Spells.args ht (TypeForm.spells_moreArgs hts)
  simpa [hopening, hclosing] using hall

/-- A type with nothing behind it that the grammar derives spells a type. -/
theorem means_primaryType {ps : List Piece} (h : (production primaryType).Denotes Means ps) :
    Means primaryType ps := by
  obtain ((⟨_, _, ⟨_, inner, ⟨opening, hopening, rfl⟩, ⟨t, ht⟩, rfl⟩,
      ⟨closing, hclosing, rfl⟩, rfl⟩ |
    ⟨p, ⟨b, hb⟩, rfl⟩) | ⟨⟨name, hne, hname⟩, hbegins⟩) |
    ⟨head, tail, ⟨⟨name, hne, hname⟩, hbegins, hends⟩, ⟨ts, hts⟩, rfl⟩ := h
  · refine ⟨t, ?_⟩
    simp only [List.map_append, List.map_singleton, hopening, hclosing]
    exact .group ht
  · refine ⟨.base b, ?_⟩
    rw [List.map_singleton, hb]
    exact .base b
  · rw [TypeName.beginsWithKeyword_iff hne hname, not_not] at hbegins
    rw [Means, hname]
    cases halias : name.namesAlias with
    | true => exact ⟨_, .aliasRef hne hbegins halias⟩
    | false =>
      refine ⟨.classRef name [], ?_⟩
      rw [← List.append_nil name.kinds]
      exact .classRef hne hbegins halias .noArgs
  · rw [TypeName.beginsWithKeyword_iff hne hname, not_not] at hbegins
    rw [TypeName.endsInLower_iff hne hname, Bool.not_eq_true] at hends
    refine ⟨.classRef name ts, ?_⟩
    rw [List.map_append, hname]
    exact .classRef hne hbegins hends hts

/-- A type that the grammar derives with a question mark behind it, or none, spells a type. -/
theorem means_optionalType {ps : List Piece} (h : (production optionalType).Denotes Means ps) :
    Means optionalType ps := by
  obtain ⟨head, _, ⟨t, ht⟩, ⟨question, hquestion, rfl⟩ | rfl, rfl⟩ := h
  · refine ⟨t.orNil, ?_⟩
    rw [List.map_append, List.map_singleton, hquestion]
    exact .marked ht
  · refine ⟨t, ?_⟩
    rw [List.append_nil]
    exact .plain ht

/-- Types that the grammar derives between bars spell a type. -/
theorem means_unionType {ps : List Piece} (h : (production unionType).Denotes Means ps) :
    Means unionType ps := by
  obtain ⟨first, others, ⟨t, ht⟩, hothers, rfl⟩ := h
  obtain ⟨ts, hts⟩ :=
    exists_repeated (P := fun t ks ↦ TypeForm.Spells (.optional t) ks) hothers fun _ h ↦ h
  refine ⟨.oneOf t ts, ?_⟩
  rw [List.map_append]
  exact .union ht (TypeForm.spells_alternatives hts)

/-- A class with arguments that the grammar derives spells one. -/
theorem means_classType {ps : List Piece} (h : (production classType).Denotes Means ps) :
    Means classType ps := by
  obtain ⟨head, tail, ⟨name, hne, hname⟩, hargs, rfl⟩ := h
  rw [Means, List.map_append, hname]
  rcases hargs with ⟨ts, hts⟩ | rfl
  · exact ⟨⟨name, ts⟩, .mk hne hts⟩
  · exact ⟨⟨name, []⟩, .mk hne .noArgs⟩

/-! ### Methods -/

/-- The name of a method that the grammar derives spells a name, with its suffix. -/
theorem means_methodName {ps : List Piece} (h : (production methodName).Denotes Means ps) :
    Means methodName ps := by
  obtain ⟨_, _, ⟨⟨_, glued⟩, ⟨text, rfl⟩, rfl⟩, hsuffix, rfl⟩ := h
  rcases hsuffix with ((⟨_, rfl, rfl⟩ | ⟨_, rfl, rfl⟩) | ⟨_, rfl, rfl⟩) | rfl
  · exact ⟨_, .suffixed text glued rfl⟩
  · exact ⟨_, .suffixed text glued rfl⟩
  · exact ⟨_, .suffixed text glued rfl⟩
  · exact ⟨text, .plain text glued⟩

/-- How the grammar passes a parameter is one of the kinds of parameters. -/
theorem exists_kinds_of_passing {ps : List Piece} (h : passing.Denotes Means ps) :
    ∃ kind : ParamKind, ps.map Piece.kind = kind.kinds := by
  obtain ((((⟨p, hp, rfl⟩ | ⟨p, hp, rfl⟩) |
    ⟨_, _, ⟨_, _, ⟨p, hp, rfl⟩, ⟨q, ⟨key, hq⟩, rfl⟩, rfl⟩, ⟨colon, hcolon, rfl⟩, rfl⟩) |
    ⟨p, hp, rfl⟩) | ⟨_, _, ⟨q, ⟨key, hq⟩, rfl⟩, ⟨colon, hcolon, rfl⟩, rfl⟩) | rfl := h
  · exact ⟨.keywordRest, by simp [ParamKind.kinds, hp]⟩
  · exact ⟨.rest, by simp [ParamKind.kinds, hp]⟩
  · exact ⟨.optionalKeyword key, by simp [ParamKind.kinds, hp, hq, hcolon]⟩
  · exact ⟨.optional, by simp [ParamKind.kinds, hp]⟩
  · exact ⟨.requiredKeyword key, by simp [ParamKind.kinds, hq, hcolon]⟩
  · exact ⟨.required, rfl⟩

/-- A parameter that the grammar derives spells a parameter. -/
theorem means_param {ps : List Piece} (h : (production param).Denotes Means ps) :
    Means param ps := by
  obtain ⟨_, named, ⟨mark, typed, hmark, ⟨t, ht⟩, rfl⟩, hname, rfl⟩ := h
  obtain ⟨kind, hkind⟩ := exists_kinds_of_passing hmark
  obtain ⟨name, hname⟩ :
      ∃ name : Option String, named.map Piece.kind = (name.map .word).toList := by
    rcases hname with ⟨q, ⟨text, hq⟩, rfl⟩ | rfl
    · exact ⟨some text, by simp [hq]⟩
    · exact ⟨none, rfl⟩
  refine ⟨⟨kind, t, name⟩, ?_⟩
  rw [List.map_append, List.map_append, hkind, hname, List.append_assoc]
  exact .mk ht

/-- The parameters and the result that the grammar derives spell an overload. -/
theorem means_methodType {ps : List Piece} (h : (production methodType).Denotes Means ps) :
    Means methodType ps := by
  obtain ⟨_, result, ⟨_, _, ⟨_, _, ⟨_, list, ⟨opening, hopening, rfl⟩, hlist, rfl⟩,
    ⟨closing, hclosing, rfl⟩, rfl⟩, ⟨arrow, harrow, rfl⟩, rfl⟩, ⟨t, ht⟩, rfl⟩ := h
  obtain ⟨params, hparams⟩ : ∃ params, Listed .comma Param.Spells params (list.map Piece.kind) := by
    rcases hlist with ⟨first, others, ⟨p, hp⟩, hothers, rfl⟩ | rfl
    · obtain ⟨more, hmore⟩ := exists_repeated (P := Param.Spells) hothers fun _ h ↦ h
      refine ⟨p :: more, ?_⟩
      rw [List.map_append]
      exact .cons hp hmore
    · exact ⟨[], .nil⟩
  refine ⟨⟨params, t⟩, ?_⟩
  have hall := Overload.Spells.mk hparams ht
  simpa [hopening, hclosing, harrow] using hall

/-- A method that the grammar derives spells a method. -/
theorem exists_spells_of_method {ps : List Piece} (h : method.Denotes Means ps) :
    ∃ m : Method, m.Spells ps := by
  obtain ⟨_, others, ⟨_, first, ⟨_, _, ⟨self, stem, hself, ⟨name, hname⟩, rfl⟩,
    ⟨colon, hcolon, rfl⟩, rfl⟩, ⟨o, ho⟩, rfl⟩, hothers, rfl⟩ := h
  obtain ⟨os, hos⟩ := exists_repeated (P := Overload.Spells) hothers fun _ h ↦ h
  obtain ⟨singleton, hsingleton⟩ : ∃ singleton,
      self.map Piece.kind = Method.singletonKinds singleton := by
    rcases hself with ⟨_, _, ⟨p, hp, rfl⟩, ⟨dot, hdot, rfl⟩, rfl⟩ | rfl
    · exact ⟨true, by simp [Method.singletonKinds, hp, hdot]⟩
    · exact ⟨false, rfl⟩
  refine ⟨⟨name, singleton, o :: os⟩, ?_⟩
  have htyped : ([colon] ++ (first ++ others)).map Piece.kind =
      .symbol .colon :: (first.map Piece.kind ++ others.map Piece.kind) := by
    simp [hcolon]
  have hall := Method.Spells.mk hsingleton hname ho hos htyped
  simpa using hall

/-! ### Declarations -/

/-- A member of one line that the grammar derives spells a member. -/
theorem exists_spells_of_line {ps : List Piece} (h : line.Denotes Means ps) :
    ∃ content : MemberContent, content.Spells ps := by
  obtain (((⟨_, _, ⟨p, hp, rfl⟩, ⟨c, hc⟩, rfl⟩ | ⟨_, _, ⟨p, hp, rfl⟩, ⟨c, hc⟩, rfl⟩) |
    ⟨_, typed, ⟨_, _, ⟨keyword, stem, hkeyword, ⟨name, hname⟩, rfl⟩, ⟨colon, hcolon, rfl⟩, rfl⟩,
      ⟨t, ht⟩, rfl⟩) | ⟨_, _, ⟨p, hp, rfl⟩, hmethod, rfl⟩) |
    ⟨_, old, ⟨_, new, ⟨p, hp, rfl⟩, ⟨newName, hnew⟩, rfl⟩, ⟨oldName, hold⟩, rfl⟩ := h
  · exact ⟨_, .including hp hc⟩
  · exact ⟨_, .extending hp hc⟩
  · obtain ⟨kind, p, hp, rfl⟩ : ∃ kind : AttributeKind, ∃ p : Piece,
        p.kind = .word kind.keyword ∧ keyword = [p] := by
      rcases hkeyword with (⟨p, hp, rfl⟩ | ⟨p, hp, rfl⟩) | ⟨p, hp, rfl⟩
      · exact ⟨.reader, p, hp, rfl⟩
      · exact ⟨.writer, p, hp, rfl⟩
      · exact ⟨.accessor, p, hp, rfl⟩
    have htyped : ([colon] ++ typed).map Piece.kind =
        .symbol .colon :: typed.map Piece.kind := by
      simp [hcolon]
    have hall := MemberContent.Spells.attr hp hname ht htyped
    exact ⟨_, by simpa using hall⟩
  · obtain ⟨m, hm⟩ := exists_spells_of_method hmethod
    exact ⟨_, .method hp hm⟩
  · exact ⟨_, by simpa using MemberContent.Spells.aliasing hp hnew hold⟩

/-- A header that the grammar derives spells a kind of declaration with a name. -/
theorem exists_spells_of_header {ps : List Piece} (h : header.Denotes Means ps) :
    ∃ (kind : DeclarationKind) (name : TypeName), kind.Spells name (ps.map Piece.kind) := by
  obtain ⟨_, _, ⟨_, named, ⟨p, hp, rfl⟩, ⟨name, hne, hname⟩, rfl⟩, hsuper, rfl⟩ |
    ⟨_, named, ⟨p, hp, rfl⟩, ⟨name, hne, hname⟩, rfl⟩ := h
  · rcases hsuper with ⟨_, typed, ⟨less, hless, rfl⟩, ⟨c, hc⟩, rfl⟩ | rfl
    · have hall := DeclarationKind.Spells.subclass hne hc
      exact ⟨_, _, by simpa [hp, hname, hless] using hall⟩
    · exact ⟨_, _, by simpa [hp, hname] using DeclarationKind.Spells.plainClass hne⟩
  · exact ⟨_, _, by simpa [hp, hname] using DeclarationKind.Spells.ofModule hne⟩

/-- The annotations that the grammar derives spell annotations. -/
theorem exists_annots {ps : List Piece} (h : Rule.Denotes Means (.many annotation) ps) :
    ∃ annots : List String, ps.map Piece.kind = annots.map .annot := by
  obtain ⟨parts, hall, rfl⟩ := h
  induction parts with
  | nil => exact ⟨[], rfl⟩
  | cons part parts ih =>
    obtain ⟨hpart, hparts⟩ := List.forall_mem_cons.1 hall
    obtain ⟨annots, hannots⟩ := ih hparts
    obtain ⟨p, ⟨text, hp⟩, rfl⟩ := hpart
    exact ⟨text :: annots, by simp [hp, hannots]⟩

/-- A body is made from the last of its members to the first. -/
theorem exists_members {ps : List Piece} (h : Rule.Denotes Means (.many (.ref member)) ps)
    {vs : List View} (hvs : ∀ v ∈ vs, v.IsBare) (hps : vs.map View.toPiece = ps) (first : Bool) :
    ∃ ms, Phrase.Spells (.members first ms) vs := by
  obtain ⟨parts, hall, rfl⟩ := h
  induction parts generalizing vs first with
  | nil =>
    rw [List.map_eq_nil_iff.1 hps]
    exact ⟨[], .noMember first⟩
  | cons part parts ih =>
    obtain ⟨hpart, hparts⟩ := List.forall_mem_cons.1 hall
    obtain ⟨pre, more, rfl, hpre, hmore⟩ := List.map_eq_append_iff.1 hps
    rw [List.forall_mem_append] at hvs
    obtain ⟨ms, hms⟩ := ih hvs.2 false hparts hmore
    obtain ⟨m, hm⟩ := hpart pre hvs.1 hpre first ms more hms
    exact ⟨m :: ms, hm⟩

/-- A declaration that the grammar derives spells one, in whatever bare views it stands. -/
theorem means_declaration {ps : List Piece} (h : (production declaration).Denotes Means ps) :
    Means declaration ps := by
  obtain ⟨_, _, ⟨_, _, ⟨_, _, habove, hheader, rfl⟩, hmembers, rfl⟩, ⟨closing, hclosing, rfl⟩,
    rfl⟩ := h
  intro vs hvs hps
  obtain ⟨front, last, rfl, hfront, hlast⟩ := List.map_eq_append_iff.1 hps
  obtain ⟨top, body, rfl, htop, hbody⟩ := List.map_eq_append_iff.1 hfront
  obtain ⟨above, header, rfl, rfl, rfl⟩ := List.map_eq_append_iff.1 htop
  obtain ⟨ending, rfl, rfl⟩ := List.map_eq_singleton_iff.1 hlast
  rw [List.forall_mem_append, List.forall_mem_append] at hvs
  obtain ⟨annots, hannots⟩ := exists_annots habove
  obtain ⟨kind, name, hkind⟩ := exists_spells_of_header hheader
  rw [List.map_map] at hannots hkind
  obtain ⟨members, hspells⟩ := exists_members hmembers hvs.1.2 hbody true
  obtain ⟨v, text, hv, -⟩ := hkind.head_view
  have hne : above ++ header ≠ [] := by
    rintro heq
    rw [(List.append_eq_nil_iff.1 heq).2] at hv
    cases hv
  obtain ⟨spaced, hline⟩ := View.isLine_of_isBare hne hvs.1.1
  have hall := Phrase.Spells.declaration hannots hkind hline hspells hclosing
  simp only [List.append_assoc]
  exact ⟨annots, spaced, _, hall⟩

/-- A member that the grammar derives spells one in front of any members below it. -/
theorem means_member {ps : List Piece} (h : (production member).Denotes Means ps) :
    Means member ps := by
  intro vs hvs hps first ms more hmore
  rcases h with ⟨_, _, habove, hline, rfl⟩ | hdeclared
  · obtain ⟨above, code, rfl, rfl, rfl⟩ := List.map_eq_append_iff.1 hps
    obtain ⟨annots, hannots⟩ := exists_annots habove
    rw [List.map_map] at hannots
    obtain ⟨content, hcontent⟩ := exists_spells_of_line hline
    obtain ⟨v, text, hv, -⟩ := hcontent.head_view
    have hne : above ++ code ≠ [] := by
      rintro heq
      rw [(List.append_eq_nil_iff.1 heq).2] at hv
      cases hv
    obtain ⟨spaced, hisLine⟩ := View.isLine_of_isBare hne hvs
    rw [List.append_assoc]
    exact ⟨_, .lineMember hannots hcontent hisLine hmore⟩
  · obtain ⟨annots, spaced, d, hd⟩ := hdeclared vs hvs hps
    exact ⟨_, .nestedMember hd hmore⟩

/-- A text that the grammar derives spells declarations. -/
theorem means_signature {ps : List Piece} (h : (production signature).Denotes Means ps) :
    Means signature ps := by
  obtain ⟨parts, hall, rfl⟩ := h
  induction parts with
  | nil =>
    intro vs _ hps
    rw [List.map_eq_nil_iff.1 hps]
    exact ⟨[], .noDeclaration⟩
  | cons part parts ih =>
    intro vs hvs hps
    obtain ⟨hpart, hparts⟩ := List.forall_mem_cons.1 hall
    obtain ⟨pre, more, rfl, hpre, hmore⟩ := List.map_eq_append_iff.1 hps
    rw [List.forall_mem_append] at hvs
    obtain ⟨ds, hds⟩ := ih hparts more hvs.2 hmore
    obtain ⟨annots, spaced, d, hd⟩ := hpart pre hvs.1 hpre
    exact ⟨_, .moreDeclarations hd hds⟩

/-- Every production keeps what the nonterminals mean. -/
theorem means_of_production (n : Nonterminal) (ps : List Piece)
    (hps : (production n).Denotes Means ps) : Means n ps := by
  cases n with
  | signature => exact means_signature hps
  | declaration => exact means_declaration hps
  | member => exact means_member hps
  | methodType => exact means_methodType hps
  | param => exact means_param hps
  | unionType => exact means_unionType hps
  | optionalType => exact means_optionalType hps
  | primaryType => exact means_primaryType hps
  | args => exact means_args hps
  | classType => exact means_classType hps
  | name => exact means_name hps
  | methodName => exact means_methodName hps

/-- What is derivable from a nonterminal spells something. -/
theorem means_of_derives {n : Nonterminal} {ps : List Piece}
    (h : Derives production (.ref n) ps) : Means n ps :=
  h.denotes means_of_production

end Nonterminal

/-! ### Texts -/

/-- The tokens behind a token, each with what the grammar sees of it. -/
def Token.pieces (before : Option Token) : List Token → List Piece
  | [] => []
  | t :: tokens => ⟨t.kind, before.any (·.isAdjacentTo t)⟩ :: pieces (some t) tokens

/-- A token has one piece. -/
theorem Token.length_pieces (b : Option Token) (tokens : List Token) :
    (pieces b tokens).length = tokens.length := by
  induction tokens generalizing b with
  | nil => rfl
  | cons t tokens ih => exact congrArg Nat.succ (ih _)

/-- The kinds of pieces are those of their tokens. -/
theorem Token.map_kind_pieces (b : Option Token) (tokens : List Token) :
    (pieces b tokens).map Piece.kind = tokens.map (·.kind) := by
  induction tokens generalizing b with
  | nil => rfl
  | cons t tokens ih => exact congrArg (t.kind :: ·) (ih _)

/-- The pieces of tokens one behind the other are parted where the tokens are. -/
theorem Token.pieces_append (b : Option Token) (first second : List Token) :
    pieces b (first ++ second) = pieces b first ++ pieces (first.getLast?.or b) second := by
  induction first generalizing b with
  | nil => rfl
  | cons t first ih =>
    rw [List.cons_append, pieces, pieces, ih, List.getLast?_cons]
    cases first.getLast? <;> rfl

theorem Token.exists_of_pieces_eq_singleton {b : Option Token} {ts : List Token} {p : Piece}
    (h : pieces b ts = [p]) : ∃ t, ts = [t] ∧ t.kind = p.kind := by
  obtain ⟨t, rfl⟩ : ∃ t, ts = [t] :=
    List.length_eq_one_iff.1 ((length_pieces b ts).symm.trans (congrArg List.length h))
  exact ⟨t, rfl, congrArg Piece.kind (List.singleton_inj.1 h)⟩

/-- Tokens are divided as their pieces are. -/
theorem Token.exists_append_of_pieces_eq {b : Option Token} {ts : List Token} {ps qs : List Piece}
    (h : pieces b ts = ps ++ qs) :
    ∃ us vs b', ts = us ++ vs ∧ pieces b us = ps ∧ pieces b' vs = qs := by
  induction ps generalizing ts b with
  | nil => exact ⟨[], ts, b, rfl, rfl, h⟩
  | cons p ps ih =>
    rcases ts with - | ⟨t, ts⟩
    · cases h
    · obtain ⟨hp, h⟩ := List.cons_eq_cons.1 h
      obtain ⟨us, vs, b', rfl, rfl, hvs⟩ := ih h
      exact ⟨t :: us, vs, b', rfl, congrArg (· :: _) hp, hvs⟩

/-- The lexemes of a text are its tokens but for the comments. -/
theorem Lexeme.map_piece_gather (before : Option Token) (pending : List Comment)
    (tokens : List Token) :
    (gather before pending tokens).1.map Lexeme.piece =
      Token.pieces before (tokens.filter fun t ↦ !t.kind.isComment) := by
  induction tokens generalizing before pending with
  | nil => rfl
  | cons t tokens ih =>
    cases hcomment : t.kind.isComment with
    | false =>
      rw [gather_cons hcomment, List.filter_cons_of_pos (by simp [hcomment]), List.map_cons, ih]
      rfl
    | true =>
      obtain ⟨text, htext⟩ := TokenKind.exists_eq_comment hcomment
      rw [gather_comment htext, List.filter_cons_of_neg (by simp [hcomment]), ih]

/-- Where there are no comments, there are none around a lexeme. -/
theorem Lexeme.isBare_of_mem_gather {tokens : List Token}
    (hcode : ∀ t ∈ tokens, t.kind.isComment = false) (before : Option Token) :
    (∀ l ∈ (gather before [] tokens).1, l.view.IsBare) ∧ (gather before [] tokens).2 = [] := by
  induction tokens generalizing before with
  | nil => exact ⟨by simp [gather], rfl⟩
  | cons t tokens ih =>
    obtain ⟨ht, htokens⟩ := List.forall_mem_cons.1 hcode
    rw [gather_cons ht]
    refine ⟨List.forall_mem_cons.2 ⟨⟨rfl, ?_⟩, (ih htokens _).1⟩, (ih htokens _).2⟩
    cases tokens with
    | nil => rfl
    | cons next tokens =>
      show (trailingComment t (next :: tokens)).map _ = none
      rw [trailingComment_of_code (htokens next List.mem_cons_self)]
      rfl

namespace Signature

/-- A text without comments is accepted exactly if its pieces are derivable, and it is read as the
one signature that they spell. -/
theorem parse_iff_derives {source : String} {tokens : List Token}
    (h : Token.tokenize source = .ok tokens) (hcode : ∀ t ∈ tokens, t.kind.isComment = false) :
    ((∃ s, Signature.parse source = .ok s) ↔
      Derives production (.ref .signature) (Token.pieces none tokens)) ∧
    ∀ s, Signature.parse source = .ok s ↔
      Phrase.Spells (.declarations s.declarations)
        ((Document.ofTokens tokens).lexemes.map Lexeme.view) ∧ s.trailingComments = [] := by
  obtain ⟨hbare, hclosing⟩ := Lexeme.isBare_of_mem_gather hcode none
  have hpieces : ((Document.ofTokens tokens).lexemes.map Lexeme.view).map View.toPiece =
      Token.pieces none tokens := by
    have hfilter : tokens.filter (fun t ↦ !t.kind.isComment) = tokens :=
      List.filter_eq_self.2 fun t ht ↦ by simp [hcode t ht]
    rw [Lexeme.map_toPiece_map_view]
    exact (Lexeme.map_piece_gather none [] tokens).trans (by rw [hfilter])
  have hspelled : ∀ s, Signature.parse source = .ok s ↔
      Phrase.Spells (.declarations s.declarations)
        ((Document.ofTokens tokens).lexemes.map Lexeme.view) ∧ s.trailingComments = [] := by
    intro s
    rw [Signature.parse, h, Except.ok_bind, Signature.ofTokens, ofDocument_eq_ok_iff,
      show (Document.ofTokens tokens).closing = [] from hclosing]
    rfl
  refine ⟨⟨?_, fun hderives ↦ ?_⟩, hspelled⟩
  · rintro ⟨s, hs⟩
    rw [← hpieces]
    exact .ref ((hspelled s).1 hs).1.derives
  · have hviews : ∀ v ∈ (Document.ofTokens tokens).lexemes.map Lexeme.view, v.IsBare := by
      intro v hv
      obtain ⟨l, hl, rfl⟩ := List.mem_map.1 hv
      exact hbare l hl
    obtain ⟨ds, hds⟩ := Nonterminal.means_of_derives hderives _ hviews hpieces
    exact ⟨⟨ds, []⟩, (hspelled _).2 ⟨hds, rfl⟩⟩

/-- Words that are keywords elsewhere are names here, and a mark of a parameter is told from a
suffix. -/
theorem parse_iff_derives_sample :
    ∃ tokens, Token.tokenize "class end def self.class?: (?end: A[b], ?untyped end) -> (A|b)? end" =
        .ok tokens ∧ (∀ t ∈ tokens, t.kind.isComment = false) ∧
      Derives production (.ref .signature) (Token.pieces none tokens) := by
  generalize hsource :
    "class end def self.class?: (?end: A[b], ?untyped end) -> (A|b)? end" = source
  have hcode : ((Token.tokenize source).toOption.any
      (·.all fun t ↦ !t.kind.isComment)) = true := by
    rw [← hsource]
    decide +kernel
  have hparse : (Signature.parse source).isOk = true := by
    rw [← hsource]
    decide +kernel
  cases htokens : Token.tokenize source with
  | error e => rw [htokens] at hcode; cases hcode
  | ok tokens =>
    rw [htokens] at hcode
    have hall : ∀ t ∈ tokens, t.kind.isComment = false := by
      simpa [Except.toOption] using hcode
    refine ⟨tokens, rfl, hall, (parse_iff_derives htokens hall).1.1 ?_⟩
    cases hs : Signature.parse source with
    | error e => rw [hs] at hparse; cases hparse
    | ok s => exact ⟨s, rfl⟩

end Signature

end ModelSignatures
