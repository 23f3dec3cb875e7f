import ModelSignatures.Proofs.Derivation
import ModelSignatures.Proofs.Signature.Grammar

/-!
# The productions of signatures

The grammar of signatures as a table of productions over pieces, without trees. Keywords are words
like any other here: which words are keywords is told by where they stand.
-/

namespace ModelSignatures

/-- The nonterminals of the grammar. -/
inductive Nonterminal
  | signature
  | declaration
  | member
  | methodType
  | param
  | unionType
  | optionalType
  | primaryType
  | args
  | classType
  | name
  | methodName
deriving DecidableEq, Repr

namespace Nonterminal

open Rule (ref empty many restrict possibly)

/-! ### Terminals -/

/-- A token of the kind. -/
def terminal (kind : TokenKind) : Rule Piece Nonterminal :=
  .token fun p ↦ p.kind = kind

def keyword (text : String) : Rule Piece Nonterminal := terminal (.word text)

def symbol (s : Symbol) : Rule Piece Nonterminal := terminal (.symbol s)

def word : Rule Piece Nonterminal := .token fun p ↦ ∃ text, p.kind = .word text

def annotation : Rule Piece Nonterminal := .token fun p ↦ ∃ text, p.kind = .annot text

/-- The keyword of a type. -/
def baseKeyword : Rule Piece Nonterminal := .token fun p ↦ ∃ b : BaseType, p.kind = .word b.keyword

/-- A symbol that touches the token before it. -/
def suffix (s : Symbol) : Rule Piece Nonterminal := .token fun p ↦ p = ⟨.symbol s, true⟩

/-! ### Productions -/

/-- Whether the first token is the keyword of a type. -/
def BeginsWithKeyword (ps : List Piece) : Prop :=
  ∃ p ∈ ps.head?, ∃ b : BaseType, p.kind = .word b.keyword

/-- Whether the last token is a word that begins with a lower-case ASCII letter. -/
def EndsInLower (ps : List Piece) : Prop :=
  ∃ p ∈ ps.getLast?, ∃ text, p.kind = .word text ∧ text.toList.head?.any Char.isLower = true

/-- The header of a declaration. -/
def header : Rule Piece Nonterminal :=
  keyword "class" ++ ref name ++ possibly (symbol .less ++ ref classType) |||
    keyword "module" ++ ref name

/-- A method behind its keyword. -/
def method : Rule Piece Nonterminal :=
  possibly (keyword "self" ++ symbol .dot) ++ ref methodName ++ symbol .colon ++ ref methodType ++
    many (symbol .pipe ++ ref methodType)

/-- A member that is no declaration, from its keyword. -/
def line : Rule Piece Nonterminal :=
  keyword "include" ++ ref classType |||
    keyword "extend" ++ ref classType |||
    (keyword "attr_reader" ||| keyword "attr_writer" ||| keyword "attr_accessor") ++
      ref methodName ++ symbol .colon ++ ref unionType |||
    keyword "def" ++ method |||
    keyword "alias" ++ ref methodName ++ ref methodName

/-- What tells how a parameter is passed. -/
def passing : Rule Piece Nonterminal :=
  symbol .starStar ||| symbol .star ||| symbol .question ++ word ++ symbol .colon |||
    symbol .question ||| word ++ symbol .colon ||| empty

/-- What each nonterminal stands for. -/
def production : Nonterminal → Rule Piece Nonterminal
  | signature => many (ref declaration)
  | declaration => many annotation ++ header ++ many (ref member) ++ keyword "end"
  | member => many annotation ++ line ||| ref declaration
  | methodType =>
    symbol .leftParen ++ possibly (ref param ++ many (symbol .comma ++ ref param)) ++
      symbol .rightParen ++ symbol .arrow ++ ref optionalType
  | param => passing ++ ref unionType ++ possibly word
  | unionType => ref optionalType ++ many (symbol .pipe ++ ref optionalType)
  | optionalType => ref primaryType ++ possibly (symbol .question)
  | primaryType =>
    symbol .leftParen ++ ref unionType ++ symbol .rightParen |||
      baseKeyword |||
      restrict (ref name) (fun ps ↦ ¬BeginsWithKeyword ps) |||
      restrict (ref name) (fun ps ↦ ¬BeginsWithKeyword ps ∧ ¬EndsInLower ps) ++ ref args
  | args =>
    symbol .leftBracket ++ (ref unionType ++ many (symbol .comma ++ ref unionType)) ++
      symbol .rightBracket
  | classType => ref name ++ possibly (ref args)
  | name => possibly (symbol .colonColon) ++ word ++ many (symbol .colonColon ++ word)
  | methodName => word ++ possibly (suffix .question ||| suffix .bang ||| suffix .equals)

/-- Whether every list that is derived from the nonterminal has a token in it. Only a text may be
empty. -/
def isFilled : Nonterminal → Bool
  | signature => false
  | _ => true

/-- Every rule can be completed from the nonterminals that are filled. -/
theorem fills_production (n : Nonterminal) (h : n.isFilled = true) :
    (production n).fills isFilled = true := by
  cases n with
  | signature => cases h
  | _ => rfl

end Nonterminal

open Nonterminal (production)
open Rule (Derives)

/-! ### What is spelled is derivable -/

namespace Nonterminal

/-- A terminal derives just the pieces of its kind. -/
theorem derives_terminal {p : Piece} {kind : TokenKind} (h : p.kind = kind) :
    Derives production (terminal kind) [p] :=
  .token h

theorem derives_word {p : Piece} {text : String} (h : p.kind = .word text) :
    Derives production word [p] :=
  .token ⟨text, h⟩

/-- A piece in front of what a rule derives is derived by the terminal and the rule. -/
theorem derives_cons {p : Piece} {kind : TokenKind} {rule : Rule Piece Nonterminal}
    {ps : List Piece} (hp : p.kind = kind) (h : Derives production rule ps) :
    Derives production (terminal kind ++ rule) (p :: ps) :=
  .sequence (derives_terminal hp) h

/-- What may follow need not. -/
theorem derives_without {rule other : Rule Piece Nonterminal} {ps : List Piece}
    (h : Derives production rule ps) : Derives production (rule ++ .possibly other) ps := by
  have hall : Derives production (rule ++ .possibly other) (ps ++ []) :=
    .sequence h (.right .empty)
  rwa [List.append_nil] at hall

/-- What may stand in front need not. -/
theorem derives_behind_possibly {rule other : Rule Piece Nonterminal} {ps : List Piece}
    (h : Derives production rule ps) : Derives production (.possibly other ++ rule) ps :=
  .sequence (.right .empty) h

/-- An item behind its separator goes in front of what a repetition derives. -/
theorem derives_more {s : Symbol} {item : Rule Piece Nonterminal} {p : Piece}
    {first others : List Piece} (hp : p.kind = .symbol s) (hfirst : Derives production item first)
    (hothers : Derives production (.many (symbol s ++ item)) others) :
    Derives production (.many (symbol s ++ item)) (p :: (first ++ others)) :=
  .more (derives_cons hp hfirst) hothers

/-- What a rule derives can be put between two symbols. -/
theorem derives_between {opening closing : Symbol} {rule : Rule Piece Nonterminal} {p q : Piece}
    {inner : List Piece} (hp : p.kind = .symbol opening) (hinner : Derives production rule inner)
    (hq : q.kind = .symbol closing) :
    Derives production (symbol opening ++ rule ++ symbol closing) (p :: (inner ++ [q])) :=
  .sequence (.sequence (derives_terminal hp) hinner) (derives_terminal hq)

end Nonterminal

open Nonterminal (derives_terminal derives_word derives_cons derives_without derives_more
  derives_between)

/-- The segments of a name behind the first are derived by a repetition. -/
theorem TypeName.derives_segments {segments : List String} {ps : List Piece}
    (hps : ps.map Piece.kind = segments.flatMap fun segment ↦
      [.symbol .colonColon, .word segment]) :
    Derives production (.many (Nonterminal.symbol .colonColon ++ Nonterminal.word)) ps := by
  induction segments generalizing ps with
  | nil =>
    rw [List.map_eq_nil_iff.1 hps]
    exact .done
  | cons segment segments ih =>
    obtain ⟨colons, tail, rfl, hcolons, htail⟩ := List.map_eq_cons_iff.1 hps
    obtain ⟨p, more, rfl, hp, hmore⟩ := List.map_eq_cons_iff.1 htail
    exact derives_more hcolons (derives_word hp) (ih hmore)

/-- What spells a name is derived from the rule of names. -/
theorem TypeName.derives {name : TypeName} (hne : name.path ≠ []) {ps : List Piece}
    (hps : ps.map Piece.kind = name.kinds) : Derives production (.ref .name) ps := by
  obtain ⟨absolute, path⟩ := name
  obtain ⟨first, others, rfl⟩ := List.exists_cons_of_ne_nil hne
  obtain ⟨colons, tail, rfl, hcolons, htail⟩ := List.map_eq_append_iff.1 hps
  obtain ⟨p, more, rfl, hp, hmore⟩ := List.map_eq_cons_iff.1 htail
  have hfirst : Derives production (.possibly (Nonterminal.symbol .colonColon)) colons := by
    cases absolute with
    | true =>
      obtain ⟨q, rfl, hq⟩ := List.map_eq_singleton_iff.1 hcolons
      exact .left (.token hq)
    | false =>
      rw [List.map_eq_nil_iff.1 hcolons]
      exact .right .empty
  rw [← List.singleton_append, ← List.append_assoc]
  exact .ref (.sequence (.sequence hfirst (derives_word hp)) (derives_segments hmore))

/-- The last token of a name is its last segment. -/
theorem TypeName.getLast?_kinds {name : TypeName} (hne : name.path ≠ []) :
    name.kinds.getLast? = name.path.getLast?.map .word := by
  obtain ⟨absolute, path⟩ := name
  obtain ⟨first, others, rfl⟩ := List.exists_cons_of_ne_nil hne
  rw [kinds, List.getLast?_append]
  rcases others.eq_nil_or_concat with rfl | ⟨init, last, rfl⟩
  · rfl
  · simp [List.getLast?_cons]

/-- Whether a name begins with a keyword can be told from its pieces. -/
theorem TypeName.beginsWithKeyword_iff {name : TypeName} (hne : name.path ≠ []) {ps : List Piece}
    (hps : ps.map Piece.kind = name.kinds) :
    Nonterminal.BeginsWithKeyword ps ↔ ¬name.IsNoKeyword := by
  obtain ⟨absolute, path⟩ := name
  obtain ⟨first, others, rfl⟩ := List.exists_cons_of_ne_nil hne
  cases absolute with
  | true =>
    obtain ⟨p, more, rfl, hp, -⟩ := List.map_eq_cons_iff.1 hps
    simp [Nonterminal.BeginsWithKeyword, IsNoKeyword, hp]
  | false =>
    obtain ⟨p, more, rfl, hp, -⟩ := List.map_eq_cons_iff.1 hps
    simp only [Nonterminal.BeginsWithKeyword, IsNoKeyword, List.head?_cons, Option.mem_def,
      Option.some.injEq, exists_eq_left', forall_eq', hp]
    constructor
    · rintro ⟨b, hb⟩ (h | h)
      · cases h
      · cases hb
        rw [BaseType.ofKeyword?_keyword] at h
        cases h
    · intro h
      rw [not_or] at h
      obtain ⟨b, hb⟩ := Option.ne_none_iff_exists'.1 h.2
      exact ⟨b, congrArg TokenKind.word (BaseType.keyword_of_ofKeyword? hb).symm⟩

/-- Whether a name is an alias can be told from the last of its pieces. -/
theorem TypeName.endsInLower_iff {name : TypeName} (hne : name.path ≠ []) {ps : List Piece}
    (hps : ps.map Piece.kind = name.kinds) :
    Nonterminal.EndsInLower ps ↔ name.namesAlias = true := by
  have hlast := congrArg List.getLast? hps
  rw [List.getLast?_map, getLast?_kinds hne] at hlast
  rw [Nonterminal.EndsInLower, namesAlias]
  cases hpath : name.path.getLast? with
  | none => exact absurd (List.getLast?_eq_none_iff.1 hpath) hne
  | some segment =>
    rw [hpath, Option.map_some, Option.map_eq_some_iff] at hlast
    obtain ⟨p, hp, hkind⟩ := hlast
    simp [hp, hkind]

/-- What a list of types at some level of precedence is derived from. -/
def TypeForm.rule : TypeForm → Rule Piece Nonterminal
  | primary _ => .ref .primaryType
  | optional _ => .ref .optionalType
  | union _ => .ref .unionType
  | alternatives _ => .many (Nonterminal.symbol .pipe ++ .ref .optionalType)
  | args _ => .possibly (.ref .args)
  | moreArgs _ => .many (Nonterminal.symbol .comma ++ .ref .unionType)

/-- What spells a type, at each level, is derived from the rule of that level. -/
theorem TypeForm.Spells.derives {form : TypeForm} {ks : List TokenKind} (h : form.Spells ks)
    {ps : List Piece} (hps : ps.map Piece.kind = ks) : Derives production form.rule ps := by
  induction h generalizing ps with
  | base b =>
    obtain ⟨p, rfl, hp⟩ := List.map_eq_singleton_iff.1 hps
    exact .ref (.left (.left (.right (.token ⟨b, hp⟩))))
  | group _ ih =>
    obtain ⟨opening, tail, rfl, hopening, htail⟩ := List.map_eq_cons_iff.1 hps
    obtain ⟨inner, last, rfl, hinner, hlast⟩ := List.map_eq_append_iff.1 htail
    obtain ⟨closing, rfl, hclosing⟩ := List.map_eq_singleton_iff.1 hlast
    exact .ref (.left (.left (.left (derives_between hopening (ih hinner) hclosing))))
  | aliasRef nonempty noKeyword =>
    have hbegins := mt (TypeName.beginsWithKeyword_iff nonempty hps).1 (not_not.2 noKeyword)
    exact .ref (.left (.right (.restrict (TypeName.derives nonempty hps) hbegins)))
  | @classRef name ts ks nonempty noKeyword isClass args ih =>
    obtain ⟨head, tail, rfl, hhead, htail⟩ := List.map_eq_append_iff.1 hps
    have hbegins := mt (TypeName.beginsWithKeyword_iff nonempty hhead).1 (not_not.2 noKeyword)
    have hname := TypeName.derives nonempty hhead
    have hlower : ¬Nonterminal.EndsInLower head := by
      rw [TypeName.endsInLower_iff nonempty hhead, isClass]
      simp
    -- without arguments the name alone is a type of the grammar
    cases ih htail with
    | left h => exact .ref (.right (.sequence (.restrict hname ⟨hbegins, hlower⟩) h))
    | right h =>
      cases h
      rw [List.append_nil]
      exact .ref (.left (.right (.restrict hname hbegins)))
  | plain _ ih =>
    exact .ref (derives_without (ih hps))
  | marked _ ih =>
    obtain ⟨operand, last, rfl, hoperand, hlast⟩ := List.map_eq_append_iff.1 hps
    obtain ⟨question, rfl, hquestion⟩ := List.map_eq_singleton_iff.1 hlast
    exact .ref (.sequence (ih hoperand) (.left (.token hquestion)))
  | union _ _ ihfirst ihothers =>
    obtain ⟨first, others, rfl, hfirst, hothers⟩ := List.map_eq_append_iff.1 hps
    exact .ref (.sequence (ihfirst hfirst) (ihothers hothers))
  | noAlternative | noMoreArgs =>
    rw [List.map_eq_nil_iff.1 hps]
    exact .done
  | alternative _ _ ihfirst ihothers | moreArgs _ _ ihfirst ihothers =>
    obtain ⟨p, tail, rfl, hp, htail⟩ := List.map_eq_cons_iff.1 hps
    obtain ⟨first, others, rfl, hfirst, hothers⟩ := List.map_eq_append_iff.1 htail
    exact derives_more hp (ihfirst hfirst) (ihothers hothers)
  | noArgs =>
    rw [List.map_eq_nil_iff.1 hps]
    exact .right .empty
  | args _ _ ihfirst ihothers =>
    obtain ⟨opening, tail, rfl, hopening, htail⟩ := List.map_eq_cons_iff.1 hps
    obtain ⟨list, last, rfl, hlist, hlast⟩ := List.map_eq_append_iff.1 htail
    obtain ⟨first, others, rfl, hfirst, hothers⟩ := List.map_eq_append_iff.1 hlist
    obtain ⟨closing, rfl, hclosing⟩ := List.map_eq_singleton_iff.1 hlast
    exact .left (.ref (derives_between hopening
      (.sequence (ihfirst hfirst) (ihothers hothers)) hclosing))

/-! ### What is spelled is derivable: methods -/

/-- What spells a parameter is derived from one of the rules of parameters. -/
theorem Param.Spells.derives {p : Param} {ks : List TokenKind} (h : p.Spells ks) {ps : List Piece}
    (hps : ps.map Piece.kind = ks) : Derives production (.ref .param) ps := by
  obtain @⟨kind, type, name, ks, spelled⟩ := h
  obtain ⟨mark, tail, rfl, hmark, htail⟩ := List.map_eq_append_iff.1 hps
  obtain ⟨typed, named, rfl, htyped, hnamed⟩ := List.map_eq_append_iff.1 htail
  have hpassing : Derives production Nonterminal.passing mark := by
    cases kind with
    | required =>
      rw [List.map_eq_nil_iff.1 hmark]
      exact .right .empty
    | optional =>
      obtain ⟨q, rfl, hq⟩ := List.map_eq_singleton_iff.1 hmark
      exact .left (.left (.right (derives_terminal hq)))
    | rest =>
      obtain ⟨q, rfl, hq⟩ := List.map_eq_singleton_iff.1 hmark
      exact .left (.left (.left (.left (.right (derives_terminal hq)))))
    | keywordRest =>
      obtain ⟨q, rfl, hq⟩ := List.map_eq_singleton_iff.1 hmark
      exact .left (.left (.left (.left (.left (derives_terminal hq)))))
    | requiredKeyword key =>
      obtain ⟨q, last, rfl, hq, hlast⟩ := List.map_eq_cons_iff.1 hmark
      obtain ⟨colon, rfl, hcolon⟩ := List.map_eq_singleton_iff.1 hlast
      exact .left (.right (.sequence (derives_word hq) (derives_terminal hcolon)))
    | optionalKeyword key =>
      obtain ⟨question, tail, rfl, hquestion, htail⟩ := List.map_eq_cons_iff.1 hmark
      obtain ⟨q, last, rfl, hq, hlast⟩ := List.map_eq_cons_iff.1 htail
      obtain ⟨colon, rfl, hcolon⟩ := List.map_eq_singleton_iff.1 hlast
      exact .left (.left (.left (.right (.sequence (.sequence (derives_terminal hquestion)
        (derives_word hq)) (derives_terminal hcolon)))))
  have hname : Derives production (.possibly Nonterminal.word) named := by
    cases name with
    | none =>
      rw [List.map_eq_nil_iff.1 hnamed]
      exact .right .empty
    | some text =>
      obtain ⟨q, rfl, hq⟩ := List.map_eq_singleton_iff.1 hnamed
      exact .left (derives_word hq)
  rw [← List.append_assoc]
  exact .ref (.sequence (.sequence hpassing (spelled.derives htyped)) hname)

/-- What each follows a separator is derived by a repetition, if each of them is derivable. -/
theorem Repeated.derives {α : Type} {s : Symbol} {P : α → List TokenKind → Prop}
    {item : Rule Piece Nonterminal}
    (hitem : ∀ {x ks ps}, P x ks → ps.map Piece.kind = ks → Derives production item ps)
    {xs : List α} {ks : List TokenKind} (h : Repeated s P xs ks) {ps : List Piece}
    (hps : ps.map Piece.kind = ks) :
    Derives production (.many (Nonterminal.symbol s ++ item)) ps := by
  induction h generalizing ps with
  | nil =>
    rw [List.map_eq_nil_iff.1 hps]
    exact .done
  | cons head tail ih =>
    obtain ⟨p, tail, rfl, hp, htail⟩ := List.map_eq_cons_iff.1 hps
    obtain ⟨first, others, rfl, hfirst, hothers⟩ := List.map_eq_append_iff.1 htail
    exact derives_more hp (hitem head hfirst) (ih hothers)

/-- What spells an overload is derived from the rule of a method's types. -/
theorem Overload.Spells.derives {o : Overload} {ks : List TokenKind} (h : o.Spells ks)
    {ps : List Piece} (hps : ps.map Piece.kind = ks) :
    Derives production (.ref .methodType) ps := by
  obtain @⟨params, result, ks, more, listed, spelled⟩ := h
  obtain ⟨opening, tail, rfl, hopening, htail⟩ := List.map_eq_cons_iff.1 hps
  obtain ⟨list, tail, rfl, hlist, htail⟩ := List.map_eq_append_iff.1 htail
  obtain ⟨closing, tail, rfl, hclosing, htail⟩ := List.map_eq_cons_iff.1 htail
  obtain ⟨arrow, typed, rfl, harrow, htyped⟩ := List.map_eq_cons_iff.1 htail
  have hparams : Derives production (.possibly (.ref .param ++
      .many (Nonterminal.symbol .comma ++ .ref .param))) list := by
    cases listed with
    | nil =>
      rw [List.map_eq_nil_iff.1 hlist]
      exact .right .empty
    | cons head tail =>
      obtain ⟨first, others, rfl, hfirst, hothers⟩ := List.map_eq_append_iff.1 hlist
      exact .left (.sequence (head.derives hfirst)
        (tail.derives (fun hspells ↦ hspells.derives) hothers))
  have hall := Derives.sequence (.sequence (derives_between hopening hparams hclosing)
    (derives_terminal harrow)) (spelled.derives htyped)
  rw [List.append_assoc, List.cons_append, List.append_assoc] at hall
  exact .ref hall

/-- What spells the name of a method is derived from the rule of such names. -/
theorem Method.NameSpells.derives {name : String} {ps : List Piece}
    (h : Method.NameSpells name ps) :
    Derives production (.ref .methodName) ps := by
  cases h with
  | plain => exact .ref (derives_without (derives_word rfl))
  | @suffixed stem glued s c suffix =>
    refine .ref (.sequence (derives_word rfl) (.left ?_))
    cases s with
    | question => exact .left (.left (.token rfl))
    | bang => exact .left (.right (.token rfl))
    | equals => exact .right (.token rfl)
    | _ => cases suffix

theorem ClassType.Spells.derives {c : ClassType} {ks : List TokenKind} (h : c.Spells ks)
    {ps : List Piece} (hps : ps.map Piece.kind = ks) :
    Derives production (.ref .classType) ps := by
  obtain ⟨nonempty, spelled⟩ := h
  obtain ⟨head, tail, rfl, hhead, htail⟩ := List.map_eq_append_iff.1 hps
  exact .ref (.sequence (TypeName.derives nonempty hhead) (spelled.derives htail))

/-! ### What is spelled is derivable: declarations -/

/-- What spells a header is derived from the rule of classes or from that of modules. -/
theorem DeclarationKind.Spells.derives {kind : DeclarationKind} {name : TypeName}
    {ks : List TokenKind} (h : kind.Spells name ks) {ps : List Piece}
    (hps : ps.map Piece.kind = ks) : Derives production Nonterminal.header ps := by
  cases h with
  | plainClass nonempty =>
    obtain ⟨p, tail, rfl, hp, htail⟩ := List.map_eq_cons_iff.1 hps
    exact .left
      (derives_without (.sequence (derives_terminal hp) (TypeName.derives nonempty htail)))
  | subclass nonempty spelled =>
    obtain ⟨p, tail, rfl, hp, htail⟩ := List.map_eq_cons_iff.1 hps
    obtain ⟨named, tail, rfl, hnamed, htail⟩ := List.map_eq_append_iff.1 htail
    obtain ⟨less, tail, rfl, hless, htail⟩ := List.map_eq_cons_iff.1 htail
    exact .left (.sequence (.sequence (derives_terminal hp) (TypeName.derives nonempty hnamed))
      (.left (.sequence (derives_terminal hless) (spelled.derives htail))))
  | ofModule nonempty =>
    obtain ⟨p, tail, rfl, hp, htail⟩ := List.map_eq_cons_iff.1 hps
    exact .right (.sequence (derives_terminal hp) (TypeName.derives nonempty htail))

/-- What spells a method is derived from the rule of methods, all overloads included. -/
theorem Method.Spells.derives {m : Method} {ps : List Piece} (h : m.Spells ps) :
    Derives production Nonterminal.method ps := by
  obtain @⟨name, singleton, first, others, self, stem, signature, ks, more, marked, named, spelled,
    repeated, typed⟩ := h
  obtain ⟨colon, tail, rfl, hcolon, htail⟩ := List.map_eq_cons_iff.1 typed
  obtain ⟨head, tail, rfl, hhead, htail⟩ := List.map_eq_append_iff.1 htail
  have hself : Derives production
      (.possibly (Nonterminal.keyword "self" ++ Nonterminal.symbol .dot)) self := by
    cases singleton with
    | false =>
      rw [List.map_eq_nil_iff.1 marked]
      exact .right .empty
    | true =>
      obtain ⟨p, last, rfl, hp, hlast⟩ := List.map_eq_cons_iff.1 marked
      obtain ⟨dot, rfl, hdot⟩ := List.map_eq_singleton_iff.1 hlast
      exact .left (.sequence (derives_terminal hp) (derives_terminal hdot))
  have hall := Derives.sequence (.sequence (.sequence (.sequence hself named.derives)
    (derives_terminal hcolon)) (spelled.derives hhead))
    (repeated.derives (fun hspells ↦ hspells.derives) htail)
  simp only [List.append_assoc, List.singleton_append] at hall
  exact hall

/-- The keyword of each kind of attribute is one of the three. -/
theorem AttributeKind.derives_keyword {kind : AttributeKind} {p : Piece}
    (hp : p.kind = .word kind.keyword) :
    Derives production (Nonterminal.keyword "attr_reader" ||| Nonterminal.keyword "attr_writer" |||
      Nonterminal.keyword "attr_accessor") [p] := by
  cases kind with
  | reader => exact .left (.left (derives_terminal hp))
  | writer => exact .left (.right (derives_terminal hp))
  | accessor => exact .right (derives_terminal hp)

/-- What spells a member that is no declaration is derived from the rule of lines. -/
theorem MemberContent.Spells.derives {content : MemberContent} {ps : List Piece}
    (h : content.Spells ps) : Derives production Nonterminal.line ps := by
  cases h with
  | including head spelled =>
    exact .left (.left (.left (.left (.sequence (derives_terminal head) (spelled.derives rfl)))))
  | extending head spelled =>
    exact .left (.left (.left (.right (.sequence (derives_terminal head) (spelled.derives rfl)))))
  | attr head named spelled typed =>
    obtain ⟨colon, tail, rfl, hcolon, htail⟩ := List.map_eq_cons_iff.1 typed
    have hall := Derives.sequence (.sequence (.sequence (AttributeKind.derives_keyword head)
      named.derives) (derives_terminal hcolon)) (spelled.derives htail)
    rw [List.append_assoc, List.append_assoc] at hall
    exact .left (.left (.right hall))
  | method head spelled => exact .left (.right (.sequence (derives_terminal head) spelled.derives))
  | aliasing head new old =>
    exact .right (.sequence (.sequence (derives_terminal head) new.derives) old.derives)

/-- What a part of a signature text is derived from. -/
def Phrase.rule : Phrase → Rule Piece Nonterminal
  | declaration _ _ _ _ => .ref .declaration
  | members _ _ => .many (.ref .member)
  | declarations _ => .many (.ref .declaration)

/-- Annotations are derived by a repetition, however many there are. -/
theorem derives_annotations {annots : List String} {ps : List Piece}
    (hps : ps.map Piece.kind = annots.map .annot) :
    Derives production (.many Nonterminal.annotation) ps := by
  induction ps generalizing annots with
  | nil => exact .done
  | cons p ps ih =>
    obtain ⟨text, annots, rfl, hp, hannots⟩ := List.map_eq_cons_iff.1 hps.symm
    have hannot : Derives production Nonterminal.annotation [p] := .token ⟨text, hp.symm⟩
    exact .more hannot (ih hannots.symm)

/-- The pieces of what spells a phrase are derivable, whatever comments there are. -/
theorem Phrase.Spells.derives {phrase : Phrase} {vs : List View} (h : phrase.Spells vs) :
    Derives production phrase.rule (vs.map View.toPiece) := by
  induction h with
  | declaration annotated headed _ _ closed ih =>
    have hall := Derives.sequence (.sequence (.sequence
      (derives_annotations (by rwa [List.map_map]))
      (headed.derives (List.map_map ..))) ih) (derives_terminal closed)
    rw [← List.map_append, ← List.map_append, ← List.map_singleton, ← List.map_append,
      List.append_assoc, List.append_assoc] at hall
    exact .ref hall
  | noMember | noDeclaration => exact .done
  | lineMember annotated spelled _ _ ih =>
    have hall := Derives.sequence (derives_annotations (by rwa [List.map_map])) spelled.derives
    rw [← List.append_assoc, List.map_append, List.map_append]
    exact .more (.ref (.left hall)) ih
  | nestedMember _ _ ihd ih =>
    rw [List.map_append]
    exact .more (.ref (.right ihd)) ih
  | moreDeclarations _ _ ihd ih =>
    rw [List.map_append]
    exact .more ihd ih

end ModelSignatures
