import ModelSignatures.Proofs.Signature.BodyPrediction
import ModelSignatures.Proofs.Token.Places

/-!
# A syntax error points at the first token that does not fit

The readers predict the grammar, so where they fail at a lexeme, they fail alike at every lexeme
that looks like it behind the same lexemes, and those can be completed. It is left to go from
lexemes to texts: which lexemes a text begins with is told by the tokens that it begins with
(`Lexeme.gather_congr`), and tokens can be written behind those of any text
(`Token.exists_tokenize_append`).
-/

namespace ModelSignatures

open Nonterminal (production)
open Rule (Derives)

/-! ### From tokens to lexemes -/

theorem Lexeme.trailingComment_append {tokens : List Token} {k : Token}
    (hcode : ∀ u ∈ tokens ++ [k], u.kind.isComment = false) (t : Token) (after : List Token) :
    trailingComment t (tokens ++ k :: after) = none := by
  cases tokens with
  | nil => exact trailingComment_of_code (hcode k (by simp)) t after
  | cons u tokens => exact trailingComment_of_code (hcode u (by simp)) t _

/-- The lexeme of a token behind the token `b`, where no comment stands before it. -/
def Lexeme.ofToken (b : Option Token) (t : Token) (trailing : Option Comment) : Lexeme where
  kind := t.kind
  position := t.start.toPosition
  leading := []
  trailing := trailing
  glued := b.any (·.isAdjacentTo t)
  spaced := b.any fun b ↦ b.stop.line + 1 < t.start.line

theorem Lexeme.gather_code {t : Token} (ht : t.kind.isComment = false) (b : Option Token)
    (tokens : List Token) :
    (gather b [] (t :: tokens)).1 =
      ofToken b t (trailingComment t tokens) :: (gather (some t) [] tokens).1 :=
  congrArg Prod.fst (gather_cons ht b [] tokens)

/-- Whether what is seen of two tokens behind which others are read is alike to those. -/
def Token.LookAlike (b b' : Option Token) (u u' : Token) : Prop :=
  b.any (·.isAdjacentTo u) = b'.any (·.isAdjacentTo u') ∧
    b.map (·.stop.line) = b'.map (·.stop.line)

theorem Lexeme.ofToken_congr {b b' : Option Token} {t t' : Token} (ht : t.sight = t'.sight)
    (hfirst : Token.LookAlike b b' t t') (trailing : Option Comment) :
    ofToken b t trailing = ofToken b' t' trailing := by
  obtain ⟨hkind, hstart⟩ := Prod.mk.inj ht
  have hspaced : ∀ (b : Option Token) (line : ℕ), (b.any fun b ↦ b.stop.line + 1 < line) =
      (b.map (·.stop.line)).any fun stop ↦ stop + 1 < line := by
    intro b line
    cases b <;> rfl
  rw [ofToken, ofToken, hspaced, hspaced, hfirst.1, hfirst.2, hkind, hstart]

/-- Texts that look alike up to some token that is no comment have the same lexemes in front of it.
-/
theorem Lexeme.gather_congr {b b' : Option Token} {before before' : List Token} {k k' : Token}
    (after after' : List Token)
    (hfirst : ∀ u ∈ (before ++ [k]).head?, ∀ u' ∈ (before' ++ [k']).head?,
      Token.LookAlike b b' u u')
    (hsights : (before ++ [k]).map Token.sight = (before' ++ [k']).map Token.sight)
    (hcode : ∀ u ∈ before ++ [k], u.kind.isComment = false)
    (hcode' : ∀ u ∈ before' ++ [k'], u.kind.isComment = false)
    (hseen : (before ++ [k]).IsChain fun t u ↦ t.kind.isComment = false → t.SeenBefore u)
    (hseen' : (before' ++ [k']).IsChain fun t u ↦ t.kind.isComment = false → t.SeenBefore u) :
    ∃ pre l l' rest rest', (gather b [] (before ++ k :: after)).1 = pre ++ l :: rest ∧
      (gather b' [] (before' ++ k' :: after')).1 = pre ++ l' :: rest' ∧ pre.length = before.length ∧
      l'.piece = l.piece ∧ (l.kind, l.position) = k.sight ∧ (l'.kind, l'.position) = k.sight := by
  have hlength := congrArg List.length hsights
  simp only [List.length_map, List.length_append, List.length_singleton, Nat.add_right_cancel_iff]
    at hlength
  induction before generalizing b b' before' with
  | nil =>
    obtain rfl := List.length_eq_zero_iff.1 hlength.symm
    have hk : k.sight = k'.sight := (List.cons.inj hsights).1
    refine ⟨[], _, _, _, _, gather_code (hcode k (by simp)) b after,
      gather_code (hcode' k' (by simp)) b' after', rfl, ?_, rfl, hk.symm⟩
    show (ofToken b' k' none).piece = (ofToken b k none).piece
    rw [ofToken_congr hk (hfirst k rfl k' rfl)]
  | cons t before ih =>
    rcases before' with - | ⟨t', before'⟩
    · cases hlength
    · rw [List.cons_append, List.cons_append, List.map_cons, List.map_cons, List.cons_eq_cons]
        at hsights
      obtain ⟨ht, hsights⟩ := hsights
      rw [List.cons_append, List.forall_mem_cons] at hcode hcode'
      rw [List.cons_append, List.isChain_cons] at hseen hseen'
      -- `t` and `t'` look alike, so the next tokens touch them and stand below them alike
      have hnext : ∀ u ∈ (before ++ [k]).head?, ∀ u' ∈ (before' ++ [k']).head?,
          Token.LookAlike (some t) (some t') u u' := by
        intro u hu u' hu'
        have hheads := congrArg List.head? hsights
        rw [List.head?_map, List.head?_map, hu, hu'] at hheads
        have hcongr := (hseen.1 u hu hcode.1).congr (hseen'.1 u' hu' hcode'.1) ht
          (Option.some.inj hheads)
        exact ⟨hcongr.1, congrArg some hcongr.2⟩
      obtain ⟨pre, l, l', rest, rest', heq, heq', hpre, hl⟩ := ih hnext hsights hcode.2 hcode'.2
        hseen.2 hseen'.2 (Nat.succ.inj hlength)
      refine ⟨ofToken b t none :: pre, l, l', rest, rest', ?_, ?_, congrArg Nat.succ hpre, hl⟩
      · rw [List.cons_append, gather_code hcode.1, trailingComment_append hcode.2, heq]
        rfl
      · rw [List.cons_append, gather_code hcode'.1, trailingComment_append hcode'.2, heq',
          ofToken_congr ht (hfirst t rfl t' rfl)]
        rfl

/-! ### Texts that begin alike -/

/-- The tokens in front of the one that a lexeme is of. -/
theorem Token.exists_split {tokens : List Token} (hcode : ∀ t ∈ tokens, t.kind.isComment = false)
    {pre rest : List Lexeme} {l : Lexeme}
    (h : (Lexeme.gather none [] tokens).1 = pre ++ l :: rest) :
    ∃ before k after, tokens = before ++ k :: after ∧ before.length = pre.length ∧
      pre.map Lexeme.piece = pieces none before := by
  have hfilter : tokens.filter (fun t ↦ !t.kind.isComment) = tokens :=
    List.filter_eq_self.2 fun t ht ↦ by simp [hcode t ht]
  have hpieces := Lexeme.map_piece_gather none [] tokens
  rw [hfilter, h] at hpieces
  have hlength := congrArg List.length hpieces
  rw [length_pieces, List.length_map, List.length_append, List.length_cons] at hlength
  obtain ⟨k, after, hdrop⟩ : ∃ k after, tokens.drop pre.length = k :: after :=
    List.exists_cons_of_ne_nil (by
      rw [ne_eq, List.drop_eq_nil_iff]
      omega)
  have htokens : tokens = tokens.take pre.length ++ k :: after := by
    rw [← hdrop, List.take_append_drop]
  have htake : (tokens.take pre.length).length = pre.length := by
    rw [List.length_take]
    omega
  refine ⟨_, k, after, htokens, htake, ?_⟩
  rw [htokens, pieces_append, List.map_append] at hpieces
  refine List.append_inj_left hpieces ?_
  rw [List.length_map, length_pieces, htake]

/-- A text that looks alike up to a token has a token there. -/
theorem Token.exists_split_of_sights {before tokens : List Token} {k : Token}
    (h : (before ++ [k]).map sight <+: tokens.map sight) :
    ∃ before' k' after, tokens = before' ++ k' :: after ∧
      (before' ++ [k']).map sight = (before ++ [k]).map sight := by
  obtain ⟨seen, hseen⟩ := h
  obtain ⟨front, after, rfl, hfront, -⟩ := List.map_eq_append_iff.1 hseen.symm
  have hsplit := hfront
  rw [List.map_append] at hsplit
  obtain ⟨before', last, rfl, -, hlast⟩ := List.map_eq_append_iff.1 hsplit
  obtain ⟨k', rfl, -⟩ := List.map_eq_singleton_iff.1 hlast
  exact ⟨before', k', after, by simp, hfront⟩

/-- Tokens behind spaces touch nothing. -/
theorem Token.pieces_spread (kinds : List TokenKind) {b : Option Token} {place : Location}
    (hb : ∀ t ∈ b, t.stop.offset ≤ place.offset) :
    pieces b ((Layout.spread kinds).tokensAt place) = kinds.map fun kind ↦ ⟨kind, false⟩ := by
  induction kinds generalizing b place with
  | nil => rfl
  | cons kind kinds ih =>
    have hstart : place.offset < (place.walk [' ']).offset :=
      Location.offset_lt_walk (List.cons_ne_nil _ _)
    have hapart : (b.any fun t ↦ t.stop.offset == (place.walk [' ']).offset) = false := by
      cases b with
      | none => rfl
      | some t =>
        have hle := hb t rfl
        rw [Option.any_some, beq_eq_false_iff_ne]
        omega
    have hbehind : ∀ t ∈ some
        (⟨kind, place.walk [' '], (place.walk [' ']).walk kind.spelling⟩ : Token),
        t.stop.offset ≤ ((place.walk [' ']).walk kind.spelling).offset := by
      rintro t ⟨⟩
      exact Nat.le_refl _
    exact congrArg₂ List.cons (congrArg (Piece.mk kind) hapart) (ih hbehind)

/-- Behind the first tokens of a text others can be written that touch nothing. -/
theorem Token.exists_tokenize_append {source : String} {before after : List Token}
    (h : Token.tokenize source = .ok (before ++ after))
    (hcode : ∀ t ∈ before, t.kind.isComment = false) {kinds : List TokenKind}
    (hkinds : ∀ kind ∈ kinds, kind.IsFiller) :
    ∃ source' others, Token.tokenize source' = .ok (before ++ others) ∧
      (∀ t ∈ others, t.kind.isComment = false) ∧
      Token.pieces none (before ++ others) =
        Token.pieces none before ++ kinds.map fun kind ↦ ⟨kind, false⟩ := by
  obtain ⟨front, -, hfront⟩ := (tokenize_eq_ok_iff.1 h).exists_front hcode
  obtain ⟨hreadable, hannots⟩ := Layout.readable_spread hkinds
  generalize hplace : Lexer.placeBehind .origin before = place at hfront
  refine ⟨String.ofList (front ++ (Layout.chars (Layout.spread kinds) ++ [' '])),
    (Layout.spread kinds).tokensAt place, ?_, fun t ht ↦ ?_, ?_⟩
  · rw [tokenize_eq_ok_iff, String.toList_ofList]
    refine hfront _ _ (Layout.head?_spread kinds) ?_
    exact (Lexer.tokenized_chars_append_iff hreadable hannots).2
      ⟨[], (List.append_nil _).symm, .blanks (List.forall_mem_singleton.2 rfl)⟩
  · have hkind : t.kind ∈ ((Layout.spread kinds).tokensAt place).map (·.kind) :=
      List.mem_map_of_mem ht
    rw [Layout.map_kind_tokensAt, Layout.tokens_spread] at hkind
    exact (hkinds _ hkind).2
  · rw [pieces_append, pieces_spread]
    intro t ht
    rw [Option.or_none] at ht
    rw [← hplace, Lexer.placeBehind, ht]
    exact Nat.le_refl _

namespace Signature

theorem parse_eq_error_iff {source : String} {tokens : List Token} {e : SyntaxError}
    (h : Token.tokenize source = .ok tokens) :
    Signature.parse source = .error e ↔
      ∃ failure, Declaration.readRest (Lexeme.gather none [] tokens).1.length
          (Lexeme.gather none [] tokens).1 = .error failure ∧
        failure.toSyntaxError (Document.endingOf tokens) = e := by
  have hlexemes : (Document.ofTokens tokens).lexemes = (Lexeme.gather none [] tokens).1 := rfl
  rw [Signature.parse, h, Except.ok_bind, ofTokens, ofDocument, hlexemes, Declaration.readRest]
  cases Declaration.readAll (Lexeme.gather none [] tokens).1.length
    (Lexeme.gather none [] tokens).1 with
  | ok ds => simp
  | error failure =>
    constructor
    · rintro ⟨⟩
      exact ⟨failure, rfl, rfl⟩
    · rintro ⟨_, hread, rfl⟩
      rw [← Except.error.inj hread]
      rfl

/-- What a text is rejected at, as seen by a reader of a text up to some other size. -/
theorem exists_of_parse_unexpected {source : String} {tokens : List Token} {position : Position}
    {wanted : Expectation} {found : TokenKind} (h : Token.tokenize source = .ok tokens)
    (hcode : ∀ t ∈ tokens, t.kind.isComment = false)
    (herror : Signature.parse source = .error ⟨position, .unexpectedToken wanted (some found)⟩)
    (size : ℕ) :
    ∃ before k after, tokens = before ++ k :: after ∧ k.sight = (found, position) ∧
      Viable (Rule.Language (.many (.ref .declaration)) : List Declaration → List Piece → Prop)
        (Token.pieces none before) ∧
      ∃ pre l rest, (Lexeme.gather none [] tokens).1 = pre ++ l :: rest ∧
        pre.length = before.length ∧
        ∀ l' rest', l'.piece = l.piece → (pre ++ l' :: rest').length ≤ size →
          Declaration.readRest size (pre ++ l' :: rest') =
            .error (.unexpected wanted (some l')) := by
  obtain ⟨failure, hread, hfailure⟩ := (parse_eq_error_iff h).1 herror
  obtain ⟨l, rfl, hfound, hposition⟩ : ∃ l, failure = .unexpected wanted (some l) ∧
      l.kind = found ∧ l.position = position := by
    rcases failure with ⟨w, - | l⟩ | comment
    · cases hfailure
    · cases hfailure
      exact ⟨l, rfl, rfl, rfl⟩
    · cases hfailure
  obtain ⟨pre, rest, hpre, hviable, hsame⟩ :=
    (Declaration.readRest_predicts _ size).failure (Nat.le_refl _) hread
  obtain ⟨before, k, after, rfl, hlength, hpieces⟩ := Token.exists_split hcode hpre
  have hbegin : before ++ [k] <+: before ++ k :: after := ⟨after, by simp⟩
  have hcode' : ∀ u ∈ before ++ [k], u.kind.isComment = false :=
    fun u hu ↦ hcode u (hbegin.subset hu)
  have hseen := (List.isChain_split.1 (Token.seenBefore_of_tokenize h)).1
  obtain ⟨pre₂, l₂, -, rest₂, -, heq, -, hlength₂, -, hl₂, -⟩ :=
    Lexeme.gather_congr after after (b := none) (fun _ _ _ _ ↦ ⟨rfl, rfl⟩) rfl hcode' hcode' hseen
      hseen
  obtain ⟨rfl, htail⟩ := List.append_inj (hpre.symm.trans heq) (hlength.symm.trans hlength₂.symm)
  obtain ⟨rfl, rfl⟩ := List.cons.inj htail
  refine ⟨before, k, after, rfl, ?_, hpieces ▸ hviable, pre, l, rest, hpre, hlength.symm, hsame⟩
  rw [← hl₂, hfound, hposition]

/-- A syntax error at a token points at the first one that does not fit: it is found again in every
text that looks alike up to that token, and the tokens in front of it begin a text that is
accepted. -/
theorem parse_unexpected {source : String} {tokens : List Token} {position : Position}
    {wanted : Expectation} {found : TokenKind} (h : Token.tokenize source = .ok tokens)
    (hcode : ∀ t ∈ tokens, t.kind.isComment = false)
    (herror : Signature.parse source = .error ⟨position, .unexpectedToken wanted (some found)⟩) :
    ∃ before k after, tokens = before ++ k :: after ∧ k.sight = (found, position) ∧
      (∀ source' tokens', Token.tokenize source' = .ok tokens' →
        (before ++ [k]).map Token.sight <+: tokens'.map Token.sight →
        Signature.parse source' = .error ⟨position, .unexpectedToken wanted (some found)⟩) ∧
      ∃ source' others s, Token.tokenize source' = .ok (before ++ others) ∧
        Signature.parse source' = .ok s := by
  obtain ⟨before, k, after, rfl, hk, ⟨ds, kinds, hkinds, hds⟩, -⟩ :=
    exists_of_parse_unexpected h hcode herror 0
  refine ⟨before, k, after, rfl, hk, fun source' tokens' h' hsights ↦ ?_, ?_⟩
  · obtain ⟨before₂, k₂, after₂, htokens, hk₂, -, pre, l, rest, hpre, hlength, hsame⟩ :=
      exists_of_parse_unexpected h hcode herror (Lexeme.gather none [] tokens').1.length
    obtain ⟨rfl, rfl, rfl⟩ :=
      Token.before_eq_of_sight (Token.nodup_positions h) htokens (hk.trans hk₂.symm)
    obtain ⟨before', k', after', rfl, halike⟩ := Token.exists_split_of_sights hsights
    have hbegin : before ++ [k] <+: before ++ k :: after := ⟨after, by simp⟩
    have hfront : ∀ u ∈ before ++ [k], u.kind.isComment = false :=
      fun u hu ↦ hcode u (hbegin.subset hu)
    have hfront' : ∀ u ∈ before' ++ [k'], u.kind.isComment = false := by
      intro u hu
      have hmem : u.sight ∈ (before ++ [k]).map Token.sight := halike ▸ List.mem_map_of_mem hu
      obtain ⟨t, ht, heq⟩ := List.mem_map.1 hmem
      have hkind : t.kind = u.kind := congrArg Prod.fst heq
      rw [← hkind]
      exact hfront t ht
    obtain ⟨pre₂, l₂, l', rest₂, rest', heq, heq', hlength₂, hpiece, -, hl'⟩ :=
      Lexeme.gather_congr after after' (b := none) (fun _ _ _ _ ↦ ⟨rfl, rfl⟩) halike.symm hfront
        hfront' (List.isChain_split.1 (Token.seenBefore_of_tokenize h)).1
        (List.isChain_split.1 (Token.seenBefore_of_tokenize h')).1
    obtain ⟨rfl, htail⟩ := List.append_inj (hpre.symm.trans heq) (hlength.trans hlength₂.symm)
    obtain ⟨rfl, rfl⟩ := List.cons.inj htail
    rw [parse_eq_error_iff h']
    refine ⟨.unexpected wanted (some l'), ?_, ?_⟩
    · rw [heq'] at hsame ⊢
      exact hsame l' rest' hpiece (Nat.le_refl _)
    · obtain ⟨rfl, rfl⟩ := Prod.mk.inj (hl'.trans hk)
      rfl
  · have hbefore : ∀ t ∈ before, t.kind.isComment = false :=
      fun t ht ↦ hcode t (List.mem_append_left _ ht)
    obtain ⟨source', others, hsource', hothers, hall⟩ :=
      Token.exists_tokenize_append h hbefore hkinds
    have hderives :
        Derives production (.ref .signature) (Token.pieces none (before ++ others)) := by
      rw [hall]
      exact .ref hds
    obtain ⟨s, hs⟩ := (parse_iff_derives hsource'
      (List.forall_mem_append.2 ⟨hbefore, hothers⟩)).1.2 hderives
    exact ⟨source', others, s, hsource', hs⟩

/-- A key needs a type behind it, which is found out at the parenthesis. -/
theorem parse_unexpected_sample :
    ∃ before k after, Token.tokenize "class A def self.b?: (?c: ) -> D end" =
        .ok (before ++ k :: after) ∧ k.sight = (.symbol .rightParen, ⟨1, 27⟩) ∧
      ∃ source' others s, Token.tokenize source' = .ok (before ++ others) ∧
        Signature.parse source' = .ok s := by
  generalize hsource : "class A def self.b?: (?c: ) -> D end" = source
  have hall : ((Token.tokenize source).toOption.any
      (·.all fun t ↦ !t.kind.isComment)) = true := by
    rw [← hsource]
    decide +kernel
  have herror : (match Signature.parse source with
      | .error e => decide (e = ⟨⟨1, 27⟩, .unexpectedToken .type (some (.symbol .rightParen))⟩)
      | .ok _ => false) = true := by
    rw [← hsource]
    decide +kernel
  cases htokens : Token.tokenize source with
  | error e => rw [htokens] at hall; cases hall
  | ok tokens =>
    rw [htokens] at hall
    have hcode : ∀ t ∈ tokens, t.kind.isComment = false := by
      simpa [Except.toOption] using hall
    cases hparse : Signature.parse source with
    | ok s => rw [hparse] at herror; cases herror
    | error e =>
      rw [hparse, decide_eq_true_eq] at herror
      rw [herror] at hparse
      obtain ⟨before, k, after, rfl, hk, -, hviable⟩ := parse_unexpected htokens hcode hparse
      exact ⟨before, k, after, rfl, hk, hviable⟩

end Signature

end ModelSignatures
