import ModelSignatures.Proofs.Lexeme.Progress
import ModelSignatures.Proofs.Signature.BodyPrediction
import ModelSignatures.Proofs.Signature.Termination
import ModelSignatures.Proofs.Token.Termination

/-!
# Reading goes on and comes to an end

Every construct of the grammar has a reader. In whatever list of tokens and at whatever index it
begins, it goes on to the right, past a token that is no comment unless the construct may be empty,
and never past the end (`Construct.goesOn`). For this reason no repetition and no recursion goes on
further than there are tokens left that are no comments, so that every text is answered with a tree
or with an error (`Signature.parse_terminates`).
-/

namespace ModelSignatures

open Nonterminal (production fills_production)
open Reader (Predicts)
open Reading (separated separatedCalling separated_ends takeAnnotations)

/-! ### Constructs -/

/-- The constructs of the grammar that are read on their own. A `line` is a member that is no
declaration. A declaration and a member are read behind their annotations, with which their lexemes
`above` begin. -/
inductive Construct
  | symbol (s : Symbol) (wanted : Expectation)
  | word (wanted : Expectation)
  | typeName
  | primaryType
  | optionalType
  | unionType
  | typeArguments
  | classType
  | methodName
  | parameter
  | parameters
  | overload
  | method
  | annotations
  | line
  | member (above : List Lexeme)
  | members (first : Bool)
  | superclass
  | header
  | closing
  | declaration (above : List Lexeme)
  | declarations

namespace Construct

/-- What a construct is read as. -/
def Result : Construct → Type
  | symbol _ _ => Unit
  | word _ => String
  | typeName => TypeName
  | primaryType => TypeExpr
  | optionalType => TypeExpr
  | unionType => TypeExpr
  | typeArguments => List TypeExpr
  | classType => ClassType
  | methodName => String
  | parameter => Param
  | parameters => List Param
  | overload => Overload
  | method => Method
  | annotations => List String
  | line => MemberContent
  | member _ => MemberContent × Option String
  | members _ => List Member
  | superclass => Option ClassType
  | header => DeclarationKind × TypeName
  | closing => List String × Option String
  | declaration _ => Declaration
  | declarations => List Declaration

/-- The reader of a construct. -/
def read : (c : Construct) → (bound : ℕ) → Reader c.Result
  | symbol s wanted, _ => fun ls ↦ Reading.symbol s wanted ls >>= fun rest ↦ .ok ((), rest)
  | word wanted, _ => Reading.word wanted
  | typeName, bound => TypeName.read bound
  | primaryType, bound => TypeExpr.readPrimary bound
  | optionalType, bound => TypeExpr.readOptional (TypeExpr.readPrimary bound)
  | unionType, bound => TypeExpr.read bound
  | typeArguments, bound => TypeExpr.readArgs (TypeExpr.readPrimary bound) bound
  | classType, bound => ClassType.read bound
  | methodName, _ => Method.readName
  | parameter, bound => Param.read bound
  | parameters, bound => Overload.readParams bound
  | overload, bound => Overload.read bound
  | method, bound => Method.read bound
  | annotations, _ => fun ls ↦ .ok (takeAnnotations ls)
  | line, bound => MemberContent.readLine bound
  | member above, bound => fun ls ↦
    MemberContent.read (Declaration.read bound) bound (above ++ ls) ls
  | members first, bound => Member.readAll (Declaration.read bound) bound first
  | superclass, bound => ClassType.readSuperclass bound
  | header, bound => DeclarationKind.read bound
  | closing, _ => Declaration.readEnd
  | declaration above, bound => fun ls ↦ Declaration.read bound (above ++ ls) ls
  | declarations, bound => fun ls ↦ Declaration.readAll bound ls >>= fun ds ↦ .ok (ds, [])

/-- What a construct is derived from. -/
def rule : Construct → Rule Piece Nonterminal
  | symbol s _ => Nonterminal.symbol s
  | word _ => Nonterminal.word
  | typeName => .ref .name
  | primaryType => .ref .primaryType
  | optionalType => .ref .optionalType
  | unionType => .ref .unionType
  | typeArguments => .possibly (.ref .args)
  | classType => .ref .classType
  | methodName => .ref .methodName
  | parameter => .ref .param
  | parameters => .possibly (.ref .param ++ .many (Nonterminal.symbol .comma ++ .ref .param))
  | overload => .ref .methodType
  | method => Nonterminal.method
  | annotations => .many Nonterminal.annotation
  | line => Nonterminal.line
  | member _ => Nonterminal.content
  | members _ => .many (.ref .member)
  | superclass => .possibly (Nonterminal.symbol .less ++ .ref .classType)
  | header => Nonterminal.header
  | closing => Nonterminal.keyword "end"
  | declaration _ => Nonterminal.declared
  | declarations => .many (.ref .declaration)

/-- How many tokens that are no comments a construct has at the least. -/
def least : Construct → ℕ
  | typeArguments | parameters | annotations | members _ | superclass | declarations => 0
  | _ => 1

theorem least_le_length {c : Construct} {ps : List Piece} (h : Rule.Derives production c.rule ps) :
    c.least ≤ ps.length := by
  cases c with
  | typeArguments | parameters | annotations | members _ | superclass | declarations =>
    exact Nat.zero_le _
  | _ => exact List.length_pos_iff.2 (h.ne_nil fills_production rfl)

theorem read_predicts (c : Construct) (bound bound' : ℕ) :
    Predicts bound bound' (c.read bound) (c.read bound') c.rule.Language := by
  cases c with
  | symbol s wanted =>
    have hrest : Predicts bound bound' (fun ls ↦ .ok ((), ls)) (fun ls ↦ .ok ((), ls))
        (Rule.empty.Language : Unit → List Piece → Prop) := Reader.predicts_empty ()
    exact (hrest.terminal s wanted).derives fun _ h ↦ Rule.derives_append_empty.1 h
  | word wanted =>
    refine (Reader.predicts_word wanted).mono (Nat.le_refl _) (Nat.le_refl _) ?_
    rintro text _ ⟨p, hp, rfl⟩
    exact Nonterminal.derives_word hp
  | typeName => exact TypeName.read_predicts_name bound bound'
  | primaryType => exact TypeExpr.readPrimary_predicts bound bound'
  | optionalType =>
    exact TypeExpr.readOptional_predicts (TypeExpr.readPrimary_predicts bound bound')
  | unionType => exact TypeExpr.read_predicts bound bound'
  | typeArguments => exact TypeExpr.readArgs_predicts (TypeExpr.readPrimary_predicts bound bound')
  | classType => exact ClassType.read_predicts bound bound'
  | methodName => exact Method.readName_predicts bound bound'
  | parameter => exact Param.read_predicts bound bound'
  | parameters => exact Overload.readParams_predicts bound bound'
  | overload => exact Overload.read_predicts bound bound'
  | method => exact Method.read_predicts bound bound'
  | annotations =>
    exact Reader.predicts_takeAnnotations.mono (Nat.le_refl _) (Nat.le_refl _)
      fun _ _ h ↦ derives_annotations h
  | line =>
    exact (MemberContent.readLine_predicts bound bound').mono (Nat.le_succ _) (Nat.le_succ _)
      fun _ _ h ↦ h
  | member above =>
    exact MemberContent.read_predicts (Declaration.read_predicts bound bound') (Nat.le_refl _)
      (Nat.le_refl _) (Nat.le_succ _) (Nat.le_succ _) above
  | members first =>
    have hall := Member.readAll_predicts (Declaration.read_predicts bound bound') bound bound' first
    rwa [Nat.min_self, Nat.min_self] at hall
  | superclass => exact ClassType.readSuperclass_predicts bound bound'
  | header =>
    exact (DeclarationKind.read_predicts bound bound').mono (Nat.le_succ _) (Nat.le_succ _)
      fun _ _ h ↦ h
  | closing => exact Declaration.readEnd_predicts bound bound'
  | declaration above => exact Declaration.read_predicts bound bound' above
  | declarations => exact Declaration.readRest_predicts bound bound'

theorem movesOn (c : Construct) (bound : ℕ) : (c.read bound).MovesOn bound c.least :=
  (c.read_predicts bound bound).movesOn fun _ _ h ↦ least_le_length h

theorem separated_movesOn (c : Construct) (separator : Symbol) (bound : ℕ) :
    Reader.MovesOn bound 0 (separated separator (c.read bound) bound) :=
  ((c.read_predicts bound bound).many separator).movesOn fun _ _ _ ↦ Nat.zero_le _

/-- No bound is felt that is as large as the list. -/
theorem read_alike (c : Construct) {size bound bound' : ℕ} (hbound : size ≤ bound)
    (hbound' : size ≤ bound') : AlikeUpTo size (c.read bound) (c.read bound') := by
  have hprimary := TypeExpr.readPrimary_alike hbound hbound'
  have hprimaryReads := TypeExpr.readPrimary_reads bound
  have hline := (MemberContent.readLine_alike hbound hbound').mono (Nat.le_succ size)
  have hdeclaration := Declaration.read_alike hbound hbound'
  cases c with
  | symbol _ _ | word _ | methodName | annotations | closing => exact fun _ _ ↦ rfl
  | typeName => exact (TypeName.read_alike hbound hbound').mono (Nat.le_succ size)
  | primaryType => exact hprimary
  | optionalType => exact TypeExpr.readOptional_alike hprimary
  | unionType => exact TypeExpr.read_alike hbound hbound'
  | typeArguments => exact TypeExpr.readArgs_alike hprimaryReads hprimary hbound hbound'
  | classType => exact ClassType.read_alike hbound hbound'
  | parameter => exact Param.read_alike hbound hbound'
  | parameters => exact Overload.readParams_alike hbound hbound'
  | overload => exact Overload.read_alike hbound hbound'
  | method => exact Method.read_alike hbound hbound'
  | line => exact hline
  | member above =>
    intro ls hls
    show MemberContent.read _ _ _ _ = MemberContent.read _ _ _ _
    rw [MemberContent.read, MemberContent.read, hdeclaration _ ls hls, hline ls hls]
  | members first =>
    exact Member.readAll_alike (Declaration.read_reads bound) hdeclaration hbound hbound' first
  | superclass => exact ClassType.readSuperclass_alike hbound hbound'
  | header => exact (DeclarationKind.read_alike hbound hbound').mono (Nat.le_succ size)
  | declaration above => exact fun ls hls ↦ hdeclaration (above ++ ls) ls hls
  | declarations =>
    intro ls hls
    show Declaration.readAll _ _ >>= _ = Declaration.readAll _ _ >>= _
    rw [Declaration.readAll_alike hbound hbound' ls hls]

/-! ### Places among tokens -/

variable {tokens : List Token} {i : ℕ} {ls : List Lexeme} {bound : ℕ}

/-- What is read goes on from where it begins, as far as its construct asks for. -/
theorem goesOn (c : Construct) (hls : Lexeme.AreLeftAt tokens i ls) (hbound : ls.length ≤ bound) :
    Token.GoesOn tokens i c.least (c.read bound ls) :=
  (c.movesOn bound).goesOn hls hbound

theorem separated_goesOn (c : Construct) (separator : Symbol)
    (hls : Lexeme.AreLeftAt tokens i ls) (hbound : ls.length ≤ bound) :
    Token.GoesOn tokens i 0 (separated separator (c.read bound) bound ls) :=
  (c.separated_movesOn separator bound).goesOn hls hbound

end Construct

/-! ### Ends -/

/-- Whether reading comes to an end on some lexemes before anything is repeated more than `size`
times or nested deeper than that. What is read is what any bound gives that is not below `size`, and
each loop and each recursion ends with it when it is unfolded without a bound. -/
structure Reading.Ends (size : ℕ) (ls : List Lexeme) : Prop where
  construct (c : Construct) (bound : ℕ) (hbound : size ≤ bound) : c.read bound ls = c.read size ls
  repetition (c : Construct) (separator : Symbol) (bound bound' : ℕ) (hbound : size ≤ bound)
    (hbound' : size ≤ bound') :
    EndsWithin (separatedCalling separator (c.read bound')) (size + 1) (· ls)
      (separated separator (c.read bound') bound ls)
  primaryType (bound : ℕ) (hbound : size ≤ bound) :
    EndsWithin TypeExpr.readPrimaryCalling (size + 1) (· ls) (TypeExpr.readPrimary bound ls)
  members (bound bound' : ℕ) (first : Bool) (hbound : size ≤ bound) :
    EndsWithin (Member.readAllCalling (Declaration.read bound')) (size + 1) (· first ls)
      (Member.readAll (Declaration.read bound') bound first ls)
  declaration (above : List Lexeme) (bound : ℕ) (hbound : size ≤ bound) :
    EndsWithin Declaration.readCalling (size + 1) (· above ls) (Declaration.read bound above ls)
  declarations (bound : ℕ) (hbound : size ≤ bound) :
    EndsWithin Declaration.readAllCalling (size + 1) (· ls) (Declaration.readAll bound ls)

theorem Reading.ends (ls : List Lexeme) : Ends ls.length ls where
  construct c _ hbound := c.read_alike hbound (Nat.le_refl _) ls (Nat.le_refl _)
  repetition c _ _ bound' hbound hbound' :=
    separated_ends ((c.movesOn bound').leavesNoMore.mono hbound') hbound
  primaryType _ hbound := TypeExpr.readPrimary_ends hbound
  members _ bound' first hbound := Member.readAll_ends (Declaration.read_reads bound') first hbound
  declaration above _ hbound := Declaration.read_ends above hbound
  declarations _ hbound := Declaration.readAll_ends hbound

namespace Signature

/-- How the reading of a text comes to an end: its characters cannot be split into tokens, or its
tokens are no signature, or it is answered with one. The splitting ends within the number of its
characters, and the reading within the number of its tokens that are no comments. -/
inductive Terminates (source : String) : Prop
  | unreadable (e : SyntaxError)
    (hsplit : EndsWithin Lexer.tokensFromCalling (source.toList.length + 1)
      (· .origin source.toList) (.error e))
    (hparse : parse source = .error e)
  | rejected (tokens : List Token) (failure : Failure)
    (hsplit : EndsWithin Lexer.tokensFromCalling (source.toList.length + 1)
      (· .origin source.toList) (.ok tokens))
    (hread : EndsWithin Declaration.readAllCalling (Token.codeBetween tokens 0 tokens.length + 1)
      (· (Document.ofTokens tokens).lexemes) (.error failure))
    (hparse : parse source = .error (failure.toSyntaxError (Document.ofTokens tokens).ending))
  | accepted (tokens : List Token) (s : Signature)
    (hsplit : EndsWithin Lexer.tokensFromCalling (source.toList.length + 1)
      (· .origin source.toList) (.ok tokens))
    (hread : EndsWithin Declaration.readAllCalling (Token.codeBetween tokens 0 tokens.length + 1)
      (· (Document.ofTokens tokens).lexemes) (.ok s.declarations))
    (hparse : parse source = .ok s)

/-- The lexemes of a document are those left at the first of its tokens. -/
theorem areLeftAt_lexemes (tokens : List Token) :
    Lexeme.AreLeftAt tokens 0 (Document.ofTokens tokens).lexemes :=
  ⟨Nat.zero_le _, none, [], rfl⟩

theorem terminates (source : String) : Terminates source := by
  have hsplit := Lexer.tokensFrom_ends .origin (Nat.le_refl source.toList.length)
  cases htokens : Token.tokenize source with
  | error e =>
    rw [show Lexer.tokensFrom _ _ _ = _ from htokens] at hsplit
    exact .unreadable e hsplit (by rw [parse, htokens]; rfl)
  | ok tokens =>
    rw [show Lexer.tokensFrom _ _ _ = _ from htokens] at hsplit
    have hparse : parse source = ofDocument (.ofTokens tokens) := by
      rw [parse, htokens]
      rfl
    have hread : EndsWithin Declaration.readAllCalling
        (Token.codeBetween tokens 0 tokens.length + 1) (· (Document.ofTokens tokens).lexemes)
        (Declaration.readAll (Document.ofTokens tokens).lexemes.length
          (Document.ofTokens tokens).lexemes) := by
      rw [← (areLeftAt_lexemes tokens).length_eq]
      exact Declaration.readAll_ends (Nat.le_refl _)
    rw [ofDocument] at hparse
    cases hds : Declaration.readAll _ (Document.ofTokens tokens).lexemes with
    | error failure =>
      rw [hds] at hread hparse
      exact .rejected tokens failure hsplit hread hparse
    | ok ds =>
      rw [hds] at hread hparse
      exact .accepted tokens _ hsplit hread hparse

/-- Wherever in a list of tokens the reading of a construct or of a repetition begins, it goes on
from there, and it comes to an end within the number of tokens left that are no comments. So every
text, closed or not, is answered with a signature or with an error. -/
theorem parse_terminates :
    (∀ {tokens : List Token} {i : ℕ} {ls : List Lexeme}, Lexeme.AreLeftAt tokens i ls →
      (∀ (c : Construct) (bound : ℕ), ls.length ≤ bound →
        Token.GoesOn tokens i c.least (c.read bound ls) ∧
        ∀ separator, Token.GoesOn tokens i 0 (separated separator (c.read bound) bound ls)) ∧
      Reading.Ends (Token.codeBetween tokens i tokens.length) ls) ∧
    ∀ source, Terminates source := by
  refine ⟨fun {tokens i ls} hls ↦ ⟨fun c bound hbound ↦ ?_, ?_⟩, terminates⟩
  · exact ⟨c.goesOn hls hbound, fun separator ↦ c.separated_goesOn separator hls hbound⟩
  · rw [← hls.length_eq]
    exact Reading.ends ls

/-- The method in a class that is never closed, read from the comment in front of it. -/
theorem parse_terminates_sample :
    ∃ tokens ls content rest, Token.tokenize "class A # open\n  def f: () -> A" = .ok tokens ∧
      Lexeme.AreLeftAt tokens 2 ls ∧ ls.length = 7 ∧
      Construct.line.read 7 ls = .ok (content, rest) ∧
      (∃ j, 2 ≤ j ∧ Lexeme.AreLeftAt tokens j rest ∧ 1 ≤ Token.codeBetween tokens 2 j) ∧
      Reading.Ends (Token.codeBetween tokens 2 tokens.length) ls ∧
      Terminates "class A # open\n  def f: () -> A" := by
  generalize hsource : "class A # open\n  def f: () -> A" = source
  have hline : ((Token.tokenize source).toOption.any fun tokens ↦
      decide (2 ≤ tokens.length ∧ (Lexeme.gather none [] (tokens.drop 2)).1.length = 7 ∧
        (MemberContent.readLine 7 (Lexeme.gather none [] (tokens.drop 2)).1).isOk = true)) =
      true := by
    rw [← hsource]
    decide +kernel
  cases htokens : Token.tokenize source with
  | error e => rw [htokens] at hline; cases hline
  | ok tokens =>
    rw [htokens, Except.toOption, Option.any_some, decide_eq_true_eq] at hline
    obtain ⟨hindex, hlength, hok⟩ := hline
    have hls : Lexeme.AreLeftAt tokens 2 (Lexeme.gather none [] (tokens.drop 2)).1 :=
      ⟨hindex, none, [], rfl⟩
    obtain ⟨hgoes, hends⟩ := parse_terminates.1 hls
    cases hread : MemberContent.readLine 7 (Lexeme.gather none [] (tokens.drop 2)).1 with
    | error failure => rw [hread] at hok; cases hok
    | ok read =>
      have hgoes := (hgoes .line 7 (Nat.le_of_eq hlength)).1.success hread
      exact ⟨tokens, _, read.1, read.2, rfl, hls, hlength, hread, hgoes, hends,
        parse_terminates.2 source⟩

end Signature

end ModelSignatures
