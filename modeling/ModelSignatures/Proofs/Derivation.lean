import Mathlib.Data.List.Basic

/-!
# Derivations in extended Backus-Naur form

A `Rule` is the right-hand side of a production: the tokens and the nonterminals that stand behind
each other, with choices between them and repetitions. The productions give every nonterminal its
rule, and `Derives` says which lists of tokens a rule derives.

**A rule also denotes a language**, once every nonterminal is given a meaning (`Rule.Denotes`). The
derivable lists belong to every meaning that the productions keep (`Derives.denotes`), so what is
said of them is proved for one production at a time, and no induction on derivations is needed.
-/

namespace ModelSignatures

/-- The right-hand side of a production. -/
inductive Rule (T N : Type)
  /-- A single token that fits. -/
  | token (fits : T → Prop)
  /-- What stands for the nonterminal. -/
  | ref (n : N)
  | empty
  | sequence (first second : Rule T N)
  | choice (left right : Rule T N)
  /-- A rule again and again, or not at all. -/
  | many (item : Rule T N)
  /-- A rule, but only where it derives what is allowed. -/
  | restrict (rule : Rule T N) (allowed : List T → Prop)

namespace Rule

variable {T N : Type}

instance : Append (Rule T N) := ⟨sequence⟩

instance : OrOp (Rule T N) := ⟨choice⟩

/-- A rule, or nothing. -/
def possibly (rule : Rule T N) : Rule T N := rule ||| empty

/-- The lists of tokens that a rule derives by the productions. -/
inductive Derives (production : N → Rule T N) : Rule T N → List T → Prop
  | token {fits : T → Prop} {t : T} (h : fits t) : Derives production (.token fits) [t]
  | ref {n : N} {ts : List T} (h : Derives production (production n) ts) :
      Derives production (.ref n) ts
  | empty : Derives production .empty []
  | sequence {first second : Rule T N} {ts more : List T} (left : Derives production first ts)
      (right : Derives production second more) :
      Derives production (first ++ second) (ts ++ more)
  | left {first second : Rule T N} {ts : List T} (h : Derives production first ts) :
      Derives production (first ||| second) ts
  | right {first second : Rule T N} {ts : List T} (h : Derives production second ts) :
      Derives production (first ||| second) ts
  | done {item : Rule T N} : Derives production (.many item) []
  | more {item : Rule T N} {ts more : List T} (head : Derives production item ts)
      (tail : Derives production (.many item) more) : Derives production (.many item) (ts ++ more)
  | restrict {rule : Rule T N} {allowed : List T → Prop} {ts : List T}
      (h : Derives production rule ts) (hallowed : allowed ts) :
      Derives production (.restrict rule allowed) ts

theorem derives_token_iff {production : N → Rule T N} {fits : T → Prop} {ts : List T} :
    Derives production (.token fits) ts ↔ ∃ t, fits t ∧ ts = [t] := by
  constructor
  · intro h
    cases h with
    | token h => exact ⟨_, h, rfl⟩
  · rintro ⟨t, h, rfl⟩
    exact .token h

/-- A sequence is derived of two lists one behind the other. -/
theorem derives_sequence_iff {production : N → Rule T N} {first second : Rule T N} {ts : List T} :
    Derives production (first ++ second) ts ↔
      ∃ pre post, ts = pre ++ post ∧ Derives production first pre ∧
        Derives production second post := by
  constructor
  · intro h
    cases h with
    | sequence left right => exact ⟨_, _, rfl, left, right⟩
  · rintro ⟨pre, post, rfl, left, right⟩
    exact .sequence left right

/-- How sequences are bracketed does not matter. -/
theorem derives_append_assoc {production : N → Rule T N} {first second third : Rule T N}
    {ts : List T} :
    Derives production (first ++ second ++ third) ts ↔
      Derives production (first ++ (second ++ third)) ts := by
  constructor
  · intro h
    obtain ⟨_, post, rfl, h, hpost⟩ := derives_sequence_iff.1 h
    obtain ⟨pre, mid, rfl, hpre, hmid⟩ := derives_sequence_iff.1 h
    rw [List.append_assoc]
    exact .sequence hpre (.sequence hmid hpost)
  · intro h
    obtain ⟨pre, _, rfl, hpre, h⟩ := derives_sequence_iff.1 h
    obtain ⟨mid, post, rfl, hmid, hpost⟩ := derives_sequence_iff.1 h
    rw [← List.append_assoc]
    exact .sequence (.sequence hpre hmid) hpost

theorem derives_append_empty {production : N → Rule T N} {rule : Rule T N} {ts : List T} :
    Derives production (rule ++ empty) ts ↔ Derives production rule ts := by
  constructor
  · intro h
    obtain ⟨pre, post, rfl, hpre, hpost⟩ := derives_sequence_iff.1 h
    cases hpost
    rwa [List.append_nil]
  · intro h
    rw [← List.append_nil ts]
    exact .sequence h .empty

/-- A choice is derived as either of its rules is. -/
theorem derives_choice_iff {production : N → Rule T N} {first second : Rule T N} {ts : List T} :
    Derives production (first ||| second) ts ↔
      Derives production first ts ∨ Derives production second ts := by
  constructor
  · intro h
    cases h with
    | left h => exact Or.inl h
    | right h => exact Or.inr h
  · rintro (h | h)
    · exact .left h
    · exact .right h

/-- What may be missing is derived as its rule is, or is empty. -/
theorem derives_possibly_iff {production : N → Rule T N} {rule : Rule T N} {ts : List T} :
    Derives production rule.possibly ts ↔ Derives production rule ts ∨ ts = [] := by
  rw [possibly, derives_choice_iff]
  refine or_congr_right ⟨fun h ↦ ?_, ?_⟩
  · cases h
    rfl
  · rintro rfl
    exact .empty

/-- Whether a rule is seen to derive no empty list, if the nonterminals that are `filled` derive
none. -/
def fills (filled : N → Bool) : Rule T N → Bool
  | token _ => true
  | ref n => filled n
  | empty => false
  | sequence first second => first.fills filled || second.fills filled
  | choice left right => left.fills filled && right.fills filled
  | many _ => false
  | restrict rule _ => rule.fills filled

/-- The language of a rule whose nonterminals have a meaning. -/
def Denotes (meaning : N → List T → Prop) : Rule T N → List T → Prop
  | token fits, ts => ∃ t, fits t ∧ ts = [t]
  | ref n, ts => meaning n ts
  | empty, ts => ts = []
  | sequence first second, ts =>
    ∃ pre post, first.Denotes meaning pre ∧ second.Denotes meaning post ∧ ts = pre ++ post
  | choice left right, ts => left.Denotes meaning ts ∨ right.Denotes meaning ts
  | many item, ts => ∃ parts : List (List T), (∀ part ∈ parts, item.Denotes meaning part) ∧
    ts = parts.flatten
  | restrict rule allowed, ts => rule.Denotes meaning ts ∧ allowed ts

variable {production : N → Rule T N} {meaning : N → List T → Prop}

/-- A rule that always derives a token derives no empty list. -/
theorem Derives.ne_nil {filled : N → Bool}
    (hfilled : ∀ n, filled n = true → (production n).fills filled = true) {rule : Rule T N}
    {ts : List T} (h : Derives production rule ts) (hrule : rule.fills filled = true) :
    ts ≠ [] := by
  induction h with
  | token => exact List.cons_ne_nil _ _
  | ref _ ih => exact ih (hfilled _ hrule)
  | empty => cases hrule
  | sequence _ _ ihleft ihright =>
    rcases Bool.or_eq_true_iff.1 hrule with hleft | hright
    · exact List.append_ne_nil_of_left_ne_nil (ihleft hleft) _
    · exact List.append_ne_nil_of_right_ne_nil _ (ihright hright)
  | left _ ih => exact ih (Bool.and_eq_true_iff.1 hrule).1
  | right _ ih => exact ih (Bool.and_eq_true_iff.1 hrule).2
  | done => cases hrule
  | more => cases hrule
  | restrict _ _ ih => exact ih hrule

/-- What is derived belongs to every meaning that the productions keep. -/
theorem Derives.denotes (hmeaning : ∀ n ts, (production n).Denotes meaning ts → meaning n ts)
    {rule : Rule T N} {ts : List T} (h : Derives production rule ts) :
    rule.Denotes meaning ts := by
  induction h with
  | token h => exact ⟨_, h, rfl⟩
  | ref _ ih => exact hmeaning _ _ ih
  | empty => exact rfl
  | sequence _ _ ihleft ihright => exact ⟨_, _, ihleft, ihright, rfl⟩
  | left _ ih => exact Or.inl ih
  | right _ ih => exact Or.inr ih
  | done => exact ⟨[], by simp, rfl⟩
  | more _ _ ihhead ihtail =>
    obtain ⟨parts, hparts, rfl⟩ := ihtail
    exact ⟨_ :: parts, List.forall_mem_cons.2 ⟨ihhead, hparts⟩, rfl⟩
  | restrict _ hallowed ih => exact ⟨ih, hallowed⟩

end Rule

end ModelSignatures
