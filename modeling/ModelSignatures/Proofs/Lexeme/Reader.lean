import ModelSignatures.Proofs.Lexeme.View
import ModelSignatures.Proofs.Token.Lexed

/-!
# Readers and what they read

A reader *reads* a relation between things and lexemes when what it takes is always related to what
it answers with. The readers of single lexemes and of repetitions are settled here in both
directions: what they take when they succeed, and on which lexemes they succeed.
-/

namespace ModelSignatures

/-- Whether the reader answers only with what is related to the lexemes that it takes. -/
def Reader.Reads {α : Type} (r : Reader α) (P : α → List Lexeme → Prop) : Prop :=
  ∀ ⦃ls x rest⦄, r ls = .ok (x, rest) → ∃ pre, ls = pre ++ rest ∧ P x pre

/-- Things that each follow a separator, one after the other. -/
inductive Repeated {α : Type} (separator : Symbol) (P : α → List TokenKind → Prop) :
    List α → List TokenKind → Prop
  | nil : Repeated separator P [] []
  | cons {x : α} {xs : List α} {ks more : List TokenKind} (head : P x ks)
      (tail : Repeated separator P xs more) :
      Repeated separator P (x :: xs) (.symbol separator :: (ks ++ more))

namespace Reading

/-! ### Single lexemes -/

/-- Whether the first lexeme left is none of the given symbols. -/
def Avoids (symbols : List Symbol) (rest : List Lexeme) : Prop :=
  ∀ l ∈ rest.head?, ∀ s ∈ symbols, l.kind ≠ .symbol s

/-- What avoids some symbols avoids any of them. -/
theorem Avoids.mono {symbols fewer : List Symbol} {rest : List Lexeme} (h : Avoids symbols rest)
    (hsub : fewer ⊆ symbols) : Avoids fewer rest :=
  fun l hl s hs ↦ h l hl s (hsub hs)

/-- A lexeme that is none of the symbols avoids them. -/
theorem avoids_cons {symbols : List Symbol} {l : Lexeme} {ls : List Lexeme}
    (h : ∀ s ∈ symbols, l.kind ≠ .symbol s) : Avoids symbols (l :: ls) := by
  intro l' hl' s hs
  cases hl'
  exact h s hs

/-- Lexemes that are empty or begin with another symbol avoid the given ones, in front of what does.
-/
theorem avoids_append {symbols : List Symbol} {s : Symbol} {ks : List TokenKind}
    {pre rest : List Lexeme} (hpre : pre.map Lexeme.kind = ks)
    (hks : ks = [] ∨ ∃ more, ks = .symbol s :: more) (hs : s ∉ symbols)
    (hrest : Avoids symbols rest) : Avoids symbols (pre ++ rest) := by
  rcases hks with rfl | ⟨more, rfl⟩
  · rw [List.map_eq_nil_iff.1 hpre]
    exact hrest
  · obtain ⟨l, tail, rfl, hl, -⟩ := List.map_eq_cons_iff.1 hpre
    refine avoids_cons fun s' hs' ↦ ?_
    rw [hl]
    rintro ⟨⟩
    exact hs hs'

/-- A symbol that is not in a list is avoided by it in front of what avoids it. -/
theorem avoids_append_of_not_mem {s : Symbol} {pre rest : List Lexeme}
    (hpre : .symbol s ∉ pre.map Lexeme.kind) (hrest : Avoids [s] rest) :
    Avoids [s] (pre ++ rest) := by
  rcases pre with - | ⟨l, pre⟩
  · exact hrest
  · refine avoids_cons fun s' hs' hl ↦ hpre ?_
    rw [List.mem_singleton.1 hs'] at hl
    rw [← hl]
    exact List.mem_cons_self

/-- A symbol in front is taken. -/
theorem afterSymbol?_cons {s : Symbol} {l : Lexeme} (h : l.kind = .symbol s) (ls : List Lexeme) :
    afterSymbol? s (l :: ls) = some ls := by
  rw [afterSymbol?, if_pos h]

/-- A symbol that is avoided is not taken. -/
theorem afterSymbol?_eq_none {s : Symbol} {symbols : List Symbol} {rest : List Lexeme}
    (h : Avoids symbols rest) (hs : s ∈ symbols) : afterSymbol? s rest = none := by
  cases rest with
  | nil => rfl
  | cons l ls => rw [afterSymbol?, if_neg (h l rfl s hs)]

/-- What is taken as a symbol is one lexeme. -/
theorem eq_cons_of_afterSymbol? {s : Symbol} {ls rest : List Lexeme}
    (h : afterSymbol? s ls = some rest) : ∃ l, ls = l :: rest ∧ l.kind = .symbol s := by
  cases ls with
  | nil => cases h
  | cons l ls =>
    rw [afterSymbol?] at h
    split at h
    next hl =>
      cases h
      exact ⟨l, rfl, hl⟩
    · cases h

/-- A symbol that has to be there is taken where it is. -/
theorem symbol_cons {s : Symbol} {l : Lexeme} (h : l.kind = .symbol s) (wanted : Expectation)
    (ls : List Lexeme) : symbol s wanted (l :: ls) = .ok ls := by
  rw [symbol, afterSymbol?_cons h]

/-- Where a symbol that has to be there is taken, it was there. -/
theorem eq_cons_of_symbol {s : Symbol} {wanted : Expectation} {ls rest : List Lexeme}
    (h : symbol s wanted ls = .ok rest) : ∃ l, ls = l :: rest ∧ l.kind = .symbol s := by
  rw [symbol] at h
  split at h
  next hls =>
    cases h
    exact eq_cons_of_afterSymbol? hls
  · cases h

/-- A word in front is taken. -/
theorem word_cons {text : String} {l : Lexeme} (h : l.kind = .word text) (wanted : Expectation)
    (ls : List Lexeme) : word wanted (l :: ls) = .ok (text, ls) := by
  cases l
  cases h
  rfl

/-- What is taken as a word is one lexeme. -/
theorem word_reads (wanted : Expectation) :
    Reader.Reads (word wanted) fun text pre ↦ pre.map Lexeme.kind = [.word text] := by
  intro ls text rest h
  unfold word at h
  split at h
  next text' _ _ _ _ _ ls' =>
    cases h
    exact ⟨[_], rfl, rfl⟩
  · cases h

/-! ### Repetition -/

/-- Nothing is repeated where the separator is avoided. -/
theorem separated_of_avoids {α : Type} {separator : Symbol} {item : Reader α}
    {symbols : List Symbol} {rest : List Lexeme} (h : Avoids symbols rest)
    (hs : separator ∈ symbols) (bound : Nat) :
    separated separator item bound rest = .ok ([], rest) := by
  cases bound with
  | zero => rfl
  | succ bound => rw [separated, afterSymbol?_eq_none h hs]

/-- A separator in front is repeated with what follows it. -/
theorem separated_cons {α : Type} {separator : Symbol} {item : Reader α} {l : Lexeme}
    {ls more rest : List Lexeme} {x : α} {xs : List α} {bound : Nat}
    (hl : l.kind = .symbol separator) (hitem : item ls = .ok (x, more))
    (hmore : separated separator item bound more = .ok (xs, rest)) :
    separated separator item (bound + 1) (l :: ls) = .ok (x :: xs, rest) := by
  rw [separated, afterSymbol?_cons hl]
  show (item ls >>= _) = _
  rw [hitem]
  show (separated separator item bound more >>= _) = _
  rw [hmore]
  rfl

/-- An item behind the separator is read together with those that are read behind it, as soon as the
bound leaves room for them all. -/
theorem separated_cons_append {α : Type} {separator : Symbol} {item : Reader α} {l : Lexeme}
    {head tail rest : List Lexeme} {x : α} {xs : List α} (hl : l.kind = .symbol separator)
    (hitem : item (head ++ (tail ++ rest)) = .ok (x, tail ++ rest))
    (hmore : ∀ n ≥ (tail ++ rest).length - rest.length,
      separated separator item n (tail ++ rest) = .ok (xs, rest)) :
    ∀ n ≥ (l :: (head ++ tail) ++ rest).length - rest.length,
      separated separator item n (l :: (head ++ tail) ++ rest) = .ok (x :: xs, rest) := by
  intro n hn
  simp only [List.length_cons, List.length_append] at hn hmore
  obtain ⟨n, rfl⟩ : ∃ m, n = m + 1 := ⟨n - 1, by omega⟩
  rw [List.cons_append, List.append_assoc]
  exact separated_cons hl hitem (hmore n (by omega))

/-- What is repeated is spelled by separators and the items behind them. -/
theorem separated_reads {α : Type} {separator : Symbol} {item : Reader α}
    {P : α → List TokenKind → Prop} (hitem : item.Reads fun x pre ↦ P x (pre.map Lexeme.kind))
    (bound : Nat) :
    Reader.Reads (separated separator item bound) fun xs pre ↦
      Repeated separator P xs (pre.map Lexeme.kind) := by
  induction bound with
  | zero =>
    intro ls xs rest h
    cases h
    exact ⟨[], rfl, .nil⟩
  | succ bound ih =>
    intro ls xs rest h
    rw [separated] at h
    split at h
    · cases h
      exact ⟨[], rfl, .nil⟩
    next ls' hls =>
      obtain ⟨l, rfl, hl⟩ := eq_cons_of_afterSymbol? hls
      obtain ⟨⟨x, more⟩, hx, h⟩ := Except.bind_eq_ok_iff.1 h
      obtain ⟨⟨xs', rest'⟩, hxs, h⟩ := Except.bind_eq_ok_iff.1 h
      cases h
      obtain ⟨pre, rfl, hpre⟩ := hitem hx
      obtain ⟨pre', rfl, hpre'⟩ := ih hxs
      refine ⟨l :: (pre ++ pre'), by simp, ?_⟩
      show Repeated separator P _ _
      rw [List.map_cons, List.map_append, hl]
      exact .cons hpre hpre'

/-- A repetition is read to its end, if every item of it is: `P` holds of what may follow an item,
and it holds of what a separator begins. -/
theorem separated_of_repeated {α : Type} {separator : Symbol} {item : Reader α}
    {P : α → List TokenKind → Prop} {Ends : List Lexeme → Prop} {size : Nat}
    (hitem : ∀ {x ks pre rest}, P x ks → ks.length ≤ size → pre.map Lexeme.kind = ks →
      Ends rest → item (pre ++ rest) = .ok (x, rest))
    (hends : ∀ {l ls}, l.kind = .symbol separator → Ends (l :: ls))
    {xs : List α} {ks : List TokenKind} (h : Repeated separator P xs ks) {pre rest : List Lexeme}
    (hpre : pre.map Lexeme.kind = ks) (hsize : ks.length ≤ size) {bound : Nat}
    (hbound : ks.length ≤ bound) (hrest : Ends rest) (hstop : Avoids [separator] rest) :
    separated separator item bound (pre ++ rest) = .ok (xs, rest) := by
  induction h generalizing pre bound with
  | nil =>
    rw [List.map_eq_nil_iff] at hpre
    subst hpre
    exact separated_of_avoids hstop List.mem_cons_self bound
  | @cons x xs ks more head tail ih =>
    obtain ⟨l, pre, rfl, hl, hpre⟩ := List.map_eq_cons_iff.1 hpre
    obtain ⟨first, others, rfl, hfirst, hothers⟩ := List.map_eq_append_iff.1 hpre
    rw [List.length_cons, List.length_append] at hsize hbound
    obtain ⟨bound, rfl⟩ : ∃ n, bound = n + 1 := ⟨bound - 1, by omega⟩
    rw [List.cons_append, List.append_assoc]
    refine separated_cons hl (hitem head (by omega) hfirst ?_) (ih hothers (by omega) (by omega))
    cases tail with
    | nil =>
      rw [List.map_eq_nil_iff] at hothers
      subst hothers
      exact hrest
    | cons =>
      obtain ⟨l', others, rfl, hl', -⟩ := List.map_eq_cons_iff.1 hothers
      exact hends hl'

/-! ### Annotations -/

/-- Annotations are taken as long as there are any. -/
theorem takeAnnotations_append {annots : List String} {pre rest : List Lexeme}
    (hpre : pre.map Lexeme.kind = annots.map .annot)
    (hrest : ∀ l ∈ rest.head?, ∀ text, l.kind ≠ .annot text) :
    takeAnnotations (pre ++ rest) = (annots, rest) := by
  induction pre generalizing annots with
  | nil =>
    rw [List.map_nil, eq_comm, List.map_eq_nil_iff] at hpre
    subst hpre
    cases rest with
    | nil => rfl
    | cons l rest =>
      obtain ⟨kind⟩ := l
      cases kind with
      | annot text => exact absurd rfl (hrest _ rfl text)
      | _ => rfl
  | cons l pre ih =>
    obtain ⟨text, annots, rfl, hl, hannots⟩ := List.map_eq_cons_iff.1 hpre.symm
    cases l
    cases hl
    rw [List.cons_append, takeAnnotations, ih hannots.symm]

/-- What is taken as annotations are annotations. -/
theorem eq_append_of_takeAnnotations {ls rest : List Lexeme} {annots : List String}
    (h : takeAnnotations ls = (annots, rest)) :
    ∃ pre, ls = pre ++ rest ∧ pre.map Lexeme.kind = annots.map .annot := by
  induction ls generalizing annots with
  | nil =>
    cases h
    exact ⟨[], rfl, rfl⟩
  | cons l ls ih =>
    unfold takeAnnotations at h
    split at h
    next text position leading trailing glued spaced ls' heq =>
      cases heq
      generalize htake : takeAnnotations ls = taken at h
      obtain ⟨texts, ls'⟩ := taken
      cases h
      obtain ⟨pre, rfl, hpre⟩ := ih htake
      exact ⟨_ :: pre, rfl, by rw [List.map_cons, hpre]; rfl⟩
    · cases h
      exact ⟨[], rfl, rfl⟩

/-- A list is parted behind its annotations. -/
theorem exists_takeAnnotations (ls : List Lexeme) :
    ∃ annots above behind, ls = above ++ behind ∧ takeAnnotations ls = (annots, behind) ∧
      above.map Lexeme.kind = annots.map .annot := by
  obtain ⟨above, heq, habove⟩ := eq_append_of_takeAnnotations (Eq.refl (takeAnnotations ls))
  exact ⟨_, above, _, heq, rfl, habove⟩

/-- Behind the annotations no other follows. -/
theorem head_of_takeAnnotations {ls rest : List Lexeme} {annots : List String}
    (h : takeAnnotations ls = (annots, rest)) :
    ∀ l ∈ rest.head?, ∀ text, l.kind ≠ .annot text := by
  induction ls generalizing annots with
  | nil =>
    cases h
    exact fun l hl ↦ nomatch hl
  | cons first ls ih =>
    unfold takeAnnotations at h
    split at h
    next ls' heq =>
      cases heq
      generalize htake : takeAnnotations ls = taken at h ih
      obtain ⟨texts, ls'⟩ := taken
      cases h
      exact ih rfl
    next hnot =>
      cases h
      intro l hl text hkind
      cases hl
      cases first
      cases hkind
      exact hnot _ _ _ _ _ _ _ rfl

end Reading

end ModelSignatures
