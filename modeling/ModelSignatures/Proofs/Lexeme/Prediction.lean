import ModelSignatures.Proofs.Lexeme.Reader
import ModelSignatures.Proofs.Token.Prefix

/-!
# What an answer rests on

A reader that goes on from left to right *predicts* its language: what it answers with is told by
what it took and by the token behind, and where it fails, by what stands in front of the token that
it fails at and by that token. What stands in front can then be completed to a word of the language,
so that the token is the first one that does not fit.

**Two readers at once.** A bound says how far a reader may go, so a reader of a longer text is
another function. `Reader.Predicts` therefore relates the reader of one text to the reader of
another, of which only the sizes are known.
-/

namespace ModelSignatures

/-- Whether some pieces begin a word of the language. The tokens that complete them touch neither
each other nor what stands before them. -/
def Viable {α : Type} (L : α → List Piece → Prop) (ps : List Piece) : Prop :=
  ∃ x, ∃ more : List TokenKind, (∀ kind ∈ more, kind.IsFiller) ∧
    L x (ps ++ more.map fun kind ↦ ⟨kind, false⟩)

/-- What begins a word of one language begins one of another, if its completions do. -/
theorem Viable.mono {α β : Type} {L : α → List Piece → Prop} {L' : β → List Piece → Prop}
    {ps : List Piece} (h : Viable L ps)
    (hL : ∀ x more, L x (ps ++ more) → ∃ y, L' y (ps ++ more)) : Viable L' ps := by
  obtain ⟨x, more, hmore, hx⟩ := h
  obtain ⟨y, hy⟩ := hL x _ hx
  exact ⟨y, more, hmore, hy⟩

/-- What is complete is viable. -/
theorem viable_of_mem {α : Type} {L : α → List Piece → Prop} {x : α} {ps : List Piece}
    (h : L x ps) : Viable L ps :=
  ⟨x, [], by simp, by simpa using h⟩

/-- What begins a word can be completed to it, and then to another one behind. -/
theorem Viable.of_behind {α β : Type} {LA : α → List Piece → Prop} {LB : α → β → List Piece → Prop}
    {L : β → List Piece → Prop} {ps : List Piece} (h : Viable LA ps)
    (hviable : ∀ x ps, LA x ps → Viable (LB x) [])
    (hL : ∀ x y ps more, LA x ps → LB x y more → L y (ps ++ more)) : Viable L ps := by
  obtain ⟨x, more, hmore, hx⟩ := h
  obtain ⟨y, others, hothers, hy⟩ := hviable x _ hx
  refine ⟨y, more ++ others, List.forall_mem_append.2 ⟨hmore, hothers⟩, ?_⟩
  rw [List.map_append, ← List.append_assoc]
  exact hL x y _ _ hx hy

namespace Reading

/-- Whether the first lexemes look alike to the grammar, if there are any. -/
def SameHead (ls ls' : List Lexeme) : Prop :=
  ls.head?.map Lexeme.piece = ls'.head?.map Lexeme.piece

/-- Lists with the same head have the same head behind what is put in front of them. -/
theorem SameHead.append {ls ls' : List Lexeme} (h : SameHead ls ls') (pre : List Lexeme) :
    SameHead (pre ++ ls) (pre ++ ls') := by
  cases pre with
  | nil => exact h
  | cons l pre => rfl

theorem sameHead_cons {l l' : Lexeme} (h : l'.piece = l.piece) (ls ls' : List Lexeme) :
    SameHead (l :: ls) (l' :: ls') :=
  congrArg some h.symm

/-- Only the empty list has the head of the empty list. -/
theorem SameHead.eq_nil {ls : List Lexeme} (h : SameHead [] ls) : ls = [] := by
  cases ls with
  | nil => rfl
  | cons l ls => cases h

/-- What has the head of a list with a lexeme begins with such a lexeme. -/
theorem SameHead.eq_cons {l : Lexeme} {ls ls' : List Lexeme} (h : SameHead (l :: ls) ls') :
    ∃ l' more, ls' = l' :: more ∧ l'.piece = l.piece := by
  cases ls' with
  | nil => cases h
  | cons l' more => exact ⟨l', more, rfl, (Option.some.inj h).symm⟩

end Reading

open Reading (SameHead sameHead_cons taken taken_append symbol symbol_cons afterSymbol?
  afterSymbol?_cons word unexpected separated takeAnnotations takeAnnotations_append
  eq_append_of_takeAnnotations head_of_takeAnnotations endOfLine)

/-- Whether two readers of lists up to given sizes predict the same words. -/
structure Reader.Predicts {α : Type} (size size' : ℕ) (r r' : Reader α)
    (L : α → List Piece → Prop) : Prop where
  viable : Viable L []
  success : ∀ ⦃ls x rest⦄, ls.length ≤ size → r ls = .ok (x, rest) →
    ∃ pre, ls = pre ++ rest ∧ L x (pre.map Lexeme.piece) ∧
      ∀ rest', SameHead rest rest' → (pre ++ rest').length ≤ size' →
        r' (pre ++ rest') = .ok (x, rest')
  failure : ∀ ⦃ls wanted l⦄, ls.length ≤ size → r ls = .error (.unexpected wanted (some l)) →
    ∃ pre rest, ls = pre ++ l :: rest ∧ Viable L (pre.map Lexeme.piece) ∧
      ∀ l' rest', l'.piece = l.piece → (pre ++ l' :: rest').length ≤ size' →
        r' (pre ++ l' :: rest') = .error (.unexpected wanted (some l'))

namespace Reader

variable {α β : Type} {size size' m m' : ℕ}

/-! ### Changing the readers, the sizes and the language -/

/-- Prediction is about what readers answer on lists of their sizes only. -/
theorem Predicts.congr {r r' a a' : Reader α} {L : α → List Piece → Prop}
    (h : Predicts size size' a a' L) (hr : ∀ ls, ls.length ≤ size → r ls = a ls)
    (hr' : ∀ ls, ls.length ≤ size' → r' ls = a' ls) : Predicts size size' r r' L where
  viable := h.viable
  success := by
    intro ls x rest hls hread
    rw [hr ls hls] at hread
    obtain ⟨pre, rfl, hpre, hsame⟩ := h.success hls hread
    refine ⟨pre, rfl, hpre, fun rest' hrest' hsize ↦ ?_⟩
    rw [hr' _ hsize]
    exact hsame rest' hrest' hsize
  failure := by
    intro ls wanted l hls hread
    rw [hr ls hls] at hread
    obtain ⟨pre, rest, rfl, hpre, hsame⟩ := h.failure hls hread
    refine ⟨pre, rest, rfl, hpre, fun l' rest' hl' hsize ↦ ?_⟩
    rw [hr' _ hsize]
    exact hsame l' rest' hl' hsize

/-- Readers that predict a language predict a larger one on shorter lists. -/
theorem Predicts.mono {r r' : Reader α} {L L' : α → List Piece → Prop}
    (h : Predicts m m' r r' L) (hsize : size ≤ m) (hsize' : size' ≤ m')
    (hL : ∀ x ps, L x ps → L' x ps) : Predicts size size' r r' L' where
  viable := h.viable.mono fun x more hx ↦ ⟨x, hL x _ hx⟩
  success := by
    intro ls x rest hls hread
    obtain ⟨pre, rfl, hpre, hsame⟩ := h.success (by omega) hread
    exact ⟨pre, rfl, hL x _ hpre, fun rest' hrest' hle ↦ hsame rest' hrest' (by omega)⟩
  failure := by
    intro ls wanted l hls hread
    obtain ⟨pre, rest, rfl, hpre, hsame⟩ := h.failure (by omega) hread
    exact ⟨pre, rest, rfl, hpre.mono fun x more hx ↦ ⟨x, hL x _ hx⟩,
      fun l' rest' hl' hle ↦ hsame l' rest' hl' (by omega)⟩

/-! ### Readers that take nothing -/

/-- A reader that takes nothing predicts what is spelled by nothing. -/
theorem predicts_pure {x : α} {L : α → List Piece → Prop} (h : L x []) :
    Predicts size size' (fun ls ↦ .ok (x, ls)) (fun ls ↦ .ok (x, ls)) L where
  viable := viable_of_mem h
  success := by
    intro ls y rest _ hread
    cases hread
    exact ⟨[], rfl, h, fun rest' _ _ ↦ rfl⟩
  failure := by
    intro ls wanted l _ hread
    cases hread

/-- A reader that fails at once predicts any language in which the empty list is viable. -/
theorem predicts_unexpected (wanted : Expectation) {L : α → List Piece → Prop} (h : Viable L []) :
    Predicts size size' (fun ls ↦ unexpected wanted ls) (fun ls ↦ unexpected wanted ls) L where
  viable := h
  success := by
    intro ls x rest _ hread
    cases hread
  failure := by
    intro ls wanted' l _ hread
    rcases ls with - | ⟨first, rest⟩
    · cases hread
    · cases hread
      exact ⟨[], rest, rfl, h, fun l' rest' _ _ ↦ rfl⟩

/-- A reader that finds a comment out of place predicts such a language too, since that is no
failure at a token. -/
theorem predicts_misplaced (comment : Comment) {L : α → List Piece → Prop} (h : Viable L []) :
    Predicts size size' (fun _ ↦ .error (.misplaced comment)) (fun _ ↦ .error (.misplaced comment))
      L where
  viable := h
  success := by
    intro ls x rest _ hread
    cases hread
  failure := by
    intro ls wanted l _ hread
    cases hread

/-! ### One reader behind another -/

/-- What was taken for an answer is taken again in front of lexemes that begin alike, and the reader
behind goes on with these, within the sizes that are left. -/
theorem Predicts.bind_eq {a a' : Reader α} {b' : α → List Lexeme → Reader β}
    {LA : α → List Piece → Prop} (ha : Predicts size size' a a' LA)
    (hsize : ∀ x ps, LA x ps → size ≤ ps.length + m ∧ size' ≤ ps.length + m')
    {ls rest : List Lexeme} {x : α} (hls : ls.length ≤ size) (hx : a ls = .ok (x, rest)) :
    ∃ pre, ls = pre ++ rest ∧ LA x (pre.map Lexeme.piece) ∧ rest.length ≤ m ∧
      ∀ rest', SameHead rest rest' → (pre ++ rest').length ≤ size' → rest'.length ≤ m' ∧
        (a' (pre ++ rest') >>= fun p ↦ b' p.1 (taken (pre ++ rest') p.2) p.2) =
          b' x pre rest' := by
  obtain ⟨pre, rfl, hpre, hsame⟩ := ha.success hls hx
  obtain ⟨hm, hm'⟩ := hsize x _ hpre
  rw [List.length_map] at hm hm'
  rw [List.length_append] at hls
  refine ⟨pre, rfl, hpre, by omega, fun rest' hrest' hle ↦ ?_⟩
  rw [hsame rest' hrest' hle, Except.ok_bind, taken_append]
  rw [List.length_append] at hle
  exact ⟨by omega, rfl⟩

/-- A reader goes on behind another, of which it knows the answer and what was taken. -/
theorem Predicts.bind_taken {a a' : Reader α} {b b' : α → List Lexeme → Reader β}
    {LA : α → List Piece → Prop} {LB : α → β → List Piece → Prop} {L : β → List Piece → Prop}
    (ha : Predicts size size' a a' LA)
    (hb : ∀ x pre, LA x (pre.map Lexeme.piece) → Predicts m m' (b x pre) (b' x pre) (LB x))
    (hviable : ∀ x ps, LA x ps → Viable (LB x) [])
    (hsize : ∀ x ps, LA x ps → size ≤ ps.length + m ∧ size' ≤ ps.length + m')
    (hL : ∀ x y ps more, LA x ps → LB x y more → L y (ps ++ more)) :
    Predicts size size' (fun ls ↦ a ls >>= fun p ↦ b p.1 (taken ls p.2) p.2)
      (fun ls ↦ a' ls >>= fun p ↦ b' p.1 (taken ls p.2) p.2) L where
  viable := ha.viable.of_behind hviable hL
  success := by
    intro ls y rest hls hread
    obtain ⟨⟨x, mid⟩, hx, hy⟩ := Except.bind_eq_ok_iff.1 hread
    obtain ⟨pre, rfl, hpre, hmid, hsame⟩ := ha.bind_eq hsize hls hx
    dsimp only at hy
    rw [taken_append] at hy
    obtain ⟨more, rfl, hmore, hsame'⟩ := (hb x pre hpre).success hmid hy
    refine ⟨pre ++ more, by rw [List.append_assoc], ?_, fun rest' hrest' hle ↦ ?_⟩
    · rw [List.map_append]
      exact hL x y _ _ hpre hmore
    · rw [List.append_assoc] at hle ⊢
      obtain ⟨hle', heq⟩ := hsame _ (hrest'.append more) hle
      exact heq.trans (hsame' rest' hrest' hle')
  failure := by
    intro ls wanted l hls hread
    rcases Except.bind_eq_error_iff.1 hread with hx | ⟨⟨x, mid⟩, hx, hy⟩
    · -- the first reader fails, and the second completes what completes its word
      obtain ⟨pre, rest, rfl, hpre, hsame⟩ := ha.failure hls hx
      refine ⟨pre, rest, rfl, hpre.of_behind hviable hL, fun l' rest' hl' hle ↦ ?_⟩
      rw [hsame l' rest' hl' hle]
      rfl
    · -- the second reader fails, behind what the first one takes of every such list
      obtain ⟨pre, rfl, hpre, hmid, hsame⟩ := ha.bind_eq hsize hls hx
      dsimp only at hy
      rw [taken_append] at hy
      obtain ⟨more, rest, rfl, ⟨y, others, hothers, hy'⟩, hsame'⟩ :=
        (hb x pre hpre).failure hmid hy
      refine ⟨pre ++ more, rest, by rw [List.append_assoc], ⟨y, others, hothers, ?_⟩,
        fun l' rest' hl' hle ↦ ?_⟩
      · rw [List.map_append, List.append_assoc]
        exact hL x y _ _ hpre hy'
      · rw [List.append_assoc] at hle ⊢
        obtain ⟨hle', heq⟩ := hsame _ ((sameHead_cons hl' rest rest').append more) hle
        exact heq.trans (hsame' l' rest' hl' hle')

/-- A reader goes on behind another. -/
theorem Predicts.bind {a a' : Reader α} {b b' : α → Reader β} {LA : α → List Piece → Prop}
    {LB : α → β → List Piece → Prop} {L : β → List Piece → Prop} (ha : Predicts size size' a a' LA)
    (hb : ∀ x, Predicts m m' (b x) (b' x) (LB x))
    (hsize : ∀ x ps, LA x ps → size ≤ ps.length + m ∧ size' ≤ ps.length + m')
    (hL : ∀ x y ps more, LA x ps → LB x y more → L y (ps ++ more)) :
    Predicts size size' (fun ls ↦ a ls >>= fun p ↦ b p.1 p.2)
      (fun ls ↦ a' ls >>= fun p ↦ b' p.1 p.2)
      L :=
  ha.bind_taken (fun x _ _ ↦ hb x) (fun x _ _ ↦ (hb x).viable) hsize hL

/-- An answer is changed. -/
theorem Predicts.map {a a' : Reader α} {LA : α → List Piece → Prop} {L : β → List Piece → Prop}
    (ha : Predicts size size' a a' LA) (f : α → β) (hL : ∀ x ps, LA x ps → L (f x) ps) :
    Predicts size size' (fun ls ↦ a ls >>= fun p ↦ .ok (f p.1, p.2))
      (fun ls ↦ a' ls >>= fun p ↦ .ok (f p.1, p.2)) L := by
  have hpure : ∀ x, Predicts size size' (fun ls ↦ .ok (f x, ls)) (fun ls ↦ .ok (f x, ls))
      fun y ps ↦ y = f x ∧ ps = [] := fun x ↦ predicts_pure ⟨rfl, rfl⟩
  refine ha.bind hpure (fun x ps _ ↦ ⟨Nat.le_add_left size _, Nat.le_add_left size' _⟩) ?_
  rintro x y ps more hx ⟨rfl, rfl⟩
  rw [List.append_nil]
  exact hL x ps hx

/-- An answer is changed by what stands first. -/
theorem Predicts.map_head {a a' : Reader α} {LA : α → List Piece → Prop}
    {L : β → List Piece → Prop} (ha : Predicts size size' a a' LA) (f : α → Option Lexeme → β)
    (hnil : ∀ x, ¬LA x []) (hL : ∀ x first ps, LA x ps → L (f x first) ps) :
    Predicts size size' (fun ls ↦ a ls >>= fun p ↦ .ok (f p.1 ls.head?, p.2))
      (fun ls ↦ a' ls >>= fun p ↦ .ok (f p.1 ls.head?, p.2)) L where
  viable := ha.viable.mono fun x more hx ↦ ⟨f x none, hL x none _ hx⟩
  success := by
    intro ls y rest hls hread
    obtain ⟨⟨x, mid⟩, hx, hy⟩ := Except.bind_eq_ok_iff.1 hread
    cases hy
    obtain ⟨pre, rfl, hpre, hsame⟩ := ha.success hls hx
    rcases pre with - | ⟨first, pre⟩
    · exact absurd hpre (hnil x)
    · refine ⟨first :: pre, rfl, hL x _ _ hpre, fun rest' hrest' hle ↦ ?_⟩
      rw [hsame rest' hrest' hle]
      rfl
  failure := by
    intro ls wanted l hls hread
    rcases Except.bind_eq_error_iff.1 hread with hx | ⟨_, _, hy⟩
    · obtain ⟨pre, rest, rfl, hpre, hsame⟩ := ha.failure hls hx
      refine ⟨pre, rest, rfl, hpre.mono fun x more hx ↦ ⟨f x none, hL x none _ hx⟩,
        fun l' rest' hl' hle ↦ ?_⟩
      rw [hsame l' rest' hl' hle]
      rfl
    · cases hy

/-! ### Decisions on the first lexeme -/

/-- What a reader does is told by the first lexeme. -/
theorem predicts_of_head {r r' : Reader α} {L : α → List Piece → Prop} (hviable : Viable L [])
    (h : ∀ first : Option Piece, ∃ a a' LA, Predicts size size' a a' LA ∧
      (∀ ls, ls.head?.map Lexeme.piece = first → r ls = a ls ∧ r' ls = a' ls) ∧
      ∀ x ps, (∀ p ∈ ps.head?, first = some p) → LA x ps → L x ps) :
    Predicts size size' r r' L where
  viable := hviable
  success := by
    intro ls x rest hls hread
    obtain ⟨a, a', LA, ha, heq, hL⟩ := h (ls.head?.map Lexeme.piece)
    rw [(heq ls rfl).1] at hread
    obtain ⟨pre, rfl, hpre, hsame⟩ := ha.success hls hread
    refine ⟨pre, rfl, hL x _ (fun p hp ↦ ?_) hpre, fun rest' hrest' hle ↦ ?_⟩
    · cases pre with
      | nil => cases hp
      | cons l pre => exact hp
    · rw [(heq _ (hrest'.append pre).symm).2]
      exact hsame rest' hrest' hle
  failure := by
    intro ls wanted l hls hread
    obtain ⟨a, a', LA, ha, heq, hL⟩ := h (ls.head?.map Lexeme.piece)
    rw [(heq ls rfl).1] at hread
    obtain ⟨pre, rest, rfl, hpre, hsame⟩ := ha.failure hls hread
    refine ⟨pre, rest, rfl, ?_, fun l' rest' hl' hle ↦ ?_⟩
    · cases pre with
      | nil => exact hviable
      | cons first pre => exact hpre.mono fun x more hx ↦ ⟨x, hL x _ (fun p hp ↦ hp) hx⟩
    · rw [(heq _ ((sameHead_cons hl' rest rest').append pre).symm).2]
      exact hsame l' rest' hl' hle

/-- What a reader does is told by the first lexeme, which may be one that it fails at. -/
theorem predicts_of_head_or {r r' : Reader α} {L : α → List Piece → Prop} (wanted : Expectation)
    (hviable : Viable L [])
    (h : ∀ first : Option Piece,
      (∃ a a' LA, Predicts size size' a a' LA ∧
        (∀ ls, ls.head?.map Lexeme.piece = first → r ls = a ls ∧ r' ls = a' ls) ∧
        ∀ x ps, (∀ p ∈ ps.head?, first = some p) → LA x ps → L x ps) ∨
      ∀ ls, ls.head?.map Lexeme.piece = first →
        r ls = unexpected wanted ls ∧ r' ls = unexpected wanted ls) :
    Predicts size size' r r' L := by
  refine predicts_of_head hviable fun first ↦ ?_
  rcases h first with h | h
  · exact h
  · exact ⟨_, _, L, predicts_unexpected wanted hviable, h, fun x ps _ hx ↦ hx⟩

/-- Goes on behind the first lexeme, whatever it is. -/
def skip (r : Reader α) : Reader α
  | _ :: ls => r ls
  | [] => unexpected .type []

/-- A reader behind a skipped lexeme predicts its language behind one piece. -/
theorem Predicts.skip {r r' : Reader α} {L : α → List Piece → Prop} (h : Predicts m m' r r' L)
    (hsize : size ≤ m + 1) (hsize' : size' ≤ m' + 1) :
    Predicts size size' r.skip r'.skip fun x ps ↦ ∃ p more, ps = p :: more ∧ L x more where
  viable := by
    obtain ⟨x, more, hmore, hx⟩ := h.viable
    have hfiller : TokenKind.IsFiller (.symbol .colon) := ⟨trivial, rfl⟩
    exact ⟨x, .symbol .colon :: more, List.forall_mem_cons.2 ⟨hfiller, hmore⟩, _, _, rfl, hx⟩
  success := by
    intro ls x rest hls hread
    rcases ls with - | ⟨l, ls⟩
    · cases hread
    · rw [List.length_cons] at hls
      obtain ⟨pre, rfl, hpre, hsame⟩ := h.success (by omega) hread
      refine ⟨l :: pre, rfl, ⟨_, _, rfl, hpre⟩, fun rest' hrest' hle ↦ ?_⟩
      rw [List.cons_append, List.length_cons] at hle
      exact hsame rest' hrest' (by omega)
  failure := by
    intro ls wanted l hls hread
    rcases ls with - | ⟨first, ls⟩
    · cases hread
    · rw [List.length_cons] at hls
      obtain ⟨pre, rest, rfl, hpre, hsame⟩ := h.failure (by omega) hread
      refine ⟨first :: pre, rest, rfl, ?_, fun l' rest' hl' hle ↦ ?_⟩
      · obtain ⟨x, more, hmore, hx⟩ := hpre
        exact ⟨x, more, hmore, _, _, rfl, hx⟩
      · rw [List.cons_append, List.length_cons] at hle
        exact hsame l' rest' hl' (by omega)

/-- If the first lexeme makes a type or the like, and a reader never takes nothing, then it is read
behind that lexeme as well as from it on. -/
theorem Predicts.behind {r r' : Reader α} {L : α → List Piece → Prop} {l : Lexeme} {x : α}
    (h : Predicts (size + 1) (size' + 1) r r' L) (hx : r' [l] = .ok (x, [])) (hl : L x [l.piece])
    (hnil : ∀ x, ¬L x []) :
    Predicts size size' (fun ls ↦ r (l :: ls)) (fun ls ↦ r' (l :: ls))
      fun x ps ↦ L x (l.piece :: ps) where
  viable := ⟨x, [], by simp, hl⟩
  success := by
    intro ls y rest hls hread
    have hle : (l :: ls).length ≤ size + 1 := Nat.succ_le_succ hls
    obtain ⟨pre, heq, hpre, hsame⟩ := h.success hle hread
    rcases pre with - | ⟨first, pre⟩
    · exact absurd hpre (hnil y)
    · obtain ⟨rfl, rfl⟩ := List.cons.inj heq
      exact ⟨pre, rfl, hpre, fun rest' hrest' hle ↦ hsame rest' hrest' (Nat.succ_le_succ hle)⟩
  failure := by
    intro ls wanted found hls hread
    have hle : (l :: ls).length ≤ size + 1 := Nat.succ_le_succ hls
    obtain ⟨pre, rest, heq, hpre, hsame⟩ := h.failure hle hread
    rcases pre with - | ⟨first, pre⟩
    · -- a failure at the first lexeme would be one where nothing stands behind it
      obtain ⟨rfl, rfl⟩ := List.cons.inj heq
      have hfail := hsame l [] rfl (by simp)
      rw [List.nil_append, hx] at hfail
      cases hfail
    · obtain ⟨rfl, rfl⟩ := List.cons.inj heq
      exact ⟨pre, rest, rfl, hpre, fun l' rest' hl' hle ↦ hsame l' rest' hl' (Nat.succ_le_succ hle)⟩

/-! ### Symbols and words -/

/-- A list whose first piece is known begins with a lexeme of that piece. -/
theorem eq_cons_of_head {p : Piece} {ls : List Lexeme} (h : ls.head?.map Lexeme.piece = some p) :
    ∃ l behind, ls = l :: behind ∧ l.piece = p := by
  rcases ls with - | ⟨l, behind⟩
  · cases h
  · exact ⟨l, behind, rfl, Option.some.inj h⟩

/-- The first lexeme tells whether it is a given symbol. -/
theorem head_cases (s : Symbol) (first : Option Piece) :
    (∃ p, first = some p ∧ p.kind = .symbol s) ∨
      ∀ ls : List Lexeme, ls.head?.map Lexeme.piece = first → afterSymbol? s ls = none := by
  by_cases hfirst : ∃ p, first = some p ∧ p.kind = .symbol s
  · exact Or.inl hfirst
  · refine Or.inr fun ls hls ↦ ?_
    rcases ls with - | ⟨l, ls⟩
    · rfl
    · rw [afterSymbol?, if_neg]
      exact fun hl ↦ hfirst ⟨l.piece, hls.symm, hl⟩

/-- A reader goes on behind a symbol that has to be there. -/
theorem Predicts.symbol {s : Symbol} {r r' : Reader α} {LR L : α → List Piece → Prop}
    (h : Predicts m m' r r' LR) (wanted : Expectation) (hsize : size ≤ m + 1)
    (hsize' : size' ≤ m' + 1) (hL : ∀ x p ps, p.kind = .symbol s → LR x ps → L x (p :: ps)) :
    Predicts size size' (fun ls ↦ symbol s wanted ls >>= r) (fun ls ↦ symbol s wanted ls >>= r')
      L := by
  have hviable : Viable L [] := by
    obtain ⟨x, more, hmore, hx⟩ := h.viable
    have hfiller : TokenKind.IsFiller (.symbol s) := ⟨trivial, rfl⟩
    exact ⟨x, .symbol s :: more, List.forall_mem_cons.2 ⟨hfiller, hmore⟩, hL x _ _ rfl hx⟩
  refine predicts_of_head_or wanted hviable fun first ↦ ?_
  rcases head_cases s first with ⟨p, rfl, hp⟩ | hnone
  · refine Or.inl ⟨_, _, _, h.skip hsize hsize', fun ls hls ↦ ?_, ?_⟩
    · obtain ⟨l, behind, rfl, rfl⟩ := eq_cons_of_head hls
      rw [symbol_cons hp]
      exact ⟨rfl, rfl⟩
    · rintro x _ hps ⟨q, more, rfl, hx⟩
      obtain rfl := Option.some.inj (hps q rfl)
      exact hL x _ more hp hx
  · refine Or.inr fun ls hls ↦ ?_
    rw [Reading.symbol, hnone ls hls]
    exact ⟨rfl, rfl⟩

/-- Reads one way behind a symbol, and another way where that symbol is not next. -/
def ifSymbol (s : Symbol) (a b : Reader α) : Reader α := fun ls ↦
  match afterSymbol? s ls with
  | some behind => a behind
  | none => b ls

/-- A reader that decides on a symbol predicts if both of its branches do. -/
theorem Predicts.ifSymbol (s : Symbol) {a a' b b' : Reader α} {LA LB L : α → List Piece → Prop}
    (ha : Predicts m m' a a' LA) (hb : Predicts size size' b b' LB)
    (hsize : size ≤ m + 1) (hsize' : size' ≤ m' + 1)
    (hLA : ∀ x p ps, p.kind = .symbol s → LA x ps → L x (p :: ps))
    (hLB : ∀ x ps, LB x ps → L x ps) :
    Predicts size size' (ifSymbol s a b) (ifSymbol s a' b') L := by
  have hsome : ∀ (a b : Reader α) {ls behind : List Lexeme}, afterSymbol? s ls = some behind →
      Reader.ifSymbol s a b ls = a behind := by
    intro a b ls behind h
    rw [Reader.ifSymbol, h]
  have hnone : ∀ (a b : Reader α) {ls : List Lexeme}, afterSymbol? s ls = none →
      Reader.ifSymbol s a b ls = b ls := by
    intro a b ls h
    rw [Reader.ifSymbol, h]
  refine predicts_of_head (hb.viable.mono fun x more hx ↦ ⟨x, hLB x _ hx⟩) fun first ↦ ?_
  rcases head_cases s first with ⟨p, rfl, hp⟩ | hfirst
  · refine ⟨_, _, _, ha.skip hsize hsize', fun ls hls ↦ ?_, ?_⟩
    · obtain ⟨l, behind, rfl, rfl⟩ := eq_cons_of_head hls
      have hafter := afterSymbol?_cons hp behind
      exact ⟨hsome a b hafter, hsome a' b' hafter⟩
    · rintro x _ hps ⟨q, more, rfl, hx⟩
      obtain rfl := Option.some.inj (hps q rfl)
      exact hLA x _ more hp hx
  · refine ⟨b, b', LB, hb, fun ls hls ↦ ?_, fun x ps _ hx ↦ hLB x ps hx⟩
    exact ⟨hnone a b (hfirst ls hls), hnone a' b' (hfirst ls hls)⟩

/-- A word is predicted. -/
theorem predicts_word (wanted : Expectation) :
    Predicts size size' (word wanted) (word wanted) fun text ps ↦
      ∃ p, p.kind = .word text ∧ ps = [p] := by
  have hviable : Viable (fun text ps ↦ ∃ p : Piece, p.kind = .word text ∧ ps = [p]) [] :=
    ⟨"A", [.word "A"], by decide, _, rfl, rfl⟩
  refine predicts_of_head_or wanted hviable fun first ↦ ?_
  by_cases hfirst : ∃ p text, first = some p ∧ p.kind = .word text
  · obtain ⟨p, text, rfl, hp⟩ := hfirst
    refine Or.inl ⟨_, _, _, (predicts_pure (L := fun x ps ↦ x = text ∧ ps = [])
      ⟨rfl, rfl⟩).skip (Nat.le_succ size) (Nat.le_succ size'), fun ls hls ↦ ?_, ?_⟩
    · obtain ⟨l, behind, rfl, rfl⟩ := eq_cons_of_head hls
      rw [Reading.word_cons hp]
      exact ⟨rfl, rfl⟩
    · rintro _ _ hps ⟨q, _, rfl, rfl, rfl⟩
      obtain rfl := Option.some.inj (hps q rfl)
      exact ⟨p, hp, rfl⟩
  · refine Or.inr fun ls hls ↦ ?_
    have hword : word wanted ls = unexpected wanted ls := by
      unfold word
      split
      · exact absurd ⟨_, _, hls.symm, rfl⟩ hfirst
      · rfl
    exact ⟨hword, hword⟩

/-- Takes a word as it stands. -/
def wordLexeme : Reader Lexeme
  | l :: ls =>
    match l.kind with
    | .word _ => .ok (l, ls)
    | _ => unexpected .type (l :: ls)
  | [] => unexpected .type []

theorem wordLexeme_cons {l : Lexeme} {text : String} (hl : l.kind = .word text)
    (ls : List Lexeme) : wordLexeme (l :: ls) = .ok (l, ls) := by
  rw [wordLexeme, hl]

/-- The empty list begins a word. -/
theorem viable_wordLexeme :
    Viable (fun l ps ↦ (∃ text, l.kind = .word text) ∧ ps = [Lexeme.piece l]) [] :=
  ⟨⟨.word "A", ⟨1, 1⟩, [], none, false, false⟩, [.word "A"], by decide, ⟨"A", rfl⟩, rfl⟩

/-- A lexeme that is a word is predicted. -/
theorem predicts_wordLexeme :
    Predicts size size' wordLexeme wordLexeme fun l ps ↦
      (∃ text, l.kind = .word text) ∧ ps = [l.piece] where
  viable := viable_wordLexeme
  success := by
    intro ls l rest _ hread
    rcases ls with - | ⟨first, ls⟩
    · cases hread
    · rw [wordLexeme] at hread
      split at hread
      next text htext =>
        cases hread
        exact ⟨[l], rfl, ⟨⟨text, htext⟩, rfl⟩, fun rest' _ _ ↦ wordLexeme_cons htext rest'⟩
      · cases hread
  failure := by
    intro ls wanted l _ hread
    rcases ls with - | ⟨first, ls⟩
    · cases hread
    · rw [wordLexeme] at hread
      split at hread
      · cases hread
      next hnot =>
        cases hread
        refine ⟨[], ls, rfl, viable_wordLexeme, fun l' rest' hl' _ ↦ ?_⟩
        have hkind : l'.kind = l.kind := congrArg Piece.kind hl'
        rw [List.nil_append, wordLexeme, hkind]
        split
        next text htext => exact absurd htext (hnot text)
        · rfl

/-! ### Annotations and the ends of lines -/

/-- Annotations are predicted: no failure is in them. -/
theorem predicts_takeAnnotations :
    Predicts size size' (fun ls ↦ .ok (takeAnnotations ls)) (fun ls ↦ .ok (takeAnnotations ls))
      fun annots ps ↦ ps.map Piece.kind = annots.map .annot where
  viable := viable_of_mem (x := []) rfl
  success := by
    intro ls annots rest _ hread
    obtain ⟨pre, rfl, hpre⟩ := eq_append_of_takeAnnotations (Except.ok.inj hread)
    refine ⟨pre, rfl, by rw [← hpre, List.map_map]; rfl, fun rest' hrest' _ ↦ ?_⟩
    rw [takeAnnotations_append hpre fun l' hl' text hkind ↦ ?_]
    rcases rest with - | ⟨l, rest⟩
    · rw [hrest'.eq_nil] at hl'
      cases hl'
    · obtain ⟨_, more, rfl, hl⟩ := hrest'.eq_cons
      cases hl'
      exact head_of_takeAnnotations (Except.ok.inj hread) l rfl text
        ((congrArg Piece.kind hl).symm.trans hkind)
  failure := by
    intro ls wanted l _ hread
    cases hread

/-- A line that was taken is ended, and a reader goes on behind it. -/
theorem Predicts.behindLine {r r' : Option String → Reader α} {L : α → List Piece → Prop}
    (h : ∀ comment, Predicts size size' (r comment) (r' comment) L) (line : List Lexeme) :
    Predicts size size' (fun ls ↦ endOfLine (line ++ ls) ls >>= fun comment ↦ r comment ls)
      (fun ls ↦ endOfLine (line ++ ls) ls >>= fun comment ↦ r' comment ls) L := by
  have hend : ∀ ls, endOfLine (line ++ ls) ls = endOfLine line [] := by
    intro ls
    rw [endOfLine, taken_append, endOfLine, taken, List.length_nil, Nat.sub_zero, List.take_length]
  simp only [hend]
  obtain ⟨comment, hok⟩ | ⟨comment, herror⟩ : (∃ comment, endOfLine line [] = .ok comment) ∨
      ∃ comment, endOfLine line [] = .error (.misplaced comment) := by
    unfold endOfLine
    dsimp only
    split
    · exact Or.inr ⟨_, rfl⟩
    · exact Or.inl ⟨_, rfl⟩
  · rw [hok]
    exact h comment
  · rw [herror]
    exact predicts_misplaced comment (h none).viable

/-! ### Repetition -/

/-- A repetition goes on as long as there are separators. -/
theorem Predicts.repeated {item item' : Reader α} {LI : α → List Piece → Prop}
    {L : List α → List Piece → Prop} (hitem : Predicts size size' item item' LI) {s : Symbol}
    {bound bound' : ℕ} (hbound : size ≤ bound) (hbound' : size' ≤ bound') (hnil : L [] [])
    (hcons : ∀ x xs p ps more, p.kind = .symbol s → LI x ps → L xs more →
      L (x :: xs) (p :: (ps ++ more))) :
    Predicts size size' (separated s item bound) (separated s item' bound') L := by
  have hend : ∀ (bound : ℕ) (item : Reader α), separated s item bound [] = .ok ([], []) := by
    intro bound item
    cases bound <;> rfl
  induction bound generalizing bound' size size' with
  | zero =>
    refine ⟨viable_of_mem hnil, fun ls xs rest hls hread ↦ ?_, fun ls wanted l hls hread ↦ ?_⟩
    · cases hread
      rw [List.length_eq_zero_iff.1 (Nat.le_zero.1 (Nat.le_trans hls hbound))]
      refine ⟨[], rfl, hnil, fun rest' hrest' _ ↦ ?_⟩
      rw [hrest'.eq_nil]
      exact hend bound' item'
    · cases hread
  | succ bound ih =>
    -- behind a separator an item is read, and the rest is under smaller bounds
    have hstep : ∀ bound', size' ≤ bound' + 1 →
        Predicts size size' (separated s item (bound + 1)) (separated s item' (bound' + 1)) L := by
      intro bound' hbound'
      have hmore : Predicts (size - 1) (size' - 1) (separated s item bound)
          (separated s item' bound') L :=
        ih (hitem.mono (Nat.sub_le size 1) (Nat.sub_le size' 1) fun _ _ hx ↦ hx) (by omega)
          (by omega)
      have hfirst := (hitem.mono (Nat.sub_le size 1) (Nat.sub_le size' 1) fun _ _ hx ↦ hx).bind
        (L := fun xs ps ↦ ∀ p : Piece, p.kind = .symbol s → L xs (p :: ps))
        (fun x ↦ hmore.map (x :: ·) (L := fun ys ps ↦ ∃ xs, ys = x :: xs ∧ L xs ps)
          fun xs ps hxs ↦ ⟨xs, rfl, hxs⟩)
        (fun x ps _ ↦ ⟨Nat.le_add_left _ _, Nat.le_add_left _ _⟩)
        (by
          rintro x _ ps more hx ⟨xs, rfl, hxs⟩ p hp
          exact hcons x xs p ps more hp hx hxs)
      have hall : Predicts size size' _ _ L :=
        hfirst.ifSymbol s (predicts_pure (x := []) (L := L) hnil) (by omega) (by omega)
          (fun xs p ps hp hxs ↦ hxs p hp) fun xs ps hxs ↦ hxs
      refine hall.congr (fun ls _ ↦ ?_) fun ls _ ↦ ?_ <;>
        rw [Reading.separated, Reader.ifSymbol] <;> cases afterSymbol? s ls <;> rfl
    -- where the other bound is zero the other list is empty, and every bound reads it alike
    cases bound' with
    | succ bound' => exact hstep bound' hbound'
    | zero =>
      refine (hstep 0 (Nat.le_succ_of_le hbound')).congr (fun ls _ ↦ rfl) fun ls hls ↦ ?_
      rw [List.length_eq_zero_iff.1 (Nat.le_zero.1 (Nat.le_trans hls hbound')), hend, hend]

/-! ### Recursion -/

/-- Readers that recurse on a bound predict a language, if they do so at the bounds zero and one
step further whenever they do so up to some bounds. At the end of a text the bound does not matter.
-/
theorem predicts_of_bound {ι : Type} (r r' : ι → ℕ → Reader α) {L : α → List Piece → Prop}
    (f f' : ℕ → ℕ) (hf : f 0 = 0) (hf' : f' 0 = 0)
    (hzero : ∀ i, Predicts 0 0 (r i 0) (r' i 0) L)
    (hr : ∀ i bound, r i bound [] = r i 0 []) (hr' : ∀ i bound, r' i bound [] = r' i 0 [])
    (hstep : ∀ bound bound', (∀ i, Predicts (f bound) (f' bound') (r i bound) (r' i bound') L) →
      ∀ i, Predicts (f (bound + 1)) (f' (bound' + 1)) (r i (bound + 1)) (r' i (bound' + 1)) L)
    (bound bound' : ℕ) (i : ι) : Predicts (f bound) (f' bound') (r i bound) (r' i bound') L := by
  have hnil : ∀ ls : List Lexeme, ls.length ≤ 0 → ls = [] :=
    fun ls hls ↦ List.length_eq_zero_iff.1 (Nat.le_zero.1 hls)
  have hstart : ∀ bound' i, Predicts 0 (f' bound') (r i 0) (r' i bound') L := by
    intro bound'
    induction bound' with
    | zero =>
      rw [hf']
      exact hzero
    | succ bound' ih =>
      -- a reader with the bound zero is one with the bound one, where nothing is left to read
      intro i
      have hone := (hstep 0 bound' (by rwa [hf]) i).mono (Nat.zero_le _) (Nat.le_refl _)
        fun _ _ hx ↦ hx
      refine hone.congr (fun ls hls ↦ ?_) fun ls _ ↦ rfl
      rw [hnil ls hls, hr i (0 + 1)]
  induction bound generalizing bound' i with
  | zero =>
    rw [hf]
    exact hstart bound' i
  | succ bound ih =>
    cases bound' with
    | succ bound' => exact hstep bound bound' (ih bound') i
    | zero =>
      have hone := (hstep bound 0 (ih 0) i).mono (Nat.le_refl _) (Nat.zero_le _) fun _ _ hx ↦ hx
      rw [hf']
      refine hone.congr (fun ls _ ↦ rfl) fun ls hls ↦ ?_
      rw [hnil ls hls, hr' i (0 + 1)]

/-- Readers that recurse on a bound and fail at the end of a text predict a language, if they do so
one step further whenever they do so up to some bounds. -/
theorem predicts_of_step {ι : Type} (r r' : ι → ℕ → Reader α) {L : α → List Piece → Prop}
    (f f' : ℕ → ℕ) (hf : f 0 = 0) (hf' : f' 0 = 0) (wanted : Expectation) (hviable : Viable L [])
    (hr : ∀ i bound, r i bound [] = unexpected wanted [])
    (hr' : ∀ i bound, r' i bound [] = unexpected wanted [])
    (hstep : ∀ bound bound', (∀ i, Predicts (f bound) (f' bound') (r i bound) (r' i bound') L) →
      ∀ i, Predicts (f (bound + 1)) (f' (bound' + 1)) (r i (bound + 1)) (r' i (bound' + 1)) L)
    (bound bound' : ℕ) (i : ι) : Predicts (f bound) (f' bound') (r i bound) (r' i bound') L := by
  have hnil : ∀ ls : List Lexeme, ls.length ≤ 0 → ls = [] :=
    fun ls hls ↦ List.length_eq_zero_iff.1 (Nat.le_zero.1 hls)
  refine predicts_of_bound r r' f f' hf hf' (fun i ↦ ?_)
    (fun i bound ↦ (hr i _).trans (hr i _).symm)
    (fun i bound ↦ (hr' i _).trans (hr' i _).symm) hstep bound bound' i
  refine (predicts_unexpected wanted hviable).congr (fun ls hls ↦ ?_) fun ls hls ↦ ?_
  · rw [hnil ls hls, hr]
  · rw [hnil ls hls, hr']

end Reader

end ModelSignatures
