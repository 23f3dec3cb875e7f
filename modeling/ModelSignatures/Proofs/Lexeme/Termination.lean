import ModelSignatures.Proofs.Unfolding
import ModelSignatures.Proofs.Lexeme.Reader

/-!
# Repetitions come to an end

Two readers answer alike up to a size if they cannot be told apart on lists as long as that
(`AlikeUpTo`). A reader that goes on behind something it took is asked about fewer lexemes there, so
whatever it hands on needs to be alike only up to a smaller size. For a repetition this says that
the bound does not matter once it is as large as the list (`Reading.separated_alike`), and that it
ends after as many items as there are lexemes (`Reading.separated_ends`).
-/

namespace ModelSignatures

/-- Whether two functions answer alike on lists of lexemes up to a size. -/
def AlikeUpTo {ρ : Type} (size : ℕ) (f g : List Lexeme → ρ) : Prop :=
  ∀ ls, ls.length ≤ size → f ls = g ls

/-- Functions that answer alike up to a size do so up to a smaller one. -/
theorem AlikeUpTo.mono {ρ : Type} {size size' : ℕ} {f g : List Lexeme → ρ}
    (h : AlikeUpTo size f g) (hsize : size' ≤ size) : AlikeUpTo size' f g :=
  fun ls hls ↦ h ls (Nat.le_trans hls hsize)

/-- Functions that answer alike on no lexemes do so up to size zero. -/
theorem alikeUpTo_zero {ρ : Type} {f g : List Lexeme → ρ} (h : f [] = g []) :
    AlikeUpTo 0 f g := by
  intro ls hls
  rw [List.length_eq_zero_iff.1 (Nat.le_zero.1 hls)]
  exact h

/-- Functions with bounds answer alike up to a size, if they do so at no lexemes at all, and up to
the next size one bound further whenever they do so up to a smaller one. -/
theorem alike_of_step {ι ρ : Type} (f g : ι → ℕ → List Lexeme → ρ) {size : ℕ}
    (hnil : ∀ i bound bound', f i bound [] = g i bound' [])
    (hstep : ∀ below bound bound', below < size →
      (∀ i, AlikeUpTo below (f i bound) (g i bound')) → below ≤ bound → below ≤ bound' →
      ∀ i, AlikeUpTo (below + 1) (f i (bound + 1)) (g i (bound' + 1)))
    {bound bound' : ℕ} (hbound : size ≤ bound) (hbound' : size ≤ bound') (i : ι) :
    AlikeUpTo size (f i bound) (g i bound') := by
  have hall : ∀ n ≤ size, ∀ bound bound', n ≤ bound → n ≤ bound' →
      ∀ i, AlikeUpTo n (f i bound) (g i bound') := by
    intro n
    -- The bounds and the index stay free: both change when a reader calls another one.
    induction n with
    | zero => exact fun _ bound bound' _ _ i ↦ alikeUpTo_zero (hnil i bound bound')
    | succ n ih =>
      rintro hn (- | bound) (- | bound') hbound hbound'
      · cases hbound
      · cases hbound
      · cases hbound'
      · have hbound := Nat.le_of_succ_le_succ hbound
        have hbound' := Nat.le_of_succ_le_succ hbound'
        exact hstep n bound bound' hn (ih (Nat.le_of_lt hn) bound bound' hbound hbound') hbound
          hbound'
  exact hall size (Nat.le_refl _) bound bound' hbound hbound' i

/-- If a function with bounds is answered for, up to each size, by what its body comes to when it is
unfolded as often, then it ends within the number of lexemes. -/
theorem ends_of_step {σ ρ : Type} (body : σ → σ) (Tells : ℕ → σ → Prop) {ask : σ → List Lexeme → ρ}
    {f : ℕ → List Lexeme → ρ} {bound : ℕ} {ls : List Lexeme}
    (hzero : ∀ calls, Tells 0 (body calls))
    (hstep : ∀ below < ls.length, ∀ calls, Tells below calls → Tells (below + 1) (body calls))
    (htells : ∀ size calls, Tells size calls → AlikeUpTo size (f size) (ask calls))
    (hsame : f bound ls = f ls.length ls) :
    EndsWithin body (ls.length + 1) (ask · ls) (f bound ls) := by
  intro calls
  have hall := htells _ _ (iterate_of_step body Tells hzero hstep calls)
  rw [hsame, hall ls (Nat.le_refl _)]

/-! ### What is left -/

/-- Whether a reader leaves no more lexemes than it is given, on lists up to a size. -/
def Reader.LeavesNoMore {α : Type} (size : ℕ) (r : Reader α) : Prop :=
  ∀ ⦃ls x rest⦄, ls.length ≤ size → r ls = .ok (x, rest) → rest.length ≤ ls.length

/-- A reader that leaves no more up to a size does so up to a smaller one. -/
theorem Reader.LeavesNoMore.mono {α : Type} {size size' : ℕ} {r : Reader α}
    (h : r.LeavesNoMore size) (hsize : size' ≤ size) : r.LeavesNoMore size' :=
  fun _ _ _ hls hread ↦ h (Nat.le_trans hls hsize) hread

namespace Reader.Reads

variable {α : Type} {r : Reader α} {P : α → List Lexeme → Prop} {ls rest : List Lexeme} {x : α}

/-- A reader that takes what stands in front leaves no more than it is given. -/
theorem length_le (h : r.Reads P) (hread : r ls = .ok (x, rest)) : rest.length ≤ ls.length := by
  obtain ⟨pre, rfl, -⟩ := h hread
  rw [List.length_append]
  exact Nat.le_add_left _ _

/-- A reader that takes what stands in front leaves no more at any size. -/
theorem leavesNoMore (h : r.Reads P) (size : ℕ) : r.LeavesNoMore size :=
  fun _ _ _ _ hread ↦ h.length_le hread

/-- What is never spelled by nothing leaves fewer lexemes. -/
theorem length_lt (h : r.Reads P) (hP : ∀ x, ¬P x []) (hread : r ls = .ok (x, rest)) :
    rest.length < ls.length := by
  obtain ⟨pre, rfl, hpre⟩ := h hread
  rcases pre with - | ⟨l, pre⟩
  · exact absurd hpre (hP x)
  · rw [List.length_append, List.length_cons]
    omega

end Reader.Reads

namespace Reading

/-- A symbol that is taken is one lexeme. -/
theorem length_of_afterSymbol? {s : Symbol} {ls rest : List Lexeme}
    (h : afterSymbol? s ls = some rest) : ls.length = rest.length + 1 := by
  obtain ⟨l, rfl, -⟩ := eq_cons_of_afterSymbol? h
  rfl

/-- A symbol that has to be there is one lexeme. -/
theorem length_of_symbol {s : Symbol} {wanted : Expectation} {ls rest : List Lexeme}
    (h : symbol s wanted ls = .ok rest) : ls.length = rest.length + 1 := by
  obtain ⟨l, rfl, -⟩ := eq_cons_of_symbol h
  rfl

/-! ### Repetition -/

variable {α : Type} {separator : Symbol} {item item' : Reader α}

theorem separated_nil (bound : ℕ) : separated separator item bound [] = .ok ([], []) := by
  cases bound <;> rfl

/-- What a repetition does with `more` in place of the repetition behind an item. -/
def separatedCalling (separator : Symbol) (item : Reader α) (more : Reader (List α)) :
    Reader (List α) := fun ls ↦
  match afterSymbol? separator ls with
  | none => .ok ([], ls)
  | some ls => do
    let (x, ls) ← item ls
    let (xs, ls) ← more ls
    return (x :: xs, ls)

theorem separated_succ (bound : ℕ) :
    separated separator item (bound + 1) =
      separatedCalling separator item (separated separator item bound) :=
  rfl

/-- Repetitions are alike on one lexeme more than what repeats behind an item. -/
theorem separatedCalling_alike {size : ℕ} {more more' : Reader (List α)}
    (hleaves : item.LeavesNoMore size) (hitem : AlikeUpTo size item item')
    (h : AlikeUpTo size more more') :
    AlikeUpTo (size + 1) (separatedCalling separator item more)
      (separatedCalling separator item' more') := by
  intro ls hls
  rw [separatedCalling, separatedCalling]
  cases hsymbol : afterSymbol? separator ls with
  | none => rfl
  | some behind =>
    have hbehind := length_of_afterSymbol? hsymbol
    dsimp only
    rw [← hitem behind (by omega)]
    refine Except.bind_congr_of_ok ?_
    rintro ⟨x, rest⟩ hx
    have hrest := hleaves (by omega) hx
    dsimp only
    rw [h rest (by omega)]

/-- Repetitions of items that are read alike are read alike, if the bounds are large enough. -/
theorem separated_alike {size bound bound' : ℕ} (hitem : AlikeUpTo size item item')
    (hleaves : item.LeavesNoMore size) (hbound : size ≤ bound) (hbound' : size ≤ bound') :
    AlikeUpTo size (separated separator item bound) (separated separator item' bound') := by
  refine alike_of_step (fun _ : Unit ↦ separated separator item)
    (fun _ ↦ separated separator item') (fun _ _ _ ↦ ?_) (fun below _ _ hbelow ih _ _ _ ↦ ?_)
    hbound hbound' ()
  · rw [separated_nil, separated_nil]
  · rw [separated_succ, separated_succ]
    have hleaves : item.LeavesNoMore below := hleaves.mono (Nat.le_of_lt hbelow)
    exact separatedCalling_alike hleaves (hitem.mono (Nat.le_of_lt hbelow)) (ih ())

/-- A repetition ends after at most as many items as lexemes are left. -/
theorem separated_ends {bound : ℕ} {ls : List Lexeme} (hleaves : item.LeavesNoMore ls.length)
    (hbound : ls.length ≤ bound) :
    EndsWithin (separatedCalling separator item) (ls.length + 1) (· ls)
      (separated separator item bound ls) := by
  refine ends_of_step (separatedCalling separator item)
    (fun size ↦ AlikeUpTo size (separated separator item size)) (fun _ ↦ alikeUpTo_zero rfl)
    (fun below hbelow _ h ↦ ?_) (fun _ _ h ↦ h) ?_
  · have hleaves : item.LeavesNoMore below := hleaves.mono (Nat.le_of_lt hbelow)
    exact separatedCalling_alike hleaves (fun _ _ ↦ rfl) h
  · exact separated_alike (fun _ _ ↦ rfl) hleaves hbound (Nat.le_refl _) ls (Nat.le_refl _)

end Reading

end ModelSignatures
