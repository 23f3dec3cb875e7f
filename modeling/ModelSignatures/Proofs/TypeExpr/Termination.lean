import ModelSignatures.Proofs.Lexeme.Termination
import ModelSignatures.Proofs.TypeExpr.Grammar

/-!
# The readers of types come to an end

Types nest through parentheses and arguments, and each time a lexeme is taken before the reader of
primary types is called again. So what `TypeExpr.readPrimary` answers on a list is told by what its
calls answer on shorter lists (`TypeExpr.readPrimaryWith_alike`), and it ends before its calls are
nested deeper than there are lexemes (`TypeExpr.readPrimary_ends`).
-/

namespace ModelSignatures

open Reading (afterSymbol? symbol word separated unexpected word_reads separated_alike
  length_of_afterSymbol?)

/-- The bound on the segments of a name is not felt. One segment is read without it. -/
theorem TypeName.read_alike {size bound bound' : ℕ} (hbound : size ≤ bound)
    (hbound' : size ≤ bound') :
    AlikeUpTo (size + 1) (TypeName.read bound) (TypeName.read bound') := by
  have hpath : ∀ (absolute : Bool) (ls : List Lexeme), ls.length ≤ size + 1 →
      (word .constantName ls >>= fun p ↦ separated .colonColon (word .constantName) bound p.2 >>=
        fun q ↦ .ok ((⟨absolute, p.1 :: q.1⟩ : TypeName), q.2)) =
      (word .constantName ls >>= fun p ↦ separated .colonColon (word .constantName) bound' p.2 >>=
        fun q ↦ .ok ((⟨absolute, p.1 :: q.1⟩ : TypeName), q.2)) := by
    intro absolute ls hls
    refine Except.bind_congr_of_ok ?_
    rintro ⟨first, rest⟩ hfirst
    have hrest := (word_reads _).length_lt (by simp) hfirst
    have hleaves := (word_reads .constantName).leavesNoMore size
    dsimp only
    rw [separated_alike (fun _ _ ↦ rfl) hleaves hbound hbound' rest (by omega)]
  intro ls hls
  rw [TypeName.read, TypeName.read]
  cases hsymbol : afterSymbol? .colonColon ls with
  | none => exact hpath false ls hls
  | some behind =>
    have hbehind := length_of_afterSymbol? hsymbol
    exact hpath true behind (by omega)

namespace TypeExpr

section Primary

variable {size bound bound' : ℕ} {primary primary' : Reader TypeExpr}

/-- A type is read alike with its question mark if what is in front of the mark is. -/
theorem readOptional_alike (h : AlikeUpTo size primary primary') :
    AlikeUpTo size (readOptional primary) (readOptional primary') := by
  intro ls hls
  rw [readOptional, readOptional, h ls hls]

variable (hreads : primary.Reads fun t pre ↦ TypeForm.Spells (.primary t) (pre.map Lexeme.kind))
include hreads

theorem readUnion_alike (h : AlikeUpTo size primary primary') (hbound : size ≤ bound)
    (hbound' : size ≤ bound') :
    AlikeUpTo size (readUnion primary bound) (readUnion primary' bound') := by
  intro ls hls
  rw [readUnion, readUnion, ← readOptional_alike h ls hls]
  refine Except.bind_congr_of_ok ?_
  rintro ⟨first, rest⟩ hfirst
  have hrest := (readOptional_reads hreads).length_le hfirst
  have hleaves := (readOptional_reads hreads).leavesNoMore size
  dsimp only
  rw [separated_alike (readOptional_alike h) hleaves hbound hbound' rest (by omega)]

theorem readArgs_alike (h : AlikeUpTo size primary primary') (hbound : size ≤ bound)
    (hbound' : size ≤ bound') :
    AlikeUpTo size (readArgs primary bound) (readArgs primary' bound') := by
  intro ls hls
  rw [readArgs, readArgs]
  cases hsymbol : afterSymbol? .leftBracket ls with
  | none => rfl
  | some behind =>
    have hbehind := length_of_afterSymbol? hsymbol
    have hunion := readUnion_alike hreads h hbound hbound'
    dsimp only
    rw [← hunion behind (by omega)]
    refine Except.bind_congr_of_ok ?_
    rintro ⟨first, rest⟩ hfirst
    have hrest := (readUnion_reads hreads bound).length_le hfirst
    have hleaves := (readUnion_reads hreads bound).leavesNoMore size
    dsimp only
    rw [separated_alike hunion hleaves hbound hbound' rest (by omega)]

/-- A name is read before its arguments, so the readers of these need to be alike on fewer lexemes.
-/
theorem readNamed_alike (h : AlikeUpTo size primary primary') (hbound : size ≤ bound)
    (hbound' : size ≤ bound') :
    AlikeUpTo (size + 1) (readNamed primary bound) (readNamed primary' bound') := by
  intro ls hls
  rw [readNamed, readNamed, ← TypeName.read_alike hbound hbound' ls hls]
  refine Except.bind_congr_of_ok ?_
  rintro ⟨name, rest⟩ hname
  have hrest := (TypeName.read_reads bound).length_lt (fun name h ↦ ?_) hname
  · dsimp only
    rw [readArgs_alike hreads h hbound hbound' rest (by omega)]
  · have hpos := TypeName.length_kinds_pos h.1
    rw [← h.2] at hpos
    exact absurd hpos (Nat.lt_irrefl 0)

end Primary

/-! ### Recursion -/

/-- What the reader of primary types does with `primary` in place of itself, and with a bound for
the repetitions. -/
def readPrimaryWith (primary : Reader TypeExpr) (bound : ℕ) : Reader TypeExpr := fun ls ↦
  match ls with
  | { kind := .symbol .leftParen, .. } :: inner => do
    let (t, inner) ← readUnion primary bound inner
    let outer ← symbol .rightParen .closingParen inner
    return (t, outer)
  | { kind := .word text, .. } :: after =>
    match BaseType.ofKeyword? text with
    | some b => .ok (base b, after)
    | none => readNamed primary bound ls
  | { kind := .symbol .colonColon, .. } :: _ => readNamed primary bound ls
  | _ => unexpected .type ls

theorem readPrimary_succ (bound : ℕ) :
    readPrimary (bound + 1) = readPrimaryWith (readPrimary bound) bound := by
  funext ls
  rw [readPrimary.eq_def]
  rfl

theorem readPrimary_nil (bound : ℕ) : readPrimary bound [] = unexpected .type [] := by
  cases bound <;> rfl

/-- A type is read alike on one lexeme more than the types in it, since its name or its bracket is
taken first. -/
theorem readPrimaryWith_alike {size bound bound' : ℕ} {primary primary' : Reader TypeExpr}
    (hreads : primary.Reads fun t pre ↦ TypeForm.Spells (.primary t) (pre.map Lexeme.kind))
    (h : AlikeUpTo size primary primary') (hbound : size ≤ bound) (hbound' : size ≤ bound') :
    AlikeUpTo (size + 1) (readPrimaryWith primary bound) (readPrimaryWith primary' bound') := by
  intro ls hls
  have hnamed := readNamed_alike hreads h hbound hbound' ls hls
  rcases ls with - | ⟨⟨kind, _, _, _, _, _⟩, behind⟩
  · rfl
  · cases kind with
    | word text =>
      rw [readPrimaryWith, readPrimaryWith]
      cases BaseType.ofKeyword? text with
      | some b => rfl
      | none => exact hnamed
    | symbol s =>
      cases s with
      | leftParen =>
        rw [readPrimaryWith, readPrimaryWith, ← readUnion_alike hreads h hbound hbound' behind
          (Nat.le_of_succ_le_succ hls)]
      | colonColon => exact hnamed
      | _ => rfl
    | _ => rfl

/-- A type with nothing behind it is read alike under all bounds that its lexemes do not exceed. -/
theorem readPrimary_alike {size bound bound' : ℕ} (hbound : size ≤ bound)
    (hbound' : size ≤ bound') : AlikeUpTo size (readPrimary bound) (readPrimary bound') := by
  refine alike_of_step (fun _ : Unit ↦ readPrimary) (fun _ ↦ readPrimary) (fun _ _ _ ↦ ?_)
    (fun _ bound bound' _ ih hbound hbound' _ ↦ ?_) hbound hbound' ()
  · rw [readPrimary_nil, readPrimary_nil]
  · rw [readPrimary_succ, readPrimary_succ]
    exact readPrimaryWith_alike (readPrimary_reads bound) (ih ()) hbound hbound'

/-- What the reader of primary types does with `primary` in place of itself, where the repetitions
go on as long as they can. -/
def readPrimaryCalling (primary : Reader TypeExpr) : Reader TypeExpr := fun ls ↦
  readPrimaryWith primary ls.length ls

/-- Such a type calls the readers of types on fewer lexemes only. -/
theorem readPrimaryCalling_alike {size : ℕ} {primary : Reader TypeExpr}
    (h : AlikeUpTo size (readPrimary size) primary) :
    AlikeUpTo (size + 1) (readPrimary (size + 1)) (readPrimaryCalling primary) := by
  intro ls hls
  rw [readPrimary_succ, readPrimaryCalling]
  have hsmaller : AlikeUpTo (ls.length - 1) (readPrimary size) primary := h.mono (by omega)
  exact readPrimaryWith_alike (readPrimary_reads size) hsmaller (by omega) (by omega) ls (by omega)

/-- A type is not nested deeper than it has lexemes. -/
theorem readPrimary_ends {bound : ℕ} {ls : List Lexeme} (hbound : ls.length ≤ bound) :
    EndsWithin readPrimaryCalling (ls.length + 1) (· ls) (readPrimary bound ls) := by
  refine ends_of_step readPrimaryCalling (fun size ↦ AlikeUpTo size (readPrimary size))
    (fun _ ↦ alikeUpTo_zero rfl) (fun _ _ _ h ↦ readPrimaryCalling_alike h) (fun _ _ h ↦ h) ?_
  exact readPrimary_alike hbound (Nat.le_refl _) ls (Nat.le_refl _)

/-- A type is read alike under all bounds that its lexemes do not exceed. -/
theorem read_alike {size bound bound' : ℕ} (hbound : size ≤ bound) (hbound' : size ≤ bound') :
    AlikeUpTo size (read bound) (read bound') :=
  readUnion_alike (readPrimary_reads bound) (readPrimary_alike hbound hbound') hbound hbound'

end TypeExpr

/-- The name of a class is read alike with its arguments under such bounds. -/
theorem ClassType.read_alike {size bound bound' : ℕ} (hbound : size ≤ bound)
    (hbound' : size ≤ bound') :
    AlikeUpTo size (ClassType.read bound) (ClassType.read bound') := by
  intro ls hls
  have hname := (TypeName.read_alike hbound hbound').mono (Nat.le_succ size)
  have hargs := TypeExpr.readArgs_alike (TypeExpr.readPrimary_reads bound)
    (TypeExpr.readPrimary_alike hbound hbound') hbound hbound'
  rw [ClassType.read, ClassType.read, ← hname ls hls]
  refine Except.bind_congr_of_ok ?_
  rintro ⟨name, rest⟩ hread
  have hrest := (TypeName.read_reads bound).length_le hread
  dsimp only
  rw [hargs rest (by omega)]

end ModelSignatures
