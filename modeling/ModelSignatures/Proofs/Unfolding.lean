import Mathlib.Logic.Function.Iterate

/-!
# Recursion that comes to an end

A recursive function is given here by its *body*: what it does with some function in place of its
own calls. Unfolded `depth` times, it is left with the calls that are nested as deep, and it comes
to an end without them if nothing that is put in their place can be told from its answer
(`EndsWithin`). A function that calls itself for ever does not meet this, since it answers with what
the call at the end of the unfolding answers with.
-/

namespace ModelSignatures

variable {σ ρ : Type} {body : σ → σ}

/-- Whether a recursive function comes to the `answer` before its calls are nested `depth` deep:
`ask` puts a question to the function that is unfolded as often, and it does not matter what stands
in place of the calls that are left. -/
def EndsWithin (body : σ → σ) (depth : ℕ) (ask : σ → ρ) (answer : ρ) : Prop :=
  ∀ calls : σ, ask (body^[depth] calls) = answer

/-- If a body tells something of questions of size zero, whatever stands in place of the calls, and
of questions one larger than those that it is told it of, then an unfolded function tells it of
questions as large as it is unfolded. -/
theorem iterate_of_step (body : σ → σ) (Tells : ℕ → σ → Prop) {size : ℕ}
    (hzero : ∀ calls, Tells 0 (body calls))
    (hstep : ∀ below < size, ∀ calls, Tells below calls → Tells (below + 1) (body calls))
    (calls : σ) : Tells size (body^[size + 1] calls) := by
  induction size with
  | zero => exact hzero calls
  | succ size ih =>
    rw [Function.iterate_succ_apply']
    exact hstep size (Nat.lt_succ_self size) _
      (ih fun below hbelow ↦ hstep below (Nat.lt_succ_of_lt hbelow))

end ModelSignatures
