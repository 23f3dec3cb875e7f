/-!
# Prefixes

What is left of a text behind a given beginning.
-/

namespace ModelSignatures

/-- The characters behind the first text, if the second text begins with it. -/
def afterPrefix? : List Char → List Char → Option (List Char)
  | [], cs => some cs
  | _ :: _, [] => none
  | p :: ps, c :: cs => if p = c then afterPrefix? ps cs else none

theorem afterPrefix?_eq_some_iff {ps cs rest : List Char} :
    afterPrefix? ps cs = some rest ↔ cs = ps ++ rest := by
  fun_induction afterPrefix? ps cs with
  | case1 => simp
  | case2 => simp
  | case3 p ps cs ih => simp [ih]
  | case4 p ps c cs hne => simp [Ne.symm hne]

end ModelSignatures
