/-!
# Numbers that fit a double

A number is refused when it is so large that the nearest double is infinite. The text of a number is
taken as a significand and a power of ten: of its digits those count that fit into 64 bits, and the
two factors are rounded before they are multiplied.
-/

namespace ModelSignatures

namespace Numeral

/-- The natural number of the digits, as far as they fit into 64 bits, and how many of them do. -/
def significand (value count : Nat) : List Char → Nat × Nat
  | [] => (value, count)
  | digit :: digits =>
    let next := value * 10 + (digit.toNat - '0'.toNat)
    if next < Nat.pow 2 64 then significand next (count + 1) digits else (value, count)

/-- The nearest natural number with 53 significant bits, the even one of two. -/
def roundToDouble (n : Nat) : Nat :=
  let unit := Nat.pow 2 (n.log2 + 1 - 53)
  let quotient := n / unit
  let twice := 2 * (n % unit)
  if unit < twice || (unit == twice && quotient % 2 == 1) then (quotient + 1) * unit
  else quotient * unit

/-- The least natural number that is rounded to infinity. -/
def doubleLimit : Nat := Nat.pow 2 1024 - Nat.pow 2 970

/-- Whether the number with the digits `whole` before the point and `fraction` behind it, times a
power of ten, is finite as a double. -/
def fitsDouble (whole fraction : List Char) (exponent : Int) : Bool :=
  let (value, count) := significand 0 0 (whole ++ fraction)
  let power := exponent + whole.length - count
  if value = 0 || power ≤ 0 then true
  else if 308 < power then false
  else roundToDouble value * roundToDouble (Nat.pow 10 power.toNat) < doubleLimit

end Numeral

end ModelSignatures
