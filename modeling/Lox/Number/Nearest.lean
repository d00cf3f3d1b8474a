/-
# The double nearest to a fraction

`nearestBits` rounds an exact fraction to the nearest double, a tie to the one
whose last bit is zero, and answers with the pattern of bits.  What is too
large becomes infinity, what is too small becomes zero.
-/
import Lox.Number.Shortest

namespace Lox.Number

/-- The bits of positive infinity. -/
def infinityBits : Nat := 2047 * Nat.pow 2 52

/-- The quotient rounded to the nearest whole number, a half to the even
neighbour. -/
def roundDiv (n d : Nat) : Nat :=
  let q := n / d
  let r := n % d
  if 2 * r < d ∨ (2 * r = d ∧ q % 2 = 0) then q else q + 1

/-- The exponent of the double nearest to `n / d`: the one that leaves
fifty-three bits of mantissa, unless it is below the lowest. -/
def exponentOf (n d : Nat) : Int :=
  let guess : Int := n.log2 - d.log2 - 52
  let fits : Bool := d * Nat.pow 2 (guess + 52).toNat ≤ n * Nat.pow 2 (-(guess + 52)).toNat
  max (if fits then guess else guess - 1) lowestExponent

/-- The bits of the double nearest to `n / d`, for `d` not zero. -/
def nearestBits (n d : Nat) : Nat :=
  if n = 0 then 0
  else
    let e := exponentOf n d
    let m := roundDiv (n * Nat.pow 2 (-e).toNat) (d * Nat.pow 2 e.toNat)
    min infinityBits
      (if m < Nat.pow 2 52 then m else (e - lowestExponent).toNat * Nat.pow 2 52 + m)

/-- The bits of the double nearest to a decimal.  Beyond `10 ^ 310` all is
infinite and below `10 ^ -330` all is zero, whatever the digits. -/
def Decimal.nearestBits (x : Decimal) : Nat :=
  let size : Int := (Nat.toDigits 10 x.coefficient).length + x.exponent
  if x.coefficient = 0 then 0
  else if 311 < size then infinityBits
  else if size < -330 then 0
  else
    Number.nearestBits (x.coefficient * Nat.pow 10 x.exponent.toNat)
      (Nat.pow 10 (-x.exponent).toNat)

end Lox.Number
