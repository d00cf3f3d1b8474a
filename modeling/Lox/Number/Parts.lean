/-
# The parts of a double

A double of 64 bits is a sign, eleven bits of exponent and fifty-two bits of
fraction.  `parts` reads them as an exact value: a whole number times a power
of two, or an infinity, or no number at all.  Everything else in this folder
is exact arithmetic on such values.
-/

namespace Lox.Number

/-- The size of a double. -/
inductive Magnitude where
  /-- The value `mantissa * 2 ^ exponent`. -/
  | finite (mantissa : Nat) (exponent : Int)
  | infinite
  | nan
deriving DecidableEq, Repr

/-- The sign of a double and its size. -/
structure Parts where
  negative : Bool
  magnitude : Magnitude
deriving DecidableEq, Repr

/-- The lowest exponent, that of the numbers next to zero. -/
def lowestExponent : Int := -1074

/-- The parts that a pattern of 64 bits stands for. -/
def partsOfBits (bits : Nat) : Parts :=
  let negative := bits / Nat.pow 2 63 % 2 = 1
  let field := bits / Nat.pow 2 52 % Nat.pow 2 11
  let fraction := bits % Nat.pow 2 52
  if field = 2047 then
    ⟨negative, if fraction = 0 then .infinite else .nan⟩
  else if field = 0 then ⟨negative, .finite fraction lowestExponent⟩
  else ⟨negative, .finite (Nat.pow 2 52 + fraction) (lowestExponent + (field - 1 : Nat))⟩

/-- The parts of a double. -/
def parts (x : Float) : Parts := partsOfBits x.toBits.toNat

/-- The whole number that a double is, if it is one; both zeros are zero. -/
def toInt? (x : Float) : Option Int :=
  let p := parts x
  match p.magnitude with
  | .finite m e =>
    let size : Option Nat :=
      if 0 ≤ e then some (m * Nat.pow 2 e.toNat)
      else if m % Nat.pow 2 (-e).toNat = 0 then some (m / Nat.pow 2 (-e).toNat)
      else none
    size.map fun n => if p.negative then -(n : Int) else n
  | _ => none

end Lox.Number
