/-
# The fewest digits that name a double

Among the decimals that lie in the interval of reals nearest to a double,
`shortest` takes one with the fewest digits, and of those the one nearest to
the double; if two are equally near, the larger.  The search goes through the
grids of multiples of `10 ^ k`, coarse ones first, and looks at the two
neighbours of the double on each.  If any point of a grid lies in the interval,
so does one of the two neighbours; hence the first grid with a hit is the
coarsest with one.
-/
import Lox.Number.Parts

namespace Lox.Number

/-- The decimal `coefficient * 10 ^ exponent`. -/
structure Decimal where
  coefficient : Nat
  exponent : Int
deriving DecidableEq, Repr

/-- A double between the ends of the interval of reals that are nearest to it,
all three over the same denominator; `closed` says that the ends belong to the
interval. -/
structure Interval where
  low : Nat
  value : Nat
  high : Nat
  denominator : Nat
  closed : Bool
deriving Repr

namespace Interval

/-- The interval of the double `m * 2 ^ e`, for `m` not zero.  The gap below a
power of two is half the gap above it, except at the lowest exponent.  The
ends round to the double exactly when its mantissa is even. -/
def around (m : Nat) (e : Int) : Interval :=
  let below := if m = Nat.pow 2 52 ∧ e ≠ lowestExponent then 1 else 2
  let up := Nat.pow 2 e.toNat
  ⟨(4 * m - below) * up, 4 * m * up, (4 * m + 2) * up, 4 * Nat.pow 2 (-e).toNat, m % 2 = 0⟩

/-- The interval in units of `10 ^ k`. -/
def inUnits (i : Interval) (k : Int) : Interval :=
  let up := Nat.pow 10 (-k).toNat
  { i with low := i.low * up, value := i.value * up, high := i.high * up,
           denominator := i.denominator * Nat.pow 10 k.toNat }

/-- Whether the whole number `n` lies in the interval. -/
def holds (i : Interval) (n : Nat) : Bool :=
  let x := n * i.denominator
  if i.closed then i.low ≤ x && x ≤ i.high else i.low < x && x < i.high

/-- The neighbour of the value among the whole numbers that lies in the
interval: the nearer one if both do, the upper one if they are equally near. -/
def neighbour? (i : Interval) : Option Nat :=
  let n := i.value / i.denominator
  let remainder := i.value % i.denominator
  match 0 < n && i.holds n, i.holds (n + 1) with
  | true, true => if 2 * remainder < i.denominator then some n else some (n + 1)
  | true, false => some n
  | false, true => some (n + 1)
  | false, false => none

/-- The first grid from `10 ^ k` downwards, among `tries + 1` grids, on which a
neighbour of the value lies in the interval. -/
def search (i : Interval) (k : Int) : Nat → Decimal
  | 0 => let j := i.inUnits k; ⟨j.value / j.denominator, k⟩
  | tries + 1 =>
    match (i.inUnits k).neighbour? with
    | some n => ⟨n, k⟩
    | none => i.search (k - 1) tries

end Interval

/-- An exponent `k` such that `m * 2 ^ e` is below `10 ^ k`, by at most two
powers of ten. -/
def topExponent (m : Nat) (e : Int) : Int :=
  ((m.log2 : Int) + e + 1) * 30103 / 100000 + 1

/-- The shortest decimal of `m * 2 ^ e`.  Seventeen digits name any double, so
no more than nineteen grids are ever needed. -/
def shortest (m : Nat) (e : Int) : Decimal :=
  if m = 0 then ⟨0, 0⟩ else (Interval.around m e).search (topExponent m e) 24

end Lox.Number
