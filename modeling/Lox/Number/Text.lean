/-
# Numbers as text

A number is written with the fewest digits that name it, always positionally
and never with an exponent: `1000000`, `0.5`, `-0`.  Read are such texts and
more: an exponent, a leading sign, a point with digits on one side only, and
the words `inf`, `infinity` and `nan` in any case.
-/
import Lox.Number.Nearest

namespace Lox.Number

/-! ## Writing -/

/-- A run of zeros. -/
def zeros (n : Nat) : String := String.ofList (List.replicate n '0')

/-- A decimal written positionally. -/
def Decimal.text (x : Decimal) : String :=
  let ds := Nat.toDigits 10 x.coefficient
  let places := (-x.exponent).toNat
  if 0 ≤ x.exponent then String.ofList ds ++ zeros x.exponent.toNat
  else if places < ds.length then
    String.ofList (ds.take (ds.length - places)) ++ "." ++
      String.ofList (ds.drop (ds.length - places))
  else "0." ++ zeros (places - ds.length) ++ String.ofList ds

/-- The text of a size. -/
def Magnitude.text : Magnitude → String
  | .finite m e => (shortest m e).text
  | .infinite => "inf"
  | .nan => "NaN"

/-- The text of a number's parts; what is no number has no sign. -/
def Parts.text (p : Parts) : String :=
  if p.negative && p.magnitude ≠ .nan then "-" ++ p.magnitude.text else p.magnitude.text

/-- The text of a number. -/
def text (x : Float) : String := (parts x).text

/-! ## Reading -/

/-- The number that a list of digits writes. -/
def ofDigits (ds : List Char) : Nat :=
  ds.foldl (fun n c => n * 10 + (c.toNat - '0'.toNat)) 0

/-- Removes a sign from the front; true for a minus. -/
def splitSign : List Char → Bool × List Char
  | '-' :: cs => (true, cs)
  | '+' :: cs => (false, cs)
  | cs => (false, cs)

/-- Reads an exponent, which ends the text: nothing at all, or an `e` with a
sign at will and at least one digit. -/
def exponent? : List Char → Option Int
  | [] => some 0
  | c :: cs =>
    if c = 'e' ∨ c = 'E' then
      let (negative, ds) := splitSign cs
      if ds ≠ [] ∧ ds.all Char.isDigit then
        some (if negative then -(ofDigits ds : Int) else ofDigits ds)
      else none
    else none

/-- Splits off the digits after a point, if there is a point. -/
def splitPlaces : List Char → List Char × List Char
  | '.' :: cs => cs.span Char.isDigit
  | cs => ([], cs)

/-- Reads an unsigned decimal: digits with a point at will, at least one digit
in all, and an exponent at will. -/
def decimal? (cs : List Char) : Option Decimal :=
  let (whole, rest) := cs.span Char.isDigit
  let (places, rest) := splitPlaces rest
  if whole = [] ∧ places = [] then none
  else (exponent? rest).map fun e => ⟨ofDigits (whole ++ places), e - places.length⟩

/-- The bits of the words for sizes that are no decimals. -/
def wordBits? (cs : List Char) : Option Nat :=
  let word := String.ofList (cs.map Char.toLower)
  if word = "inf" ∨ word = "infinity" then some infinityBits
  else if word = "nan" then some (infinityBits + Nat.pow 2 51)
  else none

/-- The bits of an unsigned number. -/
def unsignedBits? (cs : List Char) : Option Nat :=
  match decimal? cs with
  | some x => some x.nearestBits
  | none => wordBits? cs

/-- Reads a number. -/
def ofText? (s : String) : Option Float :=
  let (negative, cs) := splitSign s.toList
  (unsignedBits? cs).map fun bits =>
    Float.ofBits (UInt64.ofNat (if negative then Nat.pow 2 63 + bits else bits))

end Lox.Number
