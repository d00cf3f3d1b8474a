/-
# Operators, indexes and native functions

What needs the values at hand and nothing else: the unary and binary
operators, the checks on array sizes and indexes, and the native functions.
Faults of operators and checks blame the token they are given.
-/
import Lox.Display

namespace Lox

/-- The fault of an operator that no rule covers. -/
def unknownOperator (op : Token) : RuntimeError := .blaming op (.unknownOperator op.lexeme)

/-- Applies a unary operator. -/
def applyUnary (op : Token) (v : Value) : Except RuntimeError Value :=
  match op.kind with
  | .bang => .ok (.boolean (!v.isTruthy))
  | .minus =>
    match v with
    | .number x => .ok (.number (-x))
    | _ => .error (.blaming op .operandNotANumber)
  | _ => .error (unknownOperator op)

/-- The sum of two numbers, or two strings one after the other. -/
def applyPlus (op : Token) : Value → Value → Except RuntimeError Value
  | .number x, .number y => .ok (.number (x + y))
  | .string s, .string t => .ok (.string (s ++ t))
  | _, _ => .error (.blaming op .operandsNotAddable)

/-- Applies an operator that is for numbers alone. -/
def applyNumeric (op : Token) (x y : Float) : Except RuntimeError Value :=
  match op.kind with
  | .minus => .ok (.number (x - y))
  | .star => .ok (.number (x * y))
  | .slash => .ok (.number (x / y))
  | .greater => .ok (.boolean (y < x))
  | .greaterEqual => .ok (.boolean (y ≤ x))
  | .less => .ok (.boolean (x < y))
  | .lessEqual => .ok (.boolean (x ≤ y))
  | _ => .error (unknownOperator op)

/-- Applies a binary operator. -/
def applyBinary (op : Token) (left right : Value) : Except RuntimeError Value :=
  match op.kind with
  | .equalEqual => .ok (.boolean (left.equals right))
  | .bangEqual => .ok (.boolean (!left.equals right))
  | .plus => applyPlus op left right
  | _ =>
    match left, right with
    | .number x, .number y => applyNumeric op x y
    | _, _ => .error (.blaming op .operandsNotNumbers)

/-- Whether `and` and `or` have their value after the left operand. -/
def decidedBy (op : Token) (left : Value) : Bool :=
  match op.kind with
  | .kwOr => left.isTruthy
  | .kwAnd => !left.isTruthy
  | _ => false

/-! ## Sizes and indexes -/

/-- The largest size of an array. -/
def maxArraySize : Nat := 16777216

/-- A whole number, with the number it was given as. -/
def wholeNumber (what : String) (v : Value) (site : Token) :
    Except RuntimeError (Float × Int) :=
  match v with
  | .number x =>
    match Number.toInt? x with
    | some n => .ok (x, n)
    | none => .error (.blaming site (.notAnInteger what))
  | _ => .error (.blaming site (.notANumber what))

/-- The size that an array is declared with. -/
def arraySize (v : Value) (bracket : Token) : Except RuntimeError Nat :=
  match wholeNumber "Array size" v bracket with
  | .error e => .error e
  | .ok (_, n) =>
    if n < 0 then .error (.blaming bracket .negativeSize)
    else if maxArraySize < n then .error (.blaming bracket .sizeTooLarge)
    else .ok n.toNat

/-- The elements of an array: as many as the size says, `nil` after those that
are given. -/
def arrayElements (size : Option Nat) (given : List Value) (bracket : Token) :
    Except RuntimeError (Array Value) :=
  match size with
  | none => .ok given.toArray
  | some n =>
    if n < given.length then .error (.blaming bracket (.tooManyElements n given.length))
    else .ok (given.toArray ++ Array.replicate (n - given.length) .nil)

/-- The array that a value is. -/
def asArray (v : Value) (bracket : Token) : Except RuntimeError ArrayId :=
  match v with
  | .array a => .ok a
  | _ => .error (.blaming bracket (.notIndexable v.typeName))

/-- The index that a value is, for an array of the length `length`. -/
def asIndex (v : Value) (length : Nat) (bracket : Token) : Except RuntimeError Nat :=
  match wholeNumber "Index" v bracket with
  | .error e => .error e
  | .ok (x, n) =>
    if n < 0 ∨ length ≤ n then .error (.blaming bracket (.outOfBounds x length))
    else .ok n.toNat

/-! ## Native functions -/

/-- The length of an array or a string; further arguments are ignored. -/
def Store.lengthOf (s : Store) : List Value → Except Fault Value
  | .array a :: _ => .ok (.number (Float.ofNat (s.length a)))
  | .string t :: _ => .ok (.number (Float.ofNat t.length))
  | v :: _ => .error (.lengthOf v.typeName)
  | [] => .error .lengthOfNothing

/-- What a clock that was read tells a program. -/
def ClockReading.value : ClockReading → Except Fault Value
  | seconds x => .ok (.number x)
  | wrong what => .error (.clockWrong what)

/-- Applies a native function, `now` being what the clock says. -/
def Native.apply (now : ClockReading) (s : Store) (arguments : List Value) :
    Native → Except Fault Value
  | clock => now.value
  | len => s.lengthOf arguments

end Lox
