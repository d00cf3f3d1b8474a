/-
# Operands that differ in identity only

Operators, sizes and indexes look at scalars and at what kind of value another one is.
So of two operands that differ only in which function, class, instance or module they
are, they make the same: a scalar or a failure.  Equality is the exception, and is assumed
of the operands that it is asked of.
-/
import Lox.Operator
import Mathlib.Tactic.Common

namespace Lox

/-- The same scalar or array, or two functions, instances or modules. -/
inductive Value.Akin : Value → Value → Prop
  | nil : Akin .nil .nil
  | boolean (b : Bool) : Akin (.boolean b) (.boolean b)
  | number (x : Float) : Akin (.number x) (.number x)
  | string (t : String) : Akin (.string t) (.string t)
  | array (a : ArrayId) : Akin (.array a) (.array a)
  | callable (c c' : Callable) : Akin (.callable c) (.callable c')
  | instance (i i' : Instance) : Akin (.instance i) (.instance i')
  | module (m m' : Module) : Akin (.module m) (.module m')

/-- A value without an identity. -/
def Value.Scalar : Value → Prop
  | .nil | .boolean _ | .number _ | .string _ => True
  | _ => False

/-! ## What comes of them -/

section
variable {op : Token} {u v w : Value}

theorem scalar_applyUnary (h : applyUnary op v = .ok w) : w.Scalar := by
  unfold applyUnary at h
  split at h
  · cases h
    trivial
  · split at h <;> cases h
    trivial
  · cases h

theorem scalar_applyNumeric {x y : Float} (h : applyNumeric op x y = .ok w) : w.Scalar := by
  unfold applyNumeric at h
  split at h <;> cases h <;> trivial

theorem scalar_applyBinary (h : applyBinary op u v = .ok w) : w.Scalar := by
  unfold applyBinary at h
  split at h
  · cases h
    trivial
  · cases h
    trivial
  · unfold applyPlus at h
    split at h <;> cases h <;> trivial
  · split at h
    · exact scalar_applyNumeric h
    · cases h

end

/-- What a native function yields is a number. -/
theorem scalar_native {n : Native} {now : ClockReading} {s : Store} {arguments : List Value}
    {v : Value}
    (h : (n.apply now s arguments).mapError RuntimeError.unplaced = .ok v) : v.Scalar := by
  cases n with
  | clock =>
      cases now <;> cases h
      trivial
  | len =>
      simp only [Native.apply, Store.lengthOf] at h
      split at h <;> cases h <;> trivial

namespace Value.Akin

variable {u u' v v' : Value} (hv : v.Akin v')
include hv

theorem isTruthy : v'.isTruthy = v.isTruthy := by
  cases hv <;> rfl

theorem applyUnary (op : Token) : applyUnary op v' = applyUnary op v := by
  unfold Lox.applyUnary
  rw [hv.isTruthy]
  cases hv <;> rfl

theorem applyBinary (op : Token) (hu : u.Akin u') (hequals : u'.equals v' = u.equals v) :
    applyBinary op u' v' = applyBinary op u v := by
  unfold Lox.applyBinary
  rw [hequals]
  cases hu <;> cases hv <;> rfl

theorem decidedBy (op : Token) : decidedBy op v' = decidedBy op v := by
  unfold Lox.decidedBy
  rw [hv.isTruthy]

theorem wholeNumber (what : String) (bracket : Token) :
    wholeNumber what v' bracket = wholeNumber what v bracket := by
  cases hv <;> rfl

theorem arraySize (bracket : Token) : arraySize v' bracket = arraySize v bracket := by
  unfold Lox.arraySize
  rw [hv.wholeNumber]

theorem asIndex (length : Nat) (bracket : Token) :
    asIndex v' length bracket = asIndex v length bracket := by
  unfold Lox.asIndex
  rw [hv.wholeNumber]

theorem asArray (bracket : Token) : asArray v' bracket = asArray v bracket := by
  cases hv <;> rfl

end Value.Akin

end Lox
