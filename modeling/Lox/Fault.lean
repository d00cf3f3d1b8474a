/-
# What can go wrong in a running program

A fault is the cause of a runtime error, `Fault.message` its wording.  A
runtime error is a fault with the token to blame; faults of native functions
and of the output have none until the call that they happen in gives them its
own.
-/
import Lox.Diagnostic
import Lox.Number.Text

namespace Lox

/-- The causes of runtime errors. -/
inductive Fault where
  | undefinedSymbol (name : String)
  | alreadyDefined (name : String)
  | noScopeAt (depth : Nat) (name : String)
  | undefinedProperty (name : String)
  | noProperties
  | readOnly (name : String)
  | notCallable
  | wrongArity (expected given : Nat)
  | stackOverflow
  | superclassNotAClass
  | unresolvedSuper
  | receiverNotAnInstance
  | operandNotANumber
  | operandsNotNumbers
  | operandsNotAddable
  | unknownOperator (lexeme : String)
  | notAnInteger (what : String)
  | notANumber (what : String)
  | negativeSize
  | sizeTooLarge
  | tooManyElements (size given : Nat)
  | notIndexable (typeName : String)
  | outOfBounds (index : Float) (length : Nat)
  | lengthOf (typeName : String)
  | lengthOfNothing
  | clockWrong (what : String)
  | notWritten (reason : String)
  | escaped (what : String)

/-- The wording of a fault. -/
def Fault.message : Fault → String
  | undefinedSymbol name => "'" ++ name ++ "' is an undefined symbol."
  | alreadyDefined name => "Symbol '" ++ name ++ "' is already defined in this scope."
  | noScopeAt depth name =>
    "No enclosing scope at depth " ++ toString depth ++ " for '" ++ name ++ "'."
  | undefinedProperty name => "Undefined property '" ++ name ++ "'."
  | noProperties => "Only instances and modules have properties."
  | readOnly name => "Can't assign to read-only binding '" ++ name ++ "'."
  | notCallable => "Can only call functions and classes."
  | wrongArity expected given =>
    "Expected " ++ toString expected ++ " arguments but got " ++ toString given ++ "."
  | stackOverflow => "Stack overflow."
  | superclassNotAClass => "Superclass must be a class."
  | unresolvedSuper => "Unresolved 'super'."
  | receiverNotAnInstance => "'this' is not an instance."
  | operandNotANumber => "Operand must be a number."
  | operandsNotNumbers => "Operands must be numbers."
  | operandsNotAddable => "Operands must be two numbers or two strings."
  | unknownOperator lexeme => "Unknown operator '" ++ lexeme ++ "'."
  | notAnInteger what => what ++ " must be an integer."
  | notANumber what => what ++ " must be a number."
  | negativeSize => "Array size must not be negative."
  | sizeTooLarge => "Array size is too large."
  | tooManyElements size given =>
    "Array of size " ++ toString size ++ " cannot hold " ++ toString given ++ " initializers."
  | notIndexable typeName => "Can only index arrays, not " ++ typeName ++ "."
  | outOfBounds index length =>
    "Index " ++ Number.text index ++ " is out of bounds for array of length " ++
      toString length ++ "."
  | lengthOf typeName => "len() expects an array or a string, got " ++ typeName ++ "."
  | lengthOfNothing => "len() expects one argument."
  | clockWrong what => "Clock error: " ++ what
  | notWritten reason => "Failed to write output: " ++ reason ++ "."
  | escaped what => what

/-- A fault and the token to blame, if there is one. -/
structure RuntimeError where
  fault : Fault
  token : Option Token

namespace RuntimeError

/-- A fault at a token. -/
def blaming (token : Token) (fault : Fault) : RuntimeError := ⟨fault, some token⟩

/-- A fault without a place. -/
def unplaced (fault : Fault) : RuntimeError := ⟨fault, none⟩

/-- Blames `token` if nothing is blamed yet. -/
def orAt (e : RuntimeError) (token : Token) : RuntimeError :=
  match e.token with
  | some _ => e
  | none => { e with token := some token }

/-- The message as it is shown. -/
def text (e : RuntimeError) : String := Diagnostic.text .runtime e.token e.fault.message

end RuntimeError

end Lox
