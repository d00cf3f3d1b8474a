/-
# Values

Scalars and strings are themselves.  Everything else has an identity: two
functions, classes, instances, arrays or modules are equal only if they are the
same one.  Functions and classes never change, so a value holds them whole,
with a number that no other has; environments, instances and arrays do change,
so a value holds the number under which the store keeps them.
-/
import Lox.Syntax
import Lox.Table

namespace Lox

/-- The number under which the store keeps an environment. -/
abbrev EnvironmentId := Nat

/-- The number under which the store keeps an instance's fields. -/
abbrev InstanceId := Nat

/-- The number under which the store keeps an array's elements. -/
abbrev ArrayId := Nat

/-- A function together with the environment that it was made in. -/
structure Closure where
  identity : Nat
  declaration : FunctionDecl
  environment : EnvironmentId
  isInitializer : Bool

/-- A class, its superclass and its own methods. -/
inductive Class where
  | mk (identity : Nat) (name : Token) (superclass : Option Class) (methods : Table Closure)

namespace Class

def identity : Class → Nat
  | mk identity _ _ _ => identity

/-- The name token of the declaration. -/
def name : Class → Token
  | mk _ name _ _ => name

def superclass : Class → Option Class
  | mk _ _ superclass _ => superclass

/-- The methods of this class alone. -/
def methods : Class → Table Closure
  | mk _ _ _ methods => methods

/-- The method of this class or, failing that, of the nearest class above. -/
def findMethod? : Class → String → Option Closure
  | mk _ _ superclass methods, name =>
    match methods.get? name with
    | some m => some m
    | none =>
      match superclass with
      | some above => above.findMethod? name
      | none => none

end Class

/-- The functions that every program finds among its globals. -/
inductive Native where
  | clock
  | len
deriving DecidableEq, Repr

namespace Native

/-- All native functions. -/
def all : List Native := [clock, len]

def name : Native → String
  | clock => "clock"
  | len => "len"

/-- The number of arguments that a call must have. -/
def arity : Native → Nat
  | clock => 0
  | len => 1

/-- The native function of a name. -/
def ofName? (name : String) : Option Native := all.find? (·.name = name)

end Native

/-- What a clock says: the time in seconds, or what is wrong with it. -/
inductive ClockReading where
  | seconds (x : Float)
  | wrong (what : String)

instance (n : Nat) : OfNat ClockReading n := ⟨.seconds (OfNat.ofNat n)⟩

/-- What can be called. -/
inductive Callable where
  | function (f : Closure)
  | class (c : Class)
  | native (n : Native)

namespace Callable

/-- The number of arguments that a call must have; a class takes those of its
initializer. -/
def arity : Callable → Nat
  | function f => f.declaration.arity
  | .class c =>
    match c.findMethod? FunctionDecl.initializerName with
    | some init => init.declaration.arity
    | none => 0
  | native n => n.arity

/-- Whether two callables are the same one. -/
def same : Callable → Callable → Bool
  | function f, function g => f.identity == g.identity
  | .class c, .class d => c.identity == d.identity
  | native m, native n => m == n
  | _, _ => false

end Callable

/-- An instance: its class, and where its fields are kept. -/
structure Instance where
  id : InstanceId
  ofClass : Class

/-- A module: its name, and the environment that holds its members. -/
structure Module where
  name : String
  environment : EnvironmentId

/-- A value of a running program. -/
inductive Value where
  | nil
  | boolean (b : Bool)
  | number (x : Float)
  | string (s : String)
  | callable (c : Callable)
  | instance (i : Instance)
  | array (a : ArrayId)
  | module (m : Module)

instance : Inhabited Value := ⟨.nil⟩

namespace Value

/-- Everything but `nil` and `false` counts as true. -/
def isTruthy : Value → Bool
  | nil => false
  | boolean b => b
  | _ => true

/-- The name of a value's type. -/
def typeName : Value → String
  | nil => "nil"
  | boolean _ => "boolean"
  | number _ => "number"
  | string _ => "string"
  | callable _ => "callable"
  | .instance _ => "instance"
  | array _ => "array"
  | .module _ => "module"

/-- Equality as programs see it: scalars and strings by content, everything
else by identity, and never across types.  A number that is not a number
differs from itself. -/
def equals : Value → Value → Bool
  | nil, nil => true
  | boolean a, boolean b => a == b
  | number x, number y => x == y
  | string s, string t => s == t
  | callable c, callable d => c.same d
  | .instance i, .instance j => i.id == j.id
  | array a, array b => a == b
  | .module m, .module n => m.environment == n.environment
  | _, _ => false

/-- The value of a literal. -/
def ofLiteral : Literal → Value
  | .nil => nil
  | .boolean b => boolean b
  | .number x => number x
  | .string s => string s

end Value

end Lox
