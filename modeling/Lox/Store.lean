/-
# The store

The store keeps what changes while a program runs: environments, the fields of
instances and the elements of arrays, each under a number.  Numbers are given
out in order and never again.  An environment may have an enclosing one, and
since that one was there first its number is smaller; this is what ends a walk
outwards along `chain`.

A number that was never given out stands for an empty thing, so that every
operation has an answer.  The operations that can fail are inlined, so that the
test comes first and a store that nobody else holds is then changed in place.
-/
import Lox.Value
import Lox.Fault

namespace Lox

/-- A scope of a running program: its names, which of them are read-only, and
the environment around it. -/
structure Environment where
  bindings : Table Value
  readOnly : List String
  enclosing : Option EnvironmentId

instance : Inhabited Environment := ⟨⟨[], [], none⟩⟩

/-- Everything that changes while a program runs. -/
structure Store where
  environments : Array Environment
  fields : Array (Table Value)
  arrays : Array (Array Value)
  identities : Nat

namespace Store

/-- A store in which nothing has been made. -/
def empty : Store := ⟨#[], #[], #[], 0⟩

/-! ## Environments -/

/-- Makes an environment. -/
def newEnvironment (s : Store) (e : Environment) : EnvironmentId × Store :=
  (s.environments.size, { s with environments := s.environments.push e })

/-- Makes an empty environment inside `e`. -/
def child (s : Store) (e : EnvironmentId) : EnvironmentId × Store :=
  s.newEnvironment ⟨[], [], some e⟩

/-- Makes an environment inside `e` that holds one name. -/
def childWith (s : Store) (e : EnvironmentId) (name : String) (v : Value) :
    EnvironmentId × Store :=
  s.newEnvironment ⟨[(name, v)], [], some e⟩

/-- What is kept of an environment. -/
def environment (s : Store) (e : EnvironmentId) : Environment :=
  s.environments[e]?.getD default

/-- The environment around `e`. -/
def enclosing? (s : Store) (e : EnvironmentId) : Option EnvironmentId :=
  (s.environment e).enclosing

/-- What a name stands for in `e` itself. -/
def getLocal? (s : Store) (e : EnvironmentId) (name : String) : Option Value :=
  (s.environment e).bindings.get? name

/-- Whether `e` itself holds a name. -/
def binds (s : Store) (e : EnvironmentId) (name : String) : Bool :=
  (s.getLocal? e name).isSome

/-- Whether `e` itself holds a name that is read-only. -/
def isReadOnly (s : Store) (e : EnvironmentId) (name : String) : Bool :=
  decide (name ∈ (s.environment e).readOnly)

/-- Lets a name stand for `v` in `e`, whatever it stood for. -/
def put (s : Store) (e : EnvironmentId) (name : String) (v : Value) : Store :=
  { s with environments := s.environments.modify e fun env =>
      { env with bindings := env.bindings.set name v } }

/-- Makes a name of `e` read-only. -/
def protect (s : Store) (e : EnvironmentId) (name : String) : Store :=
  { s with environments := s.environments.modify e fun env =>
      { env with readOnly := env.readOnly.insert name } }

/-- Adds a name to `e`, which must not hold it yet. -/
@[inline] def define (s : Store) (e : EnvironmentId) (name : Token) (v : Value) :
    Except RuntimeError Store :=
  if s.binds e name.lexeme then .error (.blaming name (.alreadyDefined name.lexeme))
  else .ok (s.put e name.lexeme v)

/-- Adds a read-only name to `e`, which must not hold it yet. -/
@[inline] def defineReadOnly (s : Store) (e : EnvironmentId) (name : Token) (v : Value) :
    Except RuntimeError Store :=
  match s.define e name v with
  | .ok s => .ok (s.protect e name.lexeme)
  | .error err => .error err

/-- The environment `e` and those around it, from the inside out. -/
def chain (s : Store) (e : EnvironmentId) : List EnvironmentId :=
  e :: match s.enclosing? e with
    | some p => if p < e then s.chain p else []
    | none => []
termination_by e

/-- The nearest environment, from `e` outwards, that holds a name. -/
def holder? (s : Store) (e : EnvironmentId) (name : String) : Option EnvironmentId :=
  (s.chain e).find? (s.binds · name)

/-- The fault of a name that nothing holds. -/
def undefined (name : Token) : RuntimeError := .blaming name (.undefinedSymbol name.lexeme)

/-- What a name stands for, seen from `e`. -/
def access (s : Store) (e : EnvironmentId) (name : Token) : Except RuntimeError Value :=
  match (s.chain e).findSome? (s.getLocal? · name.lexeme) with
  | some v => .ok v
  | none => .error (undefined name)

/-- Changes what a name stands for, seen from `e`. -/
@[inline] def assign (s : Store) (e : EnvironmentId) (name : Token) (v : Value) :
    Except RuntimeError Store :=
  match s.holder? e name.lexeme with
  | some f => .ok (s.put f name.lexeme v)
  | none => .error (undefined name)

/-- Changes what a name of `e` itself stands for. -/
@[inline] def assignLocal? (s : Store) (e : EnvironmentId) (name : String) (v : Value) :
    Option Store :=
  if s.binds e name then some (s.put e name v) else none

/-- The environment that is `distance` steps outwards from `e`. -/
def ancestor? (s : Store) (e : EnvironmentId) : Nat → Option EnvironmentId
  | 0 => some e
  | distance + 1 =>
    match s.enclosing? e with
    | some p => s.ancestor? p distance
    | none => none

/-- The environment `depth` steps outwards, in which `name` is looked for. -/
@[inline] def scopeAt (s : Store) (e : EnvironmentId) (depth : Nat) (name : Token) :
    Except RuntimeError EnvironmentId :=
  match s.ancestor? e depth with
  | some f => .ok f
  | none => .error (.blaming name (.noScopeAt depth name.lexeme))

/-- What a name stands for in the environment `depth` steps outwards. -/
def accessAt (s : Store) (e : EnvironmentId) (depth : Nat) (name : Token) :
    Except RuntimeError Value :=
  match s.scopeAt e depth name with
  | .error err => .error err
  | .ok f =>
    match s.getLocal? f name.lexeme with
    | some v => .ok v
    | none => .error (undefined name)

/-- Changes what a name stands for in the environment `depth` steps outwards. -/
@[inline] def assignAt (s : Store) (e : EnvironmentId) (depth : Nat) (name : Token) (v : Value) :
    Except RuntimeError Store :=
  match s.scopeAt e depth name with
  | .error err => .error err
  | .ok f =>
    match s.assignLocal? f name.lexeme v with
    | some s' => .ok s'
    | none => .error (undefined name)

/-! ## Identities -/

/-- A number that nothing has been given before. -/
def newIdentity (s : Store) : Nat × Store :=
  (s.identities, { s with identities := s.identities + 1 })

/-- Makes a function in the environment `e`. -/
def newClosure (s : Store) (d : FunctionDecl) (e : EnvironmentId) (isInitializer : Bool) :
    Closure × Store :=
  let (identity, s) := s.newIdentity
  (⟨identity, d, e, isInitializer⟩, s)

/-- The name by which a method knows its instance. -/
def receiverName : String := "this"

/-- Makes a copy of a method that knows its instance, in one more environment
that holds nothing else. -/
def bindMethod (s : Store) (m : Closure) (i : Instance) : Closure × Store :=
  let (e, s) := s.childWith m.environment receiverName (.instance i)
  s.newClosure m.declaration e m.isInitializer

/-! ## Instances -/

/-- Makes an instance without fields. -/
def newInstance (s : Store) (c : Class) : Instance × Store :=
  (⟨s.fields.size, c⟩, { s with fields := s.fields.push [] })

/-- The fields of an instance. -/
def fieldsOf (s : Store) (i : Instance) : Table Value := s.fields[i.id]?.getD []

/-- Sets a field of an instance. -/
def setField (s : Store) (i : Instance) (name : String) (v : Value) : Store :=
  { s with fields := s.fields.modify i.id (·.set name v) }

/-- What a property of an instance is: a field, or a method of its class that
is still to be bound to it. -/
inductive Property where
  | field (v : Value)
  | method (m : Closure)

/-- A property of an instance; fields come before methods. -/
def property? (s : Store) (i : Instance) (name : String) : Option Property :=
  match (s.fieldsOf i).get? name with
  | some v => some (.field v)
  | none => (i.ofClass.findMethod? name).map .method

/-- The value of a property. -/
def valueOf (s : Store) (i : Instance) : Property → Value × Store
  | .field v => (v, s)
  | .method m =>
    let (f, s) := s.bindMethod m i
    (.callable (.function f), s)

/-- The value of a property of an instance, if it has the property. -/
@[inline] def get (s : Store) (i : Instance) (name : Token) :
    Except RuntimeError (Value × Store) :=
  match s.property? i name.lexeme with
  | some p => .ok (s.valueOf i p)
  | none => .error (.blaming name (.undefinedProperty name.lexeme))

/-! ## Arrays -/

/-- Makes an array. -/
def newArray (s : Store) (elements : Array Value) : ArrayId × Store :=
  (s.arrays.size, { s with arrays := s.arrays.push elements })

/-- The elements of an array. -/
def elements (s : Store) (a : ArrayId) : Array Value := s.arrays[a]?.getD #[]

/-- The length of an array. -/
def length (s : Store) (a : ArrayId) : Nat := (s.elements a).size

/-- An element of an array. -/
def element? (s : Store) (a : ArrayId) (i : Nat) : Option Value := (s.elements a)[i]?

/-- Changes an element of an array, if the array has it. -/
@[inline] def setElement? (s : Store) (a : ArrayId) (i : Nat) (v : Value) : Option Store :=
  if i < s.length a then
    some { s with arrays := s.arrays.modify a (·.setIfInBounds i v) }
  else none

end Store

end Lox
