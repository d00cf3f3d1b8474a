/-
# Scopes as the text shows them

A static scope holds the names declared so far in a block, a function, a module
or the program, each with two marks: whether its declaration is complete, and
whether it may be assigned to.  Scopes nest; the innermost comes first.  The
distance of a name is the number of scopes between its use and the innermost
scope that holds it.
-/
import Lox.Table
import Lox.Diagnostic

namespace Lox

/-- What is known about a declared name. -/
structure Binding where
  defined : Bool
  assignable : Bool
deriving DecidableEq, Repr

/-- The names declared so far in one scope. -/
abbrev StaticScope := Table Binding

/-- Nested scopes, the innermost first. -/
abbrev Scopes := List StaticScope

namespace Scopes

/-- The marks of a name in the innermost scope. -/
def here? (scopes : Scopes) (name : String) : Option Binding :=
  scopes.head?.bind (·.get? name)

/-- The distance of a name and its marks. -/
def find? : Scopes → String → Option (Nat × Binding)
  | [], _ => none
  | scope :: outer, name =>
    match scope.get? name with
    | some b => some (0, b)
    | none => (find? outer name).map fun (d, b) => (d + 1, b)

/-- Marks a name in the innermost scope. -/
def mark (scopes : Scopes) (name : String) (b : Binding) : Scopes :=
  match scopes with
  | [] => []
  | scope :: outer => scope.set name b :: outer

/-- Announces a name whose declaration is not complete; a name that the scope
holds already stays as it is. -/
def declare (scopes : Scopes) (name : String) (assignable : Bool) : Scopes :=
  if (scopes.here? name).isSome then scopes else scopes.mark name ⟨false, assignable⟩

/-- Completes the declaration of a name. -/
def define (scopes : Scopes) (name : String) : Scopes :=
  match scopes.here? name with
  | some b => scopes.mark name { b with defined := true }
  | none => scopes

/-- Announces a name and completes its declaration at once. -/
def introduce (scopes : Scopes) (name : String) (assignable : Bool) : Scopes :=
  (scopes.declare name assignable).define name

/-- A scope that holds one complete name that cannot be assigned to. -/
def implicit (name : String) : StaticScope := [(name, ⟨true, false⟩)]

end Scopes

/-! ## Violations -/

/-- What a well-formed program does not do. -/
inductive Violation where
  | redeclaration
  | readInOwnInitializer
  | assignmentToReadOnly
  | returnAtTopLevel
  | valueFromInitializer
  | breakOutsideLoop
  | continueOutsideLoop
  | selfInheritance
  | thisOutsideClass
  | superOutsideClass
  | superWithoutSuperclass
deriving DecidableEq, Repr

/-- A violation and the token to blame. -/
structure ScopeError where
  violation : Violation
  token : Token
deriving DecidableEq, Repr

/-- The wording of a violation. -/
def ScopeError.message (e : ScopeError) : String :=
  match e.violation with
  | .redeclaration => "Symbol '" ++ e.token.lexeme ++ "' is already declared in this scope."
  | .readInOwnInitializer => "Can't read local variable in its own initializer."
  | .assignmentToReadOnly => "Can't assign to read-only binding '" ++ e.token.lexeme ++ "'."
  | .returnAtTopLevel => "Can't return from top-level code."
  | .valueFromInitializer => "Can't return a value from an initializer."
  | .breakOutsideLoop => "Can't use 'break' outside of a loop."
  | .continueOutsideLoop => "Can't use 'continue' outside of a loop."
  | .selfInheritance => "A class can't inherit from itself."
  | .thisOutsideClass => "Can't use 'this' outside of a class."
  | .superOutsideClass => "Can't use 'super' outside of a class."
  | .superWithoutSuperclass => "Can't use 'super' in a class with no superclass."

/-- The message as it is shown. -/
def ScopeError.text (e : ScopeError) : String :=
  Diagnostic.located .resolve e.token e.message

end Lox
