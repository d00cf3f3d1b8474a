/-
# Syntax trees

Expressions, statements and function declarations.  Every node that can fail
at run time keeps the token to blame.  A name carries its depth: the number of
scopes between its use and the scope that declares it, or nothing for a name
that is looked up among the globals.  `for` has no node; it is a block around a
`whileLoop` with a step.
-/
import Lox.Token

namespace Lox

/-- A value written in the source text. -/
inductive Literal where
  | nil
  | boolean (b : Bool)
  | number (x : Float)
  | string (s : String)

mutual

/-- An expression. -/
inductive Expr where
  | literal (value : Literal)
  | grouping (inner : Expr)
  | unary (operator : Token) (operand : Expr)
  | binary (left : Expr) (operator : Token) (right : Expr)
  | logical (left : Expr) (operator : Token) (right : Expr)
  | variable (name : Token) (depth : Option Nat)
  | assign (name : Token) (value : Expr) (depth : Option Nat)
  | call (callee : Expr) (paren : Token) (arguments : List Expr)
  | get (object : Expr) (name : Token)
  | set (object : Expr) (name : Token) (value : Expr)
  | receiver (keyword : Token) (depth : Option Nat)
  | superMethod (keyword method : Token) (depth : Option Nat)
  | function (declaration : FunctionDecl)
  | array (bracket : Token) (size : Option Expr) (elements : List Expr)
  | index (object : Expr) (bracket : Token) (index : Expr)
  | setIndex (object : Expr) (bracket : Token) (index value : Expr)

/-- A function, method or lambda; only a lambda may have no name. -/
inductive FunctionDecl where
  | mk (keyword : Token) (name : Option Token) (params : List Token) (body : List Stmt)

/-- A statement. -/
inductive Stmt where
  | print (value : Expr)
  | expression (value : Expr)
  | varDecl (name : Token) (initializer : Option Expr)
  | letDecl (name : Token) (initializer : Expr)
  | block (body : List Stmt)
  | branch (condition : Expr) (onTrue : Stmt) (onFalse : Option Stmt)
  | whileLoop (condition : Expr) (body : Stmt) (step : Option Expr)
  | functionDecl (declaration : FunctionDecl)
  | classDecl (name : Token) (superclass : Option Expr) (methods : List FunctionDecl)
  | returnWith (keyword : Token) (value : Option Expr)
  | breakLoop (keyword : Token)
  | continueLoop (keyword : Token)
  | moduleDecl (name : Token) (body : List Stmt)

end

instance : Inhabited Literal := ⟨.nil⟩
instance : Inhabited Expr := ⟨.literal .nil⟩
instance : Inhabited Stmt := ⟨.block []⟩

/-- The name that an expression is, if it is nothing but a name. -/
def Expr.name? : Expr → Option Token
  | .variable name _ => some name
  | _ => none

namespace FunctionDecl

/-- The token that introduces the function: `fun`, or a method's name. -/
def keyword : FunctionDecl → Token
  | mk keyword _ _ _ => keyword

def name : FunctionDecl → Option Token
  | mk _ name _ _ => name

def params : FunctionDecl → List Token
  | mk _ _ params _ => params

def body : FunctionDecl → List Stmt
  | mk _ _ _ body => body

/-- The number of arguments that a call must have. -/
def arity (d : FunctionDecl) : Nat := d.params.length

/-- The name without its place. -/
def lexeme? (d : FunctionDecl) : Option String := d.name.map Token.lexeme

/-- The name of the method that initialises an instance. -/
def initializerName : String := "init"

/-- Whether, as a method, this is the initializer. -/
def isInitializer (d : FunctionDecl) : Bool := d.lexeme? == some initializerName

end FunctionDecl

end Lox
