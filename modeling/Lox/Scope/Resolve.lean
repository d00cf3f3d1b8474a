/-
# Resolving names

`Resolve.program` goes once through a program in the order of its text.  It sets the
depth of every name that a scope holds, leaves every other depth as it is, and
collects the violations.  Expressions read the scopes and never change them; a
statement can only add names to the innermost one.
-/
import Lox.Scope
import Lox.Syntax

namespace Lox

/-- The kind of the innermost function around a place. -/
inductive FunctionKind where
  | none
  | function
  | initializer
  | method
deriving DecidableEq, Repr

/-- The kind of the innermost class around a place. -/
inductive ClassKind where
  | none
  | base
  | derived
deriving DecidableEq, Repr

/-- What surrounds a place of the program, scopes apart. -/
structure Surroundings where
  function : FunctionKind
  inClass : ClassKind
  inLoop : Bool
deriving DecidableEq, Repr

/-- The surroundings of the program itself. -/
def Surroundings.program : Surroundings := ⟨.none, .none, false⟩

/-- The surroundings of a function's body: no loop goes on inside it. -/
def Surroundings.within (s : Surroundings) (kind : FunctionKind) : Surroundings :=
  { s with function := kind, inLoop := false }

/-- What resolving found: how many names in a scope, and the violations. -/
structure Findings where
  references : Nat
  errors : List ScopeError
deriving DecidableEq, Repr

namespace Findings

/-- Nothing found. -/
def nothing : Findings := ⟨0, []⟩

/-- One violation. -/
def violation (v : Violation) (token : Token) : Findings := ⟨0, [⟨v, token⟩]⟩

/-- One violation, if the condition holds. -/
def when (condition : Bool) (v : Violation) (token : Token) : Findings :=
  if condition then violation v token else nothing

/-- What is found first and what is found then. -/
instance : Append Findings := ⟨fun a b => ⟨a.references + b.references, a.errors ++ b.errors⟩⟩

end Findings

/-- Looks up a use of a name: its depth, or `old` where no scope holds it. -/
def Scopes.refer (scopes : Scopes) (name : Token) (old : Option Nat) (assigning : Bool) :
    Option Nat × Findings :=
  match scopes.find? name.lexeme with
  | some (distance, b) =>
    (some distance,
      ⟨1, (Findings.when (assigning && !b.assignable) .assignmentToReadOnly name).errors⟩)
  | none => (old, .nothing)

/-- What is found in declaring a name. -/
def Scopes.redeclared (scopes : Scopes) (name : Token) : Findings :=
  .when (scopes.here? name.lexeme).isSome .redeclaration name

/-- The scopes after the parameters of a function, and what is found in
declaring them. -/
def Scopes.withParams (scopes : Scopes) : List Token → Scopes × Findings
  | [] => (scopes, .nothing)
  | p :: ps =>
    let (scopes', found) := (scopes.introduce p.lexeme true).withParams ps
    (scopes', scopes.redeclared p ++ found)

/-- Whether a method is the initializer. -/
def FunctionDecl.methodKind (d : FunctionDecl) : FunctionKind :=
  if d.isInitializer then .initializer else .method

/-- What is found in a superclass that is nothing but the class's own name. -/
def inheritance (name : Token) (superclass : Expr) : Findings :=
  match superclass.name? with
  | some other => .when (other.lexeme = name.lexeme) .selfInheritance other
  | none => .nothing

/-- What is found at a `return`. -/
def Surroundings.atReturn (s : Surroundings) (keyword : Token) (hasValue : Bool) : Findings :=
  .when (s.function = .none) .returnAtTopLevel keyword ++
  .when (hasValue && s.function = .initializer) .valueFromInitializer keyword

namespace Resolve

mutual

/-- Resolves an expression. -/
def expr (s : Surroundings) (scopes : Scopes) : Expr → Expr × Findings
  | .literal v => (.literal v, .nothing)
  | .grouping e =>
    let (e', f) := expr s scopes e
    (.grouping e', f)
  | .unary op e =>
    let (e', f) := expr s scopes e
    (.unary op e', f)
  | .binary l op r =>
    let (l', f) := expr s scopes l
    let (r', g) := expr s scopes r
    (.binary l' op r', f ++ g)
  | .logical l op r =>
    let (l', f) := expr s scopes l
    let (r', g) := expr s scopes r
    (.logical l' op r', f ++ g)
  | .variable name depth =>
    let unfinished := (scopes.here? name.lexeme).any fun b => !b.defined
    let (depth', f) := scopes.refer name depth false
    (.variable name depth', .when unfinished .readInOwnInitializer name ++ f)
  | .assign name v depth =>
    let (v', f) := expr s scopes v
    let (depth', g) := scopes.refer name depth true
    (.assign name v' depth', f ++ g)
  | .call callee paren arguments =>
    let (callee', f) := expr s scopes callee
    let (arguments', g) := exprs s scopes arguments
    (.call callee' paren arguments', f ++ g)
  | .get object name =>
    let (object', f) := expr s scopes object
    (.get object' name, f)
  | .set object name v =>
    let (v', f) := expr s scopes v
    let (object', g) := expr s scopes object
    (.set object' name v', f ++ g)
  | .receiver keyword depth =>
    match s.inClass with
    | .none => (.receiver keyword depth, .violation .thisOutsideClass keyword)
    | _ =>
      let (depth', f) := scopes.refer keyword depth false
      (.receiver keyword depth', f)
  | .superMethod keyword method depth =>
    match s.inClass with
    | .none => (.superMethod keyword method depth, .violation .superOutsideClass keyword)
    | .base => (.superMethod keyword method depth, .violation .superWithoutSuperclass keyword)
    | .derived =>
      let (depth', f) := scopes.refer keyword depth false
      (.superMethod keyword method depth', f)
  | .function d =>
    let (d', f) := function s (.function)
      (match d.name with
        | some name => Scopes.introduce ([] :: scopes) name.lexeme false
        | none => scopes) d
    (.function d', f)
  | .array bracket size elements =>
    let (size', f) := optionExpr s scopes size
    let (elements', g) := exprs s scopes elements
    (.array bracket size' elements', f ++ g)
  | .index object bracket i =>
    let (object', f) := expr s scopes object
    let (i', g) := expr s scopes i
    (.index object' bracket i', f ++ g)
  | .setIndex object bracket i v =>
    let (object', f) := expr s scopes object
    let (i', g) := expr s scopes i
    let (v', h) := expr s scopes v
    (.setIndex object' bracket i' v', f ++ g ++ h)

/-- Resolves expressions from left to right. -/
def exprs (s : Surroundings) (scopes : Scopes) : List Expr → List Expr × Findings
  | [] => ([], .nothing)
  | e :: es =>
    let (e', f) := expr s scopes e
    let (es', g) := exprs s scopes es
    (e' :: es', f ++ g)

/-- Resolves an expression that may be missing. -/
def optionExpr (s : Surroundings) (scopes : Scopes) : Option Expr → Option Expr × Findings
  | none => (none, .nothing)
  | some e =>
    let (e', f) := expr s scopes e
    (some e', f)

/-- Resolves a function in a scope of its own, which holds its parameters and
what its body declares. -/
def function (s : Surroundings) (kind : FunctionKind) (scopes : Scopes) :
    FunctionDecl → FunctionDecl × Findings
  | .mk keyword name params body =>
    let (scopes', f) := Scopes.withParams ([] :: scopes) params
    let (body', _, g) := stmts (s.within kind) scopes' body
    (.mk keyword name params body', f ++ g)

/-- Resolves methods, each by itself. -/
def methods (s : Surroundings) (scopes : Scopes) :
    List FunctionDecl → List FunctionDecl × Findings
  | [] => ([], .nothing)
  | d :: ds =>
    let (d', f) := function s d.methodKind scopes d
    let (ds', g) := methods s scopes ds
    (d' :: ds', f ++ g)

/-- Resolves a statement, with the scopes that it leaves. -/
def stmt (s : Surroundings) (scopes : Scopes) : Stmt → Stmt × Scopes × Findings
  | .print e =>
    let (e', f) := expr s scopes e
    (.print e', scopes, f)
  | .expression e =>
    let (e', f) := expr s scopes e
    (.expression e', scopes, f)
  | .varDecl name initializer =>
    let declared := scopes.declare name.lexeme true
    let (initializer', f) := optionExpr s declared initializer
    (.varDecl name initializer', declared.define name.lexeme, scopes.redeclared name ++ f)
  | .letDecl name initializer =>
    let declared := scopes.declare name.lexeme false
    let (initializer', f) := expr s declared initializer
    (.letDecl name initializer', declared.define name.lexeme, scopes.redeclared name ++ f)
  | .block body =>
    let (body', _, f) := stmts s ([] :: scopes) body
    (.block body', scopes, f)
  | .branch condition onTrue onFalse =>
    let (condition', f) := expr s scopes condition
    let (onTrue', scopes₁, g) := stmt s scopes onTrue
    let (onFalse', scopes₂, h) := optionStmt s scopes₁ onFalse
    (.branch condition' onTrue' onFalse', scopes₂, f ++ g ++ h)
  | .whileLoop condition body step =>
    let (condition', f) := expr s scopes condition
    let (body', scopes₁, g) := stmt { s with inLoop := true } scopes body
    let (step', h) := optionExpr s scopes₁ step
    (.whileLoop condition' body' step', scopes₁, f ++ g ++ h)
  | .functionDecl d =>
    let (scopes₁, f) : Scopes × Findings :=
      match d.name with
      | some name => (scopes.introduce name.lexeme true, scopes.redeclared name)
      | none => (scopes, .nothing)
    let (d', g) := function s .function scopes₁ d
    (.functionDecl d', scopes₁, f ++ g)
  | .classDecl name none ms =>
    let scopes₁ := scopes.introduce name.lexeme true
    let (ms', f) := methods { s with inClass := .base } (Scopes.implicit "this" :: scopes₁) ms
    (.classDecl name none ms', scopes₁, scopes.redeclared name ++ f)
  | .classDecl name (some superclass) ms =>
    let scopes₁ := scopes.introduce name.lexeme true
    let derived := { s with inClass := .derived }
    let (superclass', f) := expr derived scopes₁ superclass
    let (ms', g) := methods derived
      (Scopes.implicit "this" :: Scopes.implicit "super" :: scopes₁) ms
    (.classDecl name (some superclass') ms', scopes₁,
      scopes.redeclared name ++ inheritance name superclass ++ f ++ g)
  | .returnWith keyword v =>
    let (v', f) := optionExpr s scopes v
    (.returnWith keyword v', scopes, s.atReturn keyword v.isSome ++ f)
  | .breakLoop keyword =>
    (.breakLoop keyword, scopes, .when (!s.inLoop) .breakOutsideLoop keyword)
  | .continueLoop keyword =>
    (.continueLoop keyword, scopes, .when (!s.inLoop) .continueOutsideLoop keyword)
  | .moduleDecl name body =>
    let (body', _, f) := stmts { s with inLoop := false } ([] :: scopes) body
    (.moduleDecl name body', scopes.introduce name.lexeme false, f ++ scopes.redeclared name)

/-- Resolves a statement that may be missing. -/
def optionStmt (s : Surroundings) (scopes : Scopes) :
    Option Stmt → Option Stmt × Scopes × Findings
  | none => (none, scopes, .nothing)
  | some st =>
    let (st', scopes', f) := stmt s scopes st
    (some st', scopes', f)

/-- Resolves statements in order. -/
def stmts (s : Surroundings) (scopes : Scopes) : List Stmt → List Stmt × Scopes × Findings
  | [] => ([], scopes, .nothing)
  | st :: sts =>
    let (st', scopes₁, f) := stmt s scopes st
    let (sts', scopes₂, g) := stmts s scopes₁ sts
    (st' :: sts', scopes₂, f ++ g)

end

/-- Resolves a whole program, whose outermost scope stands for the globals. -/
def program (p : List Stmt) : List Stmt × Findings :=
  let (p', _, f) := stmts .program [[]] p
  (p', f)

end Resolve

end Lox
