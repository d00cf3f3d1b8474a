/-
# Programs that are alike

Two programs are alike if they differ in their tokens and in the depths of their
names and nowhere else.  What tokens and depths may differ in is a `Likeness`.
Depths may depend on where a name stands: the first argument of the relations
is the number of scopes between a node and the globals, or nothing where that
number is of no interest.

    parsing      tokens that differ alike, no depths      `Proofs.Parse`
    resolving    depths with a global scope more or less  `Proofs.Resolve`
    running      `Proofs.Lockstep`
-/
import Lox.Scope.Resolve
import Mathlib.Data.List.Forall2

namespace Lox

/-- In what alike programs may differ: in tokens, in the names of declarations,
and in depths at a distance from the globals. -/
structure Likeness where
  token : Token → Token → Prop
  name : Token → Token → Prop
  depth : Option Nat → Option Nat → Option Nat → Prop

/-- One scope further inside. -/
def inner (m : Option Nat) : Option Nat := m.map (· + 1)

/-- What is around the body of a lambda, its scope apart: its own name, if it
has one. -/
def FunctionDecl.around (d : FunctionDecl) (m : Option Nat) : Option Nat :=
  match d.name with
  | some _ => inner m
  | none => m

/-- What is around the methods of a class: `this`, and `super` if there is a
superclass. -/
def aroundMethods (superclass : Option Expr) (m : Option Nat) : Option Nat :=
  match superclass with
  | some _ => inner (inner m)
  | none => inner m

section
variable (R : Likeness)

mutual

inductive LikeExpr : Option Nat → Expr → Expr → Prop
  | literal {m} (v : Literal) : LikeExpr m (.literal v) (.literal v)
  | grouping {m e e'} : LikeExpr m e e' → LikeExpr m (.grouping e) (.grouping e')
  | unary {m op op' e e'} : R.token op op' → LikeExpr m e e' →
      LikeExpr m (.unary op e) (.unary op' e')
  | binary {m l l' op op' r r'} : LikeExpr m l l' → R.token op op' → LikeExpr m r r' →
      LikeExpr m (.binary l op r) (.binary l' op' r')
  | logical {m l l' op op' r r'} : LikeExpr m l l' → R.token op op' → LikeExpr m r r' →
      LikeExpr m (.logical l op r) (.logical l' op' r')
  | variable {m n n' d d'} : R.token n n' → R.depth m d d' →
      LikeExpr m (.variable n d) (.variable n' d')
  | assign {m n n' v v' d d'} : R.token n n' → LikeExpr m v v' → R.depth m d d' →
      LikeExpr m (.assign n v d) (.assign n' v' d')
  | call {m f f' p p' es es'} : LikeExpr m f f' → R.token p p' → LikeExprs m es es' →
      LikeExpr m (.call f p es) (.call f' p' es')
  | get {m o o' n n'} : LikeExpr m o o' → R.token n n' → LikeExpr m (.get o n) (.get o' n')
  | set {m o o' n n' v v'} : LikeExpr m o o' → R.token n n' → LikeExpr m v v' →
      LikeExpr m (.set o n v) (.set o' n' v')
  | receiver {m k k' d d'} : R.token k k' → R.depth m d d' →
      LikeExpr m (.receiver k d) (.receiver k' d')
  | superMethod {m k k' n n' d} : k.lexeme = "super" → R.token k k' → R.token n n' →
      R.depth m d d → LikeExpr m (.superMethod k n d) (.superMethod k' n' d)
  | function {m d d'} : LikeDecl (d.around m) d d' →
      LikeExpr m (.function d) (.function d')
  | array {m b b' size size' es es'} : R.token b b' → LikeOptionExpr m size size' →
      LikeExprs m es es' → LikeExpr m (.array b size es) (.array b' size' es')
  | index {m o o' b b' i i'} : LikeExpr m o o' → R.token b b' → LikeExpr m i i' →
      LikeExpr m (.index o b i) (.index o' b' i')
  | setIndex {m o o' b b' i i' v v'} : LikeExpr m o o' → R.token b b' → LikeExpr m i i' →
      LikeExpr m v v' → LikeExpr m (.setIndex o b i v) (.setIndex o' b' i' v')

inductive LikeExprs : Option Nat → List Expr → List Expr → Prop
  | nil {m} : LikeExprs m [] []
  | cons {m e e' es es'} : LikeExpr m e e' → LikeExprs m es es' →
      LikeExprs m (e :: es) (e' :: es')

inductive LikeOptionExpr : Option Nat → Option Expr → Option Expr → Prop
  | none {m} : LikeOptionExpr m none none
  | some {m e e'} : LikeExpr m e e' → LikeOptionExpr m (some e) (some e')

/-- Alike functions, the number being that of the scopes around them. -/
inductive LikeDecl : Option Nat → FunctionDecl → FunctionDecl → Prop
  | mk {m k k' n n' ps ps' body body'} : R.token k k' → Option.Rel R.name n n' →
      List.Forall₂ R.name ps ps' → LikeStmts (inner m) body body' →
      LikeDecl m (.mk k n ps body) (.mk k' n' ps' body')

inductive LikeDecls : Option Nat → List FunctionDecl → List FunctionDecl → Prop
  | nil {m} : LikeDecls m [] []
  | cons {m d d' ds ds'} : LikeDecl m d d' → LikeDecls m ds ds' →
      LikeDecls m (d :: ds) (d' :: ds')

inductive LikeStmt : Option Nat → Stmt → Stmt → Prop
  | print {m e e'} : LikeExpr m e e' → LikeStmt m (.print e) (.print e')
  | expression {m e e'} : LikeExpr m e e' → LikeStmt m (.expression e) (.expression e')
  | varDecl {m n n' e e'} : R.name n n' → LikeOptionExpr m e e' →
      LikeStmt m (.varDecl n e) (.varDecl n' e')
  | letDecl {m n n' e e'} : R.name n n' → LikeExpr m e e' →
      LikeStmt m (.letDecl n e) (.letDecl n' e')
  | block {m body body'} : LikeStmts (inner m) body body' →
      LikeStmt m (.block body) (.block body')
  | branch {m e e' a a' b b'} : LikeExpr m e e' → LikeStmt m a a' → LikeOptionStmt m b b' →
      LikeStmt m (.branch e a b) (.branch e' a' b')
  | whileLoop {m e e' b b' s s'} : LikeExpr m e e' → LikeStmt m b b' →
      LikeOptionExpr m s s' → LikeStmt m (.whileLoop e b s) (.whileLoop e' b' s')
  | functionDecl {m d d'} : LikeDecl m d d' → LikeStmt m (.functionDecl d) (.functionDecl d')
  | classDecl {m n n' e e' ms ms'} : R.name n n' → LikeOptionExpr m e e' →
      LikeDecls (aroundMethods e m) ms ms' → LikeStmt m (.classDecl n e ms) (.classDecl n' e' ms')
  | returnWith {m k k' e e'} : R.token k k' → LikeOptionExpr m e e' →
      LikeStmt m (.returnWith k e) (.returnWith k' e')
  | breakLoop {m k k'} : R.token k k' → LikeStmt m (.breakLoop k) (.breakLoop k')
  | continueLoop {m k k'} : R.token k k' → LikeStmt m (.continueLoop k) (.continueLoop k')
  | moduleDecl {m n n' body body'} : R.name n n' → LikeStmts (inner m) body body' →
      LikeStmt m (.moduleDecl n body) (.moduleDecl n' body')

inductive LikeOptionStmt : Option Nat → Option Stmt → Option Stmt → Prop
  | none {m} : LikeOptionStmt m none none
  | some {m s s'} : LikeStmt m s s' → LikeOptionStmt m (some s) (some s')

inductive LikeStmts : Option Nat → List Stmt → List Stmt → Prop
  | nil {m} : LikeStmts m [] []
  | cons {m s s' ss ss'} : LikeStmt m s s' → LikeStmts m ss ss' →
      LikeStmts m (s :: ss) (s' :: ss')

end

end

variable {R : Likeness} {m : Option Nat}

/-- Alike functions have alike names, or none. -/
theorem LikeDecl.name {d d' : FunctionDecl} (h : LikeDecl R m d d') :
    (d.name = none ∧ d'.name = none) ∨
      ∃ n n', d.name = some n ∧ d'.name = some n' ∧ R.name n n' := by
  cases h with
  | mk _ hname _ _ =>
      cases hname with
      | none => exact .inl ⟨rfl, rfl⟩
      | some hname => exact .inr ⟨_, _, rfl, rfl, hname⟩

theorem LikeDecl.keyword {d d' : FunctionDecl} (h : LikeDecl R m d d') :
    R.token d.keyword d'.keyword := by
  cases h with
  | mk hk _ _ _ => exact hk

theorem LikeDecl.params {d d' : FunctionDecl} (h : LikeDecl R m d d') :
    List.Forall₂ R.name d.params d'.params := by
  cases h with
  | mk _ _ hps _ => exact hps

theorem LikeDecl.body {d d' : FunctionDecl} (h : LikeDecl R m d d') :
    LikeStmts R (inner m) d.body d'.body := by
  cases h with
  | mk _ _ _ hbody => exact hbody

theorem LikeDecl.lexeme? {d d' : FunctionDecl} (h : LikeDecl R m d d')
    (hR : ∀ {n n'}, R.name n n' → n'.lexeme = n.lexeme) : d'.lexeme? = d.lexeme? := by
  unfold FunctionDecl.lexeme?
  rcases h.name with ⟨hd, hd'⟩ | ⟨n, n', hd, hd', hname⟩
  · rw [hd, hd']
  · rw [hd, hd', Option.map_some, Option.map_some, hR hname]

end Lox
