/-
# Renaming a local

A `Renaming` gives another word to a name that a block or a function declares with
`var`, with `let` or as a parameter.  What is renamed is read off a program that has
been resolved, since the depths say which uses belong to which scope:

    in the scope itself     `var`, `let` and parameters of the old name
    inside of the scope     uses of the old name whose depth leads to the scope

Nothing else changes: not a token's kind or place, no depth, and no name of a function,
class, module or property.  An `Aim` says where the scope is, seen from a node.

`RenamedStmts` and its kin say the same of two programs without an aim: any block and
any function may have its scope renamed.  They ask besides that what is renamed does not
meet the new word.  The number in front is that of the scopes from a node out to the
renamed one, if the node is inside of it.
-/
import Lox.Proofs.Around
import Lox.Proofs.Like

namespace Lox

/-- A word for a name, and another word for it. -/
structure Renaming where
  old : String
  new : String
  old_name : TokenKind.ofWord old = .identifier
  new_name : TokenKind.ofWord new = .identifier

/-- Where a scope is, seen from a node: below it, at the end of a way down; around it,
so many scopes out; or neither. -/
inductive Aim where
  | below (way : List Nat)
  | around (distance : Nat)
  | elsewhere

namespace Aim

/-- The number of scopes out to the scope. -/
def distance : Aim → Option Nat
  | around k => some k
  | _ => none

/-- The same scope, seen from a child. -/
def child (i : Nat) : Aim → Aim
  | below (j :: way) => if j = i then below way else elsewhere
  | around k => around k
  | _ => elsewhere

/-- The same scope, seen from inside of another one. -/
def deeper : Aim → Aim
  | around k => around (k + 1)
  | a => a

/-- The same scope, seen from the function of a lambda, which may have a scope for its
own name. -/
def lambda (a : Aim) (d : FunctionDecl) : Aim :=
  match d.name with
  | some _ => (a.child 0).deeper
  | none => a.child 0

/-- The same scope, seen from the methods of a class. -/
def methods (a : Aim) (superclass : Option Expr) : Aim :=
  match superclass with
  | some _ => a.deeper.deeper
  | none => a.deeper

end Aim

namespace Renaming

variable (ρ : Renaming)

/-- The word for a word. -/
def word (n : String) : String := if n = ρ.old then ρ.new else n

/-- A token in its place, with the word for its word. -/
def token (x : Token) : Token := { x with lexeme := ρ.word x.lexeme }

/-- A fault of the name. -/
def fault : Fault → Fault
  | .undefinedSymbol n => .undefinedSymbol (ρ.word n)
  | .alreadyDefined n => .alreadyDefined (ρ.word n)
  | .noScopeAt depth n => .noScopeAt depth (ρ.word n)
  | f => f

/-- Whether a declaration is one to rename. -/
def concerns (d : Declaration) : Bool :=
  d.name.lexeme = ρ.old ∧ (d.form = .variable ∨ d.form = .constant ∨ d.form = .parameter)

/-- What a block or a function is entered with, given what its scope declares: this is
the scope, if the way ends here and there is something to rename. -/
def enter (declared : List Declaration) : Aim → Aim
  | .below [] => if declared.any ρ.concerns then .around 0 else .elsewhere
  | a => a.deeper

/-- A name that is declared so many scopes inside of the scope. -/
def declared (k : Option Nat) (x : Token) : Token := if k = some 0 then ρ.token x else x

/-- A depth leads to the scope, which is so many scopes out. -/
abbrev Reaches (k depth : Option Nat) : Prop := depth.isSome = true ∧ depth = k

/-- A name that is used so many scopes inside of the scope. -/
def used (k depth : Option Nat) (x : Token) : Token :=
  if Reaches k depth then ρ.token x else x

/-! ## Programs -/

section
variable (depths : Option Nat → Option Nat)

mutual

/-- A resolved expression with the name in the scope renamed, and with `depths` of its
depths. -/
def expr (a : Aim) : Expr → Expr
  | .literal v => .literal v
  | .grouping e => .grouping (expr (a.child 0) e)
  | .unary op e => .unary op (expr (a.child 0) e)
  | .binary l op r => .binary (expr (a.child 0) l) op (expr (a.child 1) r)
  | .logical l op r => .logical (expr (a.child 0) l) op (expr (a.child 1) r)
  | .variable x d => .variable (ρ.used a.distance d x) (depths d)
  | .assign x v d => .assign (ρ.used a.distance d x) (expr (a.child 0) v) (depths d)
  | .call callee paren es => .call (expr (a.child 0) callee) paren (exprs a es)
  | .get object x => .get (expr (a.child 0) object) x
  | .set object x v => .set (expr (a.child 0) object) x (expr (a.child 1) v)
  | .receiver keyword d => .receiver keyword (depths d)
  | .superMethod keyword x d => .superMethod keyword x (depths d)
  | .function d => .function (function (a.lambda d) d)
  | .array bracket size es => .array bracket (optionExpr (a.child 0) size) (exprs a es)
  | .index object bracket i => .index (expr (a.child 0) object) bracket (expr (a.child 1) i)
  | .setIndex object bracket i v =>
    .setIndex (expr (a.child 0) object) bracket (expr (a.child 1) i) (expr (a.child 2) v)

def exprs (a : Aim) : List Expr → List Expr
  | [] => []
  | e :: es => expr (a.child (es.length + 1)) e :: exprs a es

def optionExpr (a : Aim) : Option Expr → Option Expr
  | none => none
  | some e => some (expr a e)

def function (a : Aim) : FunctionDecl → FunctionDecl
  | .mk keyword name params body =>
    let a := ρ.enter (params.map (⟨·, .parameter⟩) ++ body.filterMap Stmt.declaration?) a
    .mk keyword name (params.map (ρ.declared a.distance)) (stmts a body)

def functions (a : Aim) : List FunctionDecl → List FunctionDecl
  | [] => []
  | d :: ds => function (a.child (ds.length + 1)) d :: functions a ds

def stmt (a : Aim) : Stmt → Stmt
  | .print e => .print (expr (a.child 0) e)
  | .expression e => .expression (expr (a.child 0) e)
  | .varDecl x e => .varDecl (ρ.declared a.distance x) (optionExpr (a.child 0) e)
  | .letDecl x e => .letDecl (ρ.declared a.distance x) (expr (a.child 0) e)
  | .block body => .block (stmts (ρ.enter (body.filterMap Stmt.declaration?) a) body)
  | .branch condition onTrue onFalse =>
    .branch (expr (a.child 0) condition) (stmt (a.child 1) onTrue) (optionStmt (a.child 2) onFalse)
  | .whileLoop condition body step =>
    .whileLoop (expr (a.child 0) condition) (stmt (a.child 1) body) (optionExpr (a.child 2) step)
  | .functionDecl d => .functionDecl (function (a.child 0) d)
  | .classDecl x superclass ms =>
    .classDecl x (optionExpr (a.child 0) superclass) (functions (a.methods superclass) ms)
  | .returnWith keyword e => .returnWith keyword (optionExpr (a.child 0) e)
  | .breakLoop keyword => .breakLoop keyword
  | .continueLoop keyword => .continueLoop keyword
  | .moduleDecl x body => .moduleDecl x (stmts a.deeper body)

def optionStmt (a : Aim) : Option Stmt → Option Stmt
  | none => none
  | some st => some (stmt a st)

def stmts (a : Aim) : List Stmt → List Stmt
  | [] => []
  | st :: sts => stmt (a.child sts.length) st :: stmts a sts

end

end

/-- A program without its depths, in which the name is renamed that the scope at the end
of the way declares. -/
def program (way : List Nat) (body : List Stmt) : List Stmt :=
  ρ.stmts (fun _ => none) (.below way) (Resolve.program body).1

/-! ## Names -/

/-- Words under which something is kept: those of the scope, where none is the new one,
or those of another place. -/
structure Words (here : Prop) (n n' : String) : Prop where
  renamed : here → n' = ρ.word n ∧ n ≠ ρ.new
  kept : ¬ here → n' = n

/-- Names of the scope, or of another place. -/
structure Names (here : Prop) (x x' : Token) : Prop where
  renamed : here → x' = ρ.token x ∧ x.lexeme ≠ ρ.new
  kept : ¬ here → x' = x

variable {ρ} {here : Prop}

theorem Names.words {x x' : Token} (h : ρ.Names here x x') :
    ρ.Words here x.lexeme x'.lexeme :=
  ⟨fun hh => ⟨congrArg Token.lexeme (h.renamed hh).1, (h.renamed hh).2⟩,
    fun hn => congrArg Token.lexeme (h.kept hn)⟩

/-- Elsewhere every word stays. -/
theorem Words.of_not (h : ¬ here) (n : String) : ρ.Words here n n :=
  ⟨fun hh => absurd hh h, fun _ => rfl⟩

theorem Names.of_not (h : ¬ here) (x : Token) : ρ.Names here x x :=
  ⟨fun hh => absurd hh h, fun _ => rfl⟩

/-- Different words stay different. -/
theorem Words.inj {n n' m m' : String} (hn : ρ.Words here n n') (hm : ρ.Words here m m') :
    n' = m' ↔ n = m := by
  by_cases hh : here
  · obtain ⟨rfl, hn⟩ := hn.renamed hh
    obtain ⟨rfl, hm⟩ := hm.renamed hh
    unfold word
    grind
  · rw [hn.kept hh, hm.kept hh]

theorem word_of_ne {n : String} (h : n ≠ ρ.old) : ρ.word n = n := if_neg h

theorem token_of_ne {x : Token} (h : x.lexeme ≠ ρ.old) : ρ.token x = x := by
  unfold token
  rw [word_of_ne h]

/-- A name that is neither stays. -/
theorem Names.of_ne {x : Token} (hold : x.lexeme ≠ ρ.old) (hnew : x.lexeme ≠ ρ.new) :
    ρ.Names here x x :=
  ⟨fun _ => ⟨(token_of_ne hold).symm, hnew⟩, fun _ => rfl⟩

/-- A reserved word is no name. -/
theorem Names.reserved {x : Token} (h : TokenKind.ofWord x.lexeme ≠ .identifier) :
    ρ.Names here x x :=
  .of_ne (fun heq => h (heq ▸ ρ.old_name)) (fun heq => h (heq ▸ ρ.new_name))

end Renaming

/-! ## Programs with a renamed scope -/

/-- One scope further outside. -/
def outer : Option Nat → Option Nat
  | some (k + 1) => some k
  | _ => none

@[simp] theorem outer_inner (k : Option Nat) : outer (inner k) = k := by
  cases k <;> rfl

theorem inner_ne_zero (k : Option Nat) : inner k ≠ some 0 := by
  cases k <;> simp [inner]

section
variable (ρ : Renaming)

mutual

inductive RenamedExpr : Option Nat → Expr → Expr → Prop
  | literal {k} (v : Literal) : RenamedExpr k (.literal v) (.literal v)
  | grouping {k e e'} : RenamedExpr k e e' → RenamedExpr k (.grouping e) (.grouping e')
  | unary {k op e e'} : RenamedExpr k e e' → RenamedExpr k (.unary op e) (.unary op e')
  | binary {k l l' op r r'} : RenamedExpr k l l' → RenamedExpr k r r' →
      RenamedExpr k (.binary l op r) (.binary l' op r')
  | logical {k l l' op r r'} : RenamedExpr k l l' → RenamedExpr k r r' →
      RenamedExpr k (.logical l op r) (.logical l' op r')
  | variable {k x x' d} : ρ.Names (Renaming.Reaches k d) x x' →
      RenamedExpr k (.variable x d) (.variable x' d)
  | assign {k x x' v v' d} : ρ.Names (Renaming.Reaches k d) x x' → RenamedExpr k v v' →
      RenamedExpr k (.assign x v d) (.assign x' v' d)
  | call {k f f' paren es es'} : RenamedExpr k f f' → RenamedExprs k es es' →
      RenamedExpr k (.call f paren es) (.call f' paren es')
  | get {k o o' x} : RenamedExpr k o o' → RenamedExpr k (.get o x) (.get o' x)
  | set {k o o' x v v'} : RenamedExpr k o o' → RenamedExpr k v v' →
      RenamedExpr k (.set o x v) (.set o' x v')
  | receiver {k x d} : ρ.Names (Renaming.Reaches k d) x x →
      RenamedExpr k (.receiver x d) (.receiver x d)
  | superMethod {k x y d} : ρ.Names (Renaming.Reaches k d) x x →
      RenamedExpr k (.superMethod x y d) (.superMethod x y d)
  | function {k d d'} : RenamedDecl (d.around k) d d' →
      RenamedExpr k (.function d) (.function d')
  | array {k bracket size size' es es'} : RenamedOptionExpr k size size' →
      RenamedExprs k es es' → RenamedExpr k (.array bracket size es) (.array bracket size' es')
  | index {k o o' bracket i i'} : RenamedExpr k o o' → RenamedExpr k i i' →
      RenamedExpr k (.index o bracket i) (.index o' bracket i')
  | setIndex {k o o' bracket i i' v v'} : RenamedExpr k o o' → RenamedExpr k i i' →
      RenamedExpr k v v' → RenamedExpr k (.setIndex o bracket i v) (.setIndex o' bracket i' v')

inductive RenamedExprs : Option Nat → List Expr → List Expr → Prop
  | nil {k} : RenamedExprs k [] []
  | cons {k e e' es es'} : RenamedExpr k e e' → RenamedExprs k es es' →
      RenamedExprs k (e :: es) (e' :: es')

inductive RenamedOptionExpr : Option Nat → Option Expr → Option Expr → Prop
  | none {k} : RenamedOptionExpr k none none
  | some {k e e'} : RenamedExpr k e e' → RenamedOptionExpr k (some e) (some e')

/-- A function's scope is one scope further inside, and may be the renamed one if no
scope around it is. -/
inductive RenamedDecl : Option Nat → FunctionDecl → FunctionDecl → Prop
  | mk {k i keyword name ps ps' body body'} : outer i = k →
      List.Forall₂ (ρ.Names (i = some 0)) ps ps' → RenamedStmts i body body' →
      RenamedDecl k (.mk keyword name ps body) (.mk keyword name ps' body')

inductive RenamedDecls : Option Nat → List FunctionDecl → List FunctionDecl → Prop
  | nil {k} : RenamedDecls k [] []
  | cons {k d d' ds ds'} : RenamedDecl k d d' → RenamedDecls k ds ds' →
      RenamedDecls k (d :: ds) (d' :: ds')

inductive RenamedStmt : Option Nat → Stmt → Stmt → Prop
  | print {k e e'} : RenamedExpr k e e' → RenamedStmt k (.print e) (.print e')
  | expression {k e e'} : RenamedExpr k e e' → RenamedStmt k (.expression e) (.expression e')
  | varDecl {k x x' e e'} : ρ.Names (k = some 0) x x' → RenamedOptionExpr k e e' →
      RenamedStmt k (.varDecl x e) (.varDecl x' e')
  | letDecl {k x x' e e'} : ρ.Names (k = some 0) x x' → RenamedExpr k e e' →
      RenamedStmt k (.letDecl x e) (.letDecl x' e')
  | block {k i body body'} : outer i = k → RenamedStmts i body body' →
      RenamedStmt k (.block body) (.block body')
  | branch {k e e' a a' b b'} : RenamedExpr k e e' → RenamedStmt k a a' →
      RenamedOptionStmt k b b' → RenamedStmt k (.branch e a b) (.branch e' a' b')
  | whileLoop {k e e' b b' s s'} : RenamedExpr k e e' → RenamedStmt k b b' →
      RenamedOptionExpr k s s' → RenamedStmt k (.whileLoop e b s) (.whileLoop e' b' s')
  | functionDecl {k d d'} : (∀ x ∈ d.name, ρ.Names (k = some 0) x x) → RenamedDecl k d d' →
      RenamedStmt k (.functionDecl d) (.functionDecl d')
  | classDecl {k x e e' ms ms'} : ρ.Names (k = some 0) x x → RenamedOptionExpr k e e' →
      RenamedDecls (aroundMethods e k) ms ms' →
      RenamedStmt k (.classDecl x e ms) (.classDecl x e' ms')
  | returnWith {k keyword e e'} : RenamedOptionExpr k e e' →
      RenamedStmt k (.returnWith keyword e) (.returnWith keyword e')
  | breakLoop {k keyword} : RenamedStmt k (.breakLoop keyword) (.breakLoop keyword)
  | continueLoop {k keyword} : RenamedStmt k (.continueLoop keyword) (.continueLoop keyword)
  | moduleDecl {k x body body'} : ρ.Names (k = some 0) x x → RenamedStmts (inner k) body body' →
      RenamedStmt k (.moduleDecl x body) (.moduleDecl x body')

inductive RenamedOptionStmt : Option Nat → Option Stmt → Option Stmt → Prop
  | none {k} : RenamedOptionStmt k none none
  | some {k s s'} : RenamedStmt k s s' → RenamedOptionStmt k (some s) (some s')

inductive RenamedStmts : Option Nat → List Stmt → List Stmt → Prop
  | nil {k} : RenamedStmts k [] []
  | cons {k s s' ss ss'} : RenamedStmt k s s' → RenamedStmts k ss ss' →
      RenamedStmts k (s :: ss) (s' :: ss')

end

end

variable {ρ : Renaming} {k : Option Nat}

theorem RenamedDecl.name {d d' : FunctionDecl} (h : RenamedDecl ρ k d d') : d'.name = d.name := by
  cases h
  rfl

theorem RenamedDecl.keyword {d d' : FunctionDecl} (h : RenamedDecl ρ k d d') :
    d'.keyword = d.keyword := by
  cases h
  rfl

theorem RenamedDecl.arity {d d' : FunctionDecl} (h : RenamedDecl ρ k d d') :
    d'.arity = d.arity := by
  cases h with
  | mk _ hps _ => exact hps.length_eq.symm

end Lox
