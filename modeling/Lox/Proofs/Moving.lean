/-
# Moving the step of a loop into its body

A loop with a step is a loop without one whose body has the step at its end:

    while (c) b, then e      becomes      while (c) { b  e; }

if no `continue` in `b` goes on with this loop, for that would leave the step out.  A
`Descent` leads down a program to the loop whose step is to be moved, and `Moving.stmts`
moves it there.  What it does to programs as they are read is all that there is to it;
the depths are for the resolver to set.

The block around the body is one scope more, and one environment more in every round.  So
a name in the body is so much further out: `Leads`.  `MovedStmts` and its kin say of
two resolved programs that steps were moved, in any of the loops.  They know of the
scopes around a place which of them are there in the second program only, and of a
statement which loop goes on at a `break` or a `continue`.
-/
import Lox.Proofs.Like

namespace Lox

/-! ## The loop that a `continue` goes on with -/

mutual

/-- A `continue` in the statement goes on with a loop around the statement. -/
def Stmt.continues : Stmt → Bool
  | .continueLoop _ => true
  | .block body => anyContinues body
  | .branch _ onTrue onFalse => onTrue.continues || optionContinues onFalse
  | _ => false

def optionContinues : Option Stmt → Bool
  | some st => st.continues
  | none => false

def anyContinues : List Stmt → Bool
  | [] => false
  | st :: sts => st.continues || anyContinues sts

end

/-- A loop with its step at the end of its body. -/
def Stmt.withoutStep : Stmt → Stmt
  | .whileLoop condition body (some step) =>
    .whileLoop condition (.block [body, .expression step]) none
  | st => st

/-! ## Moving -/

/-- The way from a node down to a loop, by the numbers of children, or nothing if the
loop is not below the node. -/
abbrev Descent := Option (List Nat)

/-- The way from a child. -/
def Descent.child (i : Nat) : Descent → Descent
  | some (j :: way) => if j = i then some way else none
  | _ => none

namespace Moving

mutual

/-- The expression with the step of the loop moved. -/
def expr (w : Descent) : Expr → Expr
  | .literal v => .literal v
  | .grouping e => .grouping (expr (w.child 0) e)
  | .unary op e => .unary op (expr (w.child 0) e)
  | .binary l op r => .binary (expr (w.child 0) l) op (expr (w.child 1) r)
  | .logical l op r => .logical (expr (w.child 0) l) op (expr (w.child 1) r)
  | .variable x d => .variable x d
  | .assign x v d => .assign x (expr (w.child 0) v) d
  | .call callee paren es => .call (expr (w.child 0) callee) paren (exprs w es)
  | .get object x => .get (expr (w.child 0) object) x
  | .set object x v => .set (expr (w.child 0) object) x (expr (w.child 1) v)
  | .receiver keyword d => .receiver keyword d
  | .superMethod keyword x d => .superMethod keyword x d
  | .function d => .function (function (w.child 0) d)
  | .array bracket size es => .array bracket (optionExpr (w.child 0) size) (exprs w es)
  | .index object bracket i => .index (expr (w.child 0) object) bracket (expr (w.child 1) i)
  | .setIndex object bracket i v =>
    .setIndex (expr (w.child 0) object) bracket (expr (w.child 1) i) (expr (w.child 2) v)

def exprs (w : Descent) : List Expr → List Expr
  | [] => []
  | e :: es => expr (w.child (es.length + 1)) e :: exprs w es

def optionExpr (w : Descent) : Option Expr → Option Expr
  | none => none
  | some e => some (expr w e)

def function (w : Descent) : FunctionDecl → FunctionDecl
  | .mk keyword name params body => .mk keyword name params (stmts w body)

def functions (w : Descent) : List FunctionDecl → List FunctionDecl
  | [] => []
  | d :: ds => function (w.child (ds.length + 1)) d :: functions w ds

/-- The statement with the step of the loop moved, which may be the statement itself. -/
def stmt (w : Descent) : Stmt → Stmt
  | .print e => .print (expr (w.child 0) e)
  | .expression e => .expression (expr (w.child 0) e)
  | .varDecl x e => .varDecl x (optionExpr (w.child 0) e)
  | .letDecl x e => .letDecl x (expr (w.child 0) e)
  | .block body => .block (stmts w body)
  | .branch condition onTrue onFalse =>
    .branch (expr (w.child 0) condition) (stmt (w.child 1) onTrue) (optionStmt (w.child 2) onFalse)
  | .whileLoop condition body step =>
    let loop : Stmt := .whileLoop (expr (w.child 0) condition) (stmt (w.child 1) body)
      (optionExpr (w.child 2) step)
    if w = some [] ∧ body.continues = false then loop.withoutStep else loop
  | .functionDecl d => .functionDecl (function (w.child 0) d)
  | .classDecl x superclass ms =>
    .classDecl x (optionExpr (w.child 0) superclass) (functions w ms)
  | .returnWith keyword e => .returnWith keyword (optionExpr (w.child 0) e)
  | .breakLoop keyword => .breakLoop keyword
  | .continueLoop keyword => .continueLoop keyword
  | .moduleDecl x body => .moduleDecl x (stmts w body)

def optionStmt (w : Descent) : Option Stmt → Option Stmt
  | none => none
  | some st => some (stmt w st)

def stmts (w : Descent) : List Stmt → List Stmt
  | [] => []
  | st :: sts => stmt (w.child sts.length) st :: stmts w sts

end

/-- The program with the step of a loop moved, which this way leads to. -/
def program (way : List Nat) (body : List Stmt) : List Stmt := stmts (some way) body

/-! ### What moving leaves as it is -/

section
variable (w : Descent)

@[simp] theorem name_function (d : FunctionDecl) : (function w d).name = d.name := by
  cases d
  rfl

@[simp] theorem methodKind_function (d : FunctionDecl) :
    (function w d).methodKind = d.methodKind := by
  cases d
  rfl

@[simp] theorem name?_expr (e : Expr) : (expr w e).name? = e.name? := by
  cases e <;> rfl

@[simp] theorem inheritance_expr (x : Token) (e : Expr) :
    inheritance x (expr w e) = inheritance x e := by
  unfold inheritance
  rw [name?_expr]

@[simp] theorem isSome_optionExpr (e : Option Expr) : (optionExpr w e).isSome = e.isSome := by
  cases e <;> rfl

/-- A loop stays as it is, but for its parts, or its step is moved. -/
theorem stmt_whileLoop (c : Expr) (body : Stmt) (step : Option Expr) :
    stmt w (.whileLoop c body step) =
        .whileLoop (expr (w.child 0) c) (stmt (w.child 1) body) (optionExpr (w.child 2) step) ∨
      ∃ e, step = some e ∧ body.continues = false ∧
        stmt w (.whileLoop c body step) = .whileLoop (expr (w.child 0) c)
          (.block [stmt (w.child 1) body, .expression (expr (w.child 2) e)]) none := by
  simp only [stmt]
  split
  · rename_i hmoved
    cases step with
    | none => exact .inl rfl
    | some e => exact .inr ⟨e, rfl, hmoved.2, rfl⟩
  · exact .inl rfl

end

/-! ### Nothing to move -/

mutual

theorem expr_none : ∀ e : Expr, expr none e = e
  | .literal _ | .variable _ _ | .receiver _ _ | .superMethod _ _ _ => rfl
  | .grouping e => congrArg Expr.grouping (expr_none e)
  | .unary op e => congrArg (Expr.unary op) (expr_none e)
  | .binary l op r => congrArg₂ (Expr.binary · op) (expr_none l) (expr_none r)
  | .logical l op r => congrArg₂ (Expr.logical · op) (expr_none l) (expr_none r)
  | .assign x v d => congrArg (Expr.assign x · d) (expr_none v)
  | .call callee paren es => congrArg₂ (Expr.call · paren) (expr_none callee) (exprs_none es)
  | .get object x => congrArg (Expr.get · x) (expr_none object)
  | .set object x v => congrArg₂ (Expr.set · x) (expr_none object) (expr_none v)
  | .function d => congrArg Expr.function (function_none d)
  | .array bracket size es =>
    congrArg₂ (Expr.array bracket) (optionExpr_none size) (exprs_none es)
  | .index object bracket i => congrArg₂ (Expr.index · bracket) (expr_none object) (expr_none i)
  | .setIndex object bracket i v => by
      have ho := expr_none object
      have hi := expr_none i
      have hv := expr_none v
      simp only [expr, Descent.child, ho, hi, hv]
termination_by structural e => e

theorem exprs_none : ∀ es : List Expr, exprs none es = es
  | [] => rfl
  | e :: es => congrArg₂ List.cons (expr_none e) (exprs_none es)
termination_by structural es => es

theorem optionExpr_none : ∀ e : Option Expr, optionExpr none e = e
  | none => rfl
  | some e => congrArg some (expr_none e)
termination_by structural e => e

theorem function_none : ∀ d : FunctionDecl, function none d = d
  | .mk keyword name ps body => congrArg (FunctionDecl.mk keyword name ps) (stmts_none body)
termination_by structural d => d

theorem functions_none : ∀ ds : List FunctionDecl, functions none ds = ds
  | [] => rfl
  | d :: ds => congrArg₂ List.cons (function_none d) (functions_none ds)
termination_by structural ds => ds

theorem stmt_none : ∀ st : Stmt, stmt none st = st
  | .print e => congrArg Stmt.print (expr_none e)
  | .expression e => congrArg Stmt.expression (expr_none e)
  | .varDecl x e => congrArg (Stmt.varDecl x) (optionExpr_none e)
  | .letDecl x e => congrArg (Stmt.letDecl x) (expr_none e)
  | .block body => congrArg Stmt.block (stmts_none body)
  | .branch c onTrue onFalse => by
      have hc := expr_none c
      have htrue := stmt_none onTrue
      have hfalse := optionStmt_none onFalse
      simp only [stmt, Descent.child, hc, htrue, hfalse]
  | .whileLoop c body step => by
      have hc := expr_none c
      have hbody := stmt_none body
      have hstep := optionExpr_none step
      simp only [stmt, Descent.child, hc, hbody, hstep]
      exact if_neg nofun
  | .functionDecl d => congrArg Stmt.functionDecl (function_none d)
  | .classDecl x e ms => congrArg₂ (Stmt.classDecl x) (optionExpr_none e) (functions_none ms)
  | .returnWith keyword e => congrArg (Stmt.returnWith keyword) (optionExpr_none e)
  | .breakLoop _ | .continueLoop _ => rfl
  | .moduleDecl x body => congrArg (Stmt.moduleDecl x) (stmts_none body)
termination_by structural st => st

theorem optionStmt_none : ∀ st : Option Stmt, optionStmt none st = st
  | none => rfl
  | some st => congrArg some (stmt_none st)
termination_by structural st => st

theorem stmts_none : ∀ sts : List Stmt, stmts none sts = sts
  | [] => rfl
  | st :: sts => congrArg₂ List.cons (stmt_none st) (stmts_none sts)
termination_by structural sts => sts

end

end Moving

/-! ## Programs with steps moved -/

/-- A scope around a place of the second program: one of the first program too, or the
block around the body of a loop whose step was moved. -/
inductive Layer where
  | own
  | added

/-- So many scopes out in the first program is the scope that is so many out in the
second. -/
inductive Leads : List Layer → Nat → Nat → Prop
  | here {Δ} : Leads (.own :: Δ) 0 0
  | own {Δ d d'} : Leads Δ d d' → Leads (.own :: Δ) (d + 1) (d' + 1)
  | added {Δ d d'} : Leads Δ d d' → Leads (.added :: Δ) d (d' + 1)

/-- The loop that is the innermost one around a statement of a function: none, one as it
was, or one whose step was moved. -/
inductive InnerLoop where
  | none
  | kept
  | moved

/-- What is around the function of a lambda, which may have a scope for its own name. -/
def FunctionDecl.layers (d : FunctionDecl) (Δ : List Layer) : List Layer :=
  match d.name with
  | some _ => .own :: Δ
  | none => Δ

/-- What is around the methods of a class: the scope of `this`, and that of `super` if there
is a superclass. -/
def layersOfMethods (superclass : Option Expr) (Δ : List Layer) : List Layer :=
  match superclass with
  | some _ => .own :: .own :: Δ
  | none => .own :: Δ

mutual

inductive MovedExpr : List Layer → Expr → Expr → Prop
  | literal {Δ} (v : Literal) : MovedExpr Δ (.literal v) (.literal v)
  | grouping {Δ e e'} : MovedExpr Δ e e' → MovedExpr Δ (.grouping e) (.grouping e')
  | unary {Δ op e e'} : MovedExpr Δ e e' → MovedExpr Δ (.unary op e) (.unary op e')
  | binary {Δ l l' op r r'} : MovedExpr Δ l l' → MovedExpr Δ r r' →
      MovedExpr Δ (.binary l op r) (.binary l' op r')
  | logical {Δ l l' op r r'} : MovedExpr Δ l l' → MovedExpr Δ r r' →
      MovedExpr Δ (.logical l op r) (.logical l' op r')
  | variable {Δ x d d'} : Option.Rel (Leads Δ) d d' →
      MovedExpr Δ (.variable x d) (.variable x d')
  | assign {Δ x v v' d d'} : Option.Rel (Leads Δ) d d' → MovedExpr Δ v v' →
      MovedExpr Δ (.assign x v d) (.assign x v' d')
  | call {Δ f f' paren es es'} : MovedExpr Δ f f' → MovedExprs Δ es es' →
      MovedExpr Δ (.call f paren es) (.call f' paren es')
  | get {Δ o o' x} : MovedExpr Δ o o' → MovedExpr Δ (.get o x) (.get o' x)
  | set {Δ o o' x v v'} : MovedExpr Δ o o' → MovedExpr Δ v v' →
      MovedExpr Δ (.set o x v) (.set o' x v')
  | receiver {Δ x d d'} : Option.Rel (Leads Δ) d d' →
      MovedExpr Δ (.receiver x d) (.receiver x d')
  | superMethod {Δ x y d d'} :
      Option.Rel (fun d d' => Leads Δ d d' ∧ Leads Δ (d - 1) (d' - 1)) d d' →
      MovedExpr Δ (.superMethod x y d) (.superMethod x y d')
  | function {Δ d d'} : MovedDecl (d.layers Δ) d d' → MovedExpr Δ (.function d) (.function d')
  | array {Δ bracket size size' es es'} : MovedOptionExpr Δ size size' →
      MovedExprs Δ es es' → MovedExpr Δ (.array bracket size es) (.array bracket size' es')
  | index {Δ o o' bracket i i'} : MovedExpr Δ o o' → MovedExpr Δ i i' →
      MovedExpr Δ (.index o bracket i) (.index o' bracket i')
  | setIndex {Δ o o' bracket i i' v v'} : MovedExpr Δ o o' → MovedExpr Δ i i' →
      MovedExpr Δ v v' → MovedExpr Δ (.setIndex o bracket i v) (.setIndex o' bracket i' v')

inductive MovedExprs : List Layer → List Expr → List Expr → Prop
  | nil {Δ} : MovedExprs Δ [] []
  | cons {Δ e e' es es'} : MovedExpr Δ e e' → MovedExprs Δ es es' →
      MovedExprs Δ (e :: es) (e' :: es')

inductive MovedOptionExpr : List Layer → Option Expr → Option Expr → Prop
  | none {Δ} : MovedOptionExpr Δ none none
  | some {Δ e e'} : MovedExpr Δ e e' → MovedOptionExpr Δ (some e) (some e')

inductive MovedDecl : List Layer → FunctionDecl → FunctionDecl → Prop
  | mk {Δ keyword name ps body body'} : MovedStmts (.own :: Δ) .none body body' →
      MovedDecl Δ (.mk keyword name ps body) (.mk keyword name ps body')

inductive MovedDecls : List Layer → List FunctionDecl → List FunctionDecl → Prop
  | nil {Δ} : MovedDecls Δ [] []
  | cons {Δ d d' ds ds'} : MovedDecl Δ d d' → MovedDecls Δ ds ds' →
      MovedDecls Δ (d :: ds) (d' :: ds')

/-- Nothing is declared in a scope that is there in the second program only. -/
inductive MovedStmt : List Layer → InnerLoop → Stmt → Stmt → Prop
  | print {Δ l e e'} : MovedExpr Δ e e' → MovedStmt Δ l (.print e) (.print e')
  | expression {Δ l e e'} : MovedExpr Δ e e' → MovedStmt Δ l (.expression e) (.expression e')
  | varDecl {Δ l x e e'} : MovedOptionExpr (.own :: Δ) e e' →
      MovedStmt (.own :: Δ) l (.varDecl x e) (.varDecl x e')
  | letDecl {Δ l x e e'} : MovedExpr (.own :: Δ) e e' →
      MovedStmt (.own :: Δ) l (.letDecl x e) (.letDecl x e')
  | block {Δ l body body'} : MovedStmts (.own :: Δ) l body body' →
      MovedStmt Δ l (.block body) (.block body')
  | branch {Δ l e e' a a' b b'} : MovedExpr Δ e e' → MovedStmt Δ l a a' →
      MovedOptionStmt Δ l b b' → MovedStmt Δ l (.branch e a b) (.branch e' a' b')
  | whileLoop {Δ l c c' b b' e e'} : MovedExpr Δ c c' → MovedStmt Δ .kept b b' →
      MovedOptionExpr Δ e e' → MovedStmt Δ l (.whileLoop c b e) (.whileLoop c' b' e')
  | movedLoop {Δ l c c' b b' e e'} : MovedExpr Δ c c' → MovedStmt (.added :: Δ) .moved b b' →
      MovedExpr (.added :: Δ) e e' →
      MovedStmt Δ l (.whileLoop c b (some e)) (.whileLoop c' (.block [b', .expression e']) none)
  | functionDecl {Δ l d d'} : MovedDecl (.own :: Δ) d d' →
      MovedStmt (.own :: Δ) l (.functionDecl d) (.functionDecl d')
  | unnamed {Δ l d d'} : d.name = none → MovedDecl Δ d d' →
      MovedStmt Δ l (.functionDecl d) (.functionDecl d')
  | classDecl {Δ l x e e' ms ms'} : MovedOptionExpr (.own :: Δ) e e' →
      MovedDecls (layersOfMethods e (.own :: Δ)) ms ms' →
      MovedStmt (.own :: Δ) l (.classDecl x e ms) (.classDecl x e' ms')
  | returnWith {Δ l keyword e e'} : MovedOptionExpr Δ e e' →
      MovedStmt Δ l (.returnWith keyword e) (.returnWith keyword e')
  | breakLoop {Δ l keyword} : l ≠ .none → MovedStmt Δ l (.breakLoop keyword) (.breakLoop keyword)
  | continueLoop {Δ keyword} :
      MovedStmt Δ .kept (.continueLoop keyword) (.continueLoop keyword)
  | moduleDecl {Δ l x body body'} : MovedStmts (.own :: .own :: Δ) .none body body' →
      MovedStmt (.own :: Δ) l (.moduleDecl x body) (.moduleDecl x body')

inductive MovedOptionStmt : List Layer → InnerLoop → Option Stmt → Option Stmt → Prop
  | none {Δ l} : MovedOptionStmt Δ l none none
  | some {Δ l s s'} : MovedStmt Δ l s s' → MovedOptionStmt Δ l (some s) (some s')

inductive MovedStmts : List Layer → InnerLoop → List Stmt → List Stmt → Prop
  | nil {Δ l} : MovedStmts Δ l [] []
  | cons {Δ l s s' ss ss'} : MovedStmt Δ l s s' → MovedStmts Δ l ss ss' →
      MovedStmts Δ l (s :: ss) (s' :: ss')

end

variable {Δ : List Layer} {d d' : FunctionDecl}

theorem MovedDecl.name (h : MovedDecl Δ d d') : d'.name = d.name := by
  cases h
  rfl

theorem MovedDecl.keyword (h : MovedDecl Δ d d') : d'.keyword = d.keyword := by
  cases h
  rfl

theorem MovedDecl.params (h : MovedDecl Δ d d') : d'.params = d.params := by
  cases h
  rfl

theorem MovedDecl.body (h : MovedDecl Δ d d') :
    MovedStmts (.own :: Δ) .none d.body d'.body := by
  cases h with
  | mk hbody => exact hbody

end Lox
