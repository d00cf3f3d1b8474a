/-
# What the resolver visits

A node of a program has a place: the way down to it from the text that it
stands in.  `visitAt texts p` is the visit that the resolver pays to the node at
`p`: what surrounds the node, the scopes on the resolver's stack when it gets
there and, beside each scope, the construct that pushed it.

    program      the whole text; its scope stands for the globals
    block        a block                      members      the body of a module
    call         parameters and body          selfName     the own name of a lambda
    receiver     `this` of a class            superclass   `super` of a class

`visitAt` follows `Resolve` construct by construct: `Visit.child` hands to each
child what `Resolve` hands to it.  A place therefore has one visit, and
`errors_child` says that the violations of a child are violations of its
parent.
-/
import Lox.Scope.Resolve

namespace Lox

/-- Where a node stands: the child taken last, the child taken before, and so on
out to the number of the text.  Operands, methods and statements are numbered
from the end of their list. -/
abbrev Place := List Nat

/-- A construct that pushes a scope, with its place. -/
inductive Site where
  | program
  | block (p : Place)
  | call (p : Place)
  | receiver (p : Place)
  | superclass (p : Place)
  | selfName (p : Place)
  | members (p : Place)
deriving DecidableEq, Repr

/-- What the resolver knows when it gets to a node. -/
structure Context where
  surroundings : Surroundings
  sites : List Site
  scopes : Scopes

/-- What the resolver visits. -/
inductive Node where
  | text (body : List Stmt)
  | expr (e : Expr)
  | stmt (st : Stmt)
  | function (kind : FunctionKind) (d : FunctionDecl)

/-- A node and what the resolver knows there. -/
structure Visit where
  context : Context
  node : Node

namespace Context

/-- Where every text begins. -/
def program : Context := ⟨.program, [.program], [[]]⟩

/-- Goes on with other scopes. -/
def withScopes (c : Context) (scopes : Scopes) : Context := { c with scopes := scopes }

/-- The inside of a construct that pushes an empty scope. -/
def push (c : Context) (site : Site) : Context :=
  { c with sites := site :: c.sites, scopes := [] :: c.scopes }

/-- The body of a loop. -/
def looping (c : Context) : Context :=
  { c with surroundings := { c.surroundings with inLoop := true } }

/-- The body of a module. -/
def members (c : Context) (p : Place) : Context :=
  { c with surroundings := { c.surroundings with inLoop := false } }.push (.members p)

/-- What is around the function of a lambda. -/
def lambda (c : Context) (p : Place) (d : FunctionDecl) : Context :=
  match d.name with
  | some name =>
    (c.push (.selfName p)).withScopes (Scopes.introduce ([] :: c.scopes) name.lexeme false)
  | none => c

/-- What is around a declared function. -/
def declared (c : Context) (d : FunctionDecl) : Context :=
  match d.name with
  | some name => c.withScopes (c.scopes.introduce name.lexeme true)
  | none => c

/-- The body of a function. -/
def body (c : Context) (p : Place) (kind : FunctionKind) (params : List Token) : Context :=
  ⟨c.surroundings.within kind, .call p :: c.sites,
    (Scopes.withParams ([] :: c.scopes) params).1⟩

/-- What is around the superclass of a class. -/
def superclass (c : Context) (name : Token) : Context :=
  { c with surroundings := { c.surroundings with inClass := .derived },
           scopes := c.scopes.introduce name.lexeme true }

/-- What is around the methods of a class. -/
def methods (c : Context) (p : Place) (name : Token) : Option Expr → Context
  | none =>
    ⟨{ c.surroundings with inClass := .base }, .receiver p :: c.sites,
      Scopes.implicit "this" :: c.scopes.introduce name.lexeme true⟩
  | some _ =>
    ⟨{ c.surroundings with inClass := .derived }, .receiver p :: .superclass p :: c.sites,
      Scopes.implicit "this" :: Scopes.implicit "super" :: c.scopes.introduce name.lexeme true⟩

/-! What the resolver makes of a construct here. -/

def expr (c : Context) (e : Expr) : Expr := (Resolve.expr c.surroundings c.scopes e).1

def exprs (c : Context) (es : List Expr) : List Expr :=
  (Resolve.exprs c.surroundings c.scopes es).1

def stmt (c : Context) (st : Stmt) : Stmt := (Resolve.stmt c.surroundings c.scopes st).1

def stmts (c : Context) (sts : List Stmt) : List Stmt :=
  (Resolve.stmts c.surroundings c.scopes sts).1

def function (c : Context) (kind : FunctionKind) (d : FunctionDecl) : FunctionDecl :=
  (Resolve.function c.surroundings kind c.scopes d).1

def decls (c : Context) (ds : List FunctionDecl) : List FunctionDecl :=
  (Resolve.methods c.surroundings c.scopes ds).1

/-- The scopes that a statement leaves. -/
def after (c : Context) (st : Stmt) : Context :=
  c.withScopes (Resolve.stmt c.surroundings c.scopes st).2.1

end Context

namespace Visit

/-- The visit of an operand. -/
def operand (c : Context) : List Expr → Nat → Option Visit
  | [], _ => none
  | e :: es, i => if i = es.length + 1 then some ⟨c, .expr e⟩ else operand c es i

/-- The visit of a method. -/
def method (c : Context) : List FunctionDecl → Nat → Option Visit
  | [], _ => none
  | d :: ds, i =>
    if i = ds.length + 1 then some ⟨c, .function d.methodKind d⟩ else method c ds i

/-- The visit of a statement among others, which comes after those before it. -/
def statement (c : Context) : List Stmt → Nat → Option Visit
  | [], _ => none
  | st :: sts, i =>
    if i = sts.length then some ⟨c, .stmt st⟩ else statement (c.after st) sts i

/-- The visit of a child of an expression at `p`. -/
def ofExpr (p : Place) (c : Context) : Expr → Nat → Option Visit
  | .grouping e, 0 => some ⟨c, .expr e⟩
  | .unary _ e, 0 => some ⟨c, .expr e⟩
  | .binary l _ _, 0 => some ⟨c, .expr l⟩
  | .binary _ _ r, 1 => some ⟨c, .expr r⟩
  | .logical l _ _, 0 => some ⟨c, .expr l⟩
  | .logical _ _ r, 1 => some ⟨c, .expr r⟩
  | .assign _ v _, 0 => some ⟨c, .expr v⟩
  | .call callee _ _, 0 => some ⟨c, .expr callee⟩
  | .call _ _ es, i => operand c es i
  | .get object _, 0 => some ⟨c, .expr object⟩
  | .set object _ _, 0 => some ⟨c, .expr object⟩
  | .set _ _ v, 1 => some ⟨c, .expr v⟩
  | .function d, 0 => some ⟨c.lambda p d, .function .function d⟩
  | .array _ size _, 0 => size.map (⟨c, .expr ·⟩)
  | .array _ _ es, i => operand c es i
  | .index object _ _, 0 => some ⟨c, .expr object⟩
  | .index _ _ i, 1 => some ⟨c, .expr i⟩
  | .setIndex object _ _ _, 0 => some ⟨c, .expr object⟩
  | .setIndex _ _ i _, 1 => some ⟨c, .expr i⟩
  | .setIndex _ _ _ v, 2 => some ⟨c, .expr v⟩
  | _, _ => none

/-- The visit of a child of a statement at `p`. -/
def ofStmt (p : Place) (c : Context) : Stmt → Nat → Option Visit
  | .print e, 0 => some ⟨c, .expr e⟩
  | .expression e, 0 => some ⟨c, .expr e⟩
  | .varDecl name e, 0 =>
    e.map (⟨c.withScopes (c.scopes.declare name.lexeme true), .expr ·⟩)
  | .letDecl name e, 0 => some ⟨c.withScopes (c.scopes.declare name.lexeme false), .expr e⟩
  | .block body, i => statement (c.push (.block p)) body i
  | .branch condition _ _, 0 => some ⟨c, .expr condition⟩
  | .branch _ onTrue _, 1 => some ⟨c, .stmt onTrue⟩
  | .branch _ onTrue onFalse, 2 => onFalse.map (⟨c.after onTrue, .stmt ·⟩)
  | .whileLoop condition _ _, 0 => some ⟨c, .expr condition⟩
  | .whileLoop _ body _, 1 => some ⟨c.looping, .stmt body⟩
  | .whileLoop _ body step, 2 =>
    step.map (⟨c.withScopes (c.looping.after body).scopes, .expr ·⟩)
  | .functionDecl d, 0 => some ⟨c.declared d, .function .function d⟩
  | .classDecl name (some e) _, 0 => some ⟨c.superclass name, .expr e⟩
  | .classDecl name e ms, i => method (c.methods p name e) ms i
  | .returnWith _ v, 0 => v.map (⟨c, .expr ·⟩)
  | .moduleDecl _ body, i => statement (c.members p) body i
  | _, _ => none

/-- The visit of a child of the node at `p`. -/
def child (p : Place) (v : Visit) (i : Nat) : Option Visit :=
  match v.node with
  | .text body => statement v.context body i
  | .expr e => ofExpr p v.context e i
  | .stmt st => ofStmt p v.context st i
  | .function kind d => statement (v.context.body p kind d.params) d.body i

/-- The violations that the resolver finds in a visit. -/
def errors (v : Visit) : List ScopeError :=
  match v.node with
  | .text body => (Resolve.stmts v.context.surroundings v.context.scopes body).2.2.errors
  | .expr e => (Resolve.expr v.context.surroundings v.context.scopes e).2.errors
  | .stmt st => (Resolve.stmt v.context.surroundings v.context.scopes st).2.2.errors
  | .function kind d =>
    (Resolve.function v.context.surroundings kind v.context.scopes d).2.errors

end Visit

/-- The visit that the resolver pays to the node at a place of the texts. -/
def visitAt (texts : List (List Stmt)) : Place → Option Visit
  | [] => none
  | [r] => texts[r]?.map (⟨.program, .text ·⟩)
  | i :: j :: p => (visitAt texts (j :: p)).bind fun v => v.child (j :: p) i

/-- The node has not been resolved before it is visited. -/
def Visit.Fresh (v : Visit) : Prop :=
  match v.node with
  | .expr (.variable _ depth) => depth = none
  | .expr (.assign _ _ depth) => depth = none
  | .expr (.receiver _ depth) => depth = none
  | .expr (.superMethod _ _ depth) => depth = none
  | _ => True

/-- A function that has been resolved has the name that it had. -/
theorem Resolve.name_function (s : Surroundings) (kind : FunctionKind) (σ : Scopes)
    (d : FunctionDecl) : (function s kind σ d).1.name = d.name := by
  cases d
  rfl

/-! ## Places -/

theorem visitAt_cons {texts : List (List Stmt)} {p : Place} {v : Visit}
    (h : visitAt texts p = some v) (i : Nat) : visitAt texts (i :: p) = v.child p i := by
  cases p with
  | nil => cases h
  | cons j p => simp only [visitAt, h, Option.bind_some]

/-- A text that is added leaves the visits of the others as they are. -/
theorem visitAt_append {texts : List (List Stmt)} (more : List (List Stmt)) {p : Place}
    {v : Visit} (h : visitAt texts p = some v) : visitAt (texts ++ more) p = some v := by
  induction p generalizing v with
  | nil => cases h
  | cons i p ih =>
      cases p with
      | nil =>
          obtain ⟨body, hbody, rfl⟩ := Option.map_eq_some_iff.mp h
          have hr := (List.getElem?_eq_some_iff.mp hbody).1
          simp only [visitAt, List.getElem?_append_left hr, hbody, Option.map_some]
      | cons j p =>
          obtain ⟨u, hu, hv⟩ := Option.bind_eq_some_iff.mp h
          rw [visitAt_cons (ih hu), hv]

theorem visitAt_last (texts : List (List Stmt)) (body : List Stmt) :
    visitAt (texts ++ [body]) [texts.length] = some ⟨.program, .text body⟩ := by
  simp [visitAt]

/-- What holds of the visit of every text and passes on to children holds of
every visit, at its place. -/
theorem visitAt_inductAt {texts : List (List Stmt)} {P : Place → Visit → Prop}
    (root : ∀ r, ∀ body ∈ texts, P [r] ⟨.program, .text body⟩)
    (step : ∀ p v i w, visitAt texts p = some v → P p v → v.child p i = some w → P (i :: p) w)
    {p : Place} {v : Visit} (h : visitAt texts p = some v) : P p v := by
  induction p generalizing v with
  | nil => cases h
  | cons i p ih =>
      cases p with
      | nil =>
          obtain ⟨body, hbody, rfl⟩ := Option.map_eq_some_iff.mp h
          exact root i body (List.mem_of_getElem? hbody)
      | cons j p =>
          obtain ⟨u, hu, hv⟩ := Option.bind_eq_some_iff.mp h
          exact step _ u i v hu (ih hu) hv

/-- The same of what does not depend on the place. -/
theorem visitAt_induct {texts : List (List Stmt)} {P : Visit → Prop}
    (root : ∀ body ∈ texts, P ⟨.program, .text body⟩)
    (step : ∀ p v i w, visitAt texts p = some v → P v → v.child p i = some w → P w)
    {p : Place} {v : Visit} (h : visitAt texts p = some v) : P v :=
  visitAt_inductAt (P := fun _ => P) (fun _ => root) step h

/-! ## Members of a list -/

theorem operand_lt {c : Context} {es : List Expr} {i : Nat} {v : Visit}
    (h : Visit.operand c es i = some v) : i ≤ es.length := by
  induction es with
  | nil => cases h
  | cons e es ih =>
      simp only [Visit.operand] at h
      split at h
      · simp_all
      · exact Nat.le_succ_of_le (ih h)

theorem operand_pos {c : Context} {es : List Expr} {i : Nat} {v : Visit}
    (h : Visit.operand c es i = some v) : 0 < i := by
  induction es with
  | nil => cases h
  | cons e es ih =>
      simp only [Visit.operand] at h
      split at h
      · omega
      · exact ih h

theorem operand_tail {c : Context} {e : Expr} {es : List Expr} {i : Nat} {v : Visit}
    (h : Visit.operand c es i = some v) : Visit.operand c (e :: es) i = some v := by
  have := operand_lt h
  rw [Visit.operand, if_neg (by omega), h]

theorem method_lt {c : Context} {ds : List FunctionDecl} {i : Nat} {v : Visit}
    (h : Visit.method c ds i = some v) : i ≤ ds.length := by
  induction ds with
  | nil => cases h
  | cons d ds ih =>
      simp only [Visit.method] at h
      split at h
      · simp_all
      · exact Nat.le_succ_of_le (ih h)

theorem method_pos {c : Context} {ds : List FunctionDecl} {i : Nat} {v : Visit}
    (h : Visit.method c ds i = some v) : 0 < i := by
  induction ds with
  | nil => cases h
  | cons d ds ih =>
      simp only [Visit.method] at h
      split at h
      · omega
      · exact ih h

theorem method_tail {c : Context} {d : FunctionDecl} {ds : List FunctionDecl} {i : Nat}
    {v : Visit} (h : Visit.method c ds i = some v) :
    Visit.method c (d :: ds) i = some v := by
  have := method_lt h
  rw [Visit.method, if_neg (by omega), h]

theorem statement_lt {c : Context} {sts : List Stmt} {i : Nat} {v : Visit}
    (h : Visit.statement c sts i = some v) : i < sts.length := by
  induction sts generalizing c with
  | nil => cases h
  | cons st sts ih =>
      simp only [Visit.statement] at h
      split at h
      · simp_all
      · exact Nat.lt_succ_of_lt (ih h)

theorem statement_tail {c : Context} {st : Stmt} {sts : List Stmt} {i : Nat} {v : Visit}
    (h : Visit.statement (c.after st) sts i = some v) :
    Visit.statement c (st :: sts) i = some v := by
  have := statement_lt h
  rw [Visit.statement, if_neg (by omega), h]

/-! ## Children by their constructs -/

namespace Visit

/-- The children of an expression and their visits, one rule for each operand of
each construct. -/
inductive ExprChild (p : Place) (c : Context) : Expr → Nat → Visit → Prop
  | grouping {e} : ExprChild p c (.grouping e) 0 ⟨c, .expr e⟩
  | unary {op e} : ExprChild p c (.unary op e) 0 ⟨c, .expr e⟩
  | binaryLeft {l op r} : ExprChild p c (.binary l op r) 0 ⟨c, .expr l⟩
  | binaryRight {l op r} : ExprChild p c (.binary l op r) 1 ⟨c, .expr r⟩
  | logicalLeft {l op r} : ExprChild p c (.logical l op r) 0 ⟨c, .expr l⟩
  | logicalRight {l op r} : ExprChild p c (.logical l op r) 1 ⟨c, .expr r⟩
  | assigned {name v depth} : ExprChild p c (.assign name v depth) 0 ⟨c, .expr v⟩
  | callee {callee paren es} : ExprChild p c (.call callee paren es) 0 ⟨c, .expr callee⟩
  | argument {callee paren es i w} (h : operand c es i = some w) :
      ExprChild p c (.call callee paren es) i w
  | getObject {object name} : ExprChild p c (.get object name) 0 ⟨c, .expr object⟩
  | setObject {object name v} : ExprChild p c (.set object name v) 0 ⟨c, .expr object⟩
  | setValue {object name v} : ExprChild p c (.set object name v) 1 ⟨c, .expr v⟩
  | lambda {d} : ExprChild p c (.function d) 0 ⟨c.lambda p d, .function .function d⟩
  | size {bracket e es} : ExprChild p c (.array bracket (some e) es) 0 ⟨c, .expr e⟩
  | element {bracket size es i w} (h : operand c es i = some w) :
      ExprChild p c (.array bracket size es) i w
  | indexObject {object bracket i} : ExprChild p c (.index object bracket i) 0 ⟨c, .expr object⟩
  | index {object bracket i} : ExprChild p c (.index object bracket i) 1 ⟨c, .expr i⟩
  | setIndexObject {object bracket i v} :
      ExprChild p c (.setIndex object bracket i v) 0 ⟨c, .expr object⟩
  | setIndex {object bracket i v} : ExprChild p c (.setIndex object bracket i v) 1 ⟨c, .expr i⟩
  | setIndexValue {object bracket i v} :
      ExprChild p c (.setIndex object bracket i v) 2 ⟨c, .expr v⟩

theorem exprChild_of_ofExpr {p : Place} {c : Context} {e : Expr} {i : Nat} {w : Visit}
    (h : ofExpr p c e i = some w) : ExprChild p c e i w := by
  unfold ofExpr at h
  split at h <;> first
    | contradiction
    | (cases h; constructor)
    | exact .argument h
    | exact .element h
    | (obtain ⟨e, rfl, rfl⟩ := Option.map_eq_some_iff.mp h; exact .size)

/-- The children of a statement and their visits. -/
inductive StmtChild (p : Place) (c : Context) : Stmt → Nat → Visit → Prop
  | printed {e} : StmtChild p c (.print e) 0 ⟨c, .expr e⟩
  | expression {e} : StmtChild p c (.expression e) 0 ⟨c, .expr e⟩
  | varInitializer {name e} : StmtChild p c (.varDecl name (some e)) 0
      ⟨c.withScopes (c.scopes.declare name.lexeme true), .expr e⟩
  | letInitializer {name e} : StmtChild p c (.letDecl name e) 0
      ⟨c.withScopes (c.scopes.declare name.lexeme false), .expr e⟩
  | block {body i w} (h : statement (c.push (.block p)) body i = some w) :
      StmtChild p c (.block body) i w
  | condition {condition onTrue onFalse} :
      StmtChild p c (.branch condition onTrue onFalse) 0 ⟨c, .expr condition⟩
  | onTrue {condition onTrue onFalse} :
      StmtChild p c (.branch condition onTrue onFalse) 1 ⟨c, .stmt onTrue⟩
  | onFalse {condition onTrue onFalse} :
      StmtChild p c (.branch condition onTrue (some onFalse)) 2 ⟨c.after onTrue, .stmt onFalse⟩
  | loopCondition {condition body step} :
      StmtChild p c (.whileLoop condition body step) 0 ⟨c, .expr condition⟩
  | loopBody {condition body step} :
      StmtChild p c (.whileLoop condition body step) 1 ⟨c.looping, .stmt body⟩
  | loopStep {condition body step} : StmtChild p c (.whileLoop condition body (some step)) 2
      ⟨c.withScopes (c.looping.after body).scopes, .expr step⟩
  | declared {d} : StmtChild p c (.functionDecl d) 0 ⟨c.declared d, .function .function d⟩
  | superclass {name e ms} :
      StmtChild p c (.classDecl name (some e) ms) 0 ⟨c.superclass name, .expr e⟩
  | method {name e ms i w} (h : method (c.methods p name e) ms i = some w) :
      StmtChild p c (.classDecl name e ms) i w
  | returned {keyword e} : StmtChild p c (.returnWith keyword (some e)) 0 ⟨c, .expr e⟩
  | member {name body i w} (h : statement (c.members p) body i = some w) :
      StmtChild p c (.moduleDecl name body) i w

theorem stmtChild_of_ofStmt {p : Place} {c : Context} {st : Stmt} {i : Nat} {w : Visit}
    (h : ofStmt p c st i = some w) : StmtChild p c st i w := by
  unfold ofStmt at h
  split at h <;> first
    | contradiction
    | (cases h; constructor)
    | exact .block h
    | exact .method h
    | exact .member h
    | (obtain ⟨e, rfl, rfl⟩ := Option.map_eq_some_iff.mp h; constructor)

end Visit

/-! ## Violations -/

/-- A program in which the resolver finds no violation. -/
def Accepted (body : List Stmt) : Prop := (Resolve.program body).2.errors = []

@[simp] theorem Findings.errors_append (f g : Findings) :
    (f ++ g).errors = f.errors ++ g.errors := rfl

@[simp] theorem Findings.errors_nothing : Findings.nothing.errors = [] := rfl

theorem Findings.errors_when {b : Bool} {v : Violation} {t : Token}
    (h : (Findings.when b v t).errors = []) : b = false := by
  cases b with
  | false => rfl
  | true => simp [Findings.when, Findings.violation] at h

namespace Visit

theorem errors_operand {c : Context} {es : List Expr} {i : Nat} {w : Visit}
    (h : operand c es i = some w)
    (he : (Resolve.exprs c.surroundings c.scopes es).2.errors = []) : w.errors = [] := by
  induction es with
  | nil => cases h
  | cons e es ih =>
      simp only [Resolve.exprs, Findings.errors_append, List.append_eq_nil_iff] at he
      simp only [operand] at h
      split at h
      · cases h
        exact he.1
      · exact ih h he.2

theorem errors_method {c : Context} {ds : List FunctionDecl} {i : Nat} {w : Visit}
    (h : method c ds i = some w)
    (he : (Resolve.methods c.surroundings c.scopes ds).2.errors = []) : w.errors = [] := by
  induction ds with
  | nil => cases h
  | cons d ds ih =>
      simp only [Resolve.methods, Findings.errors_append, List.append_eq_nil_iff] at he
      simp only [method] at h
      split at h
      · cases h
        exact he.1
      · exact ih h he.2

theorem errors_statement {c : Context} {sts : List Stmt} {i : Nat} {w : Visit}
    (h : statement c sts i = some w)
    (he : (Resolve.stmts c.surroundings c.scopes sts).2.2.errors = []) : w.errors = [] := by
  induction sts generalizing c with
  | nil => cases h
  | cons st sts ih =>
      simp only [Resolve.stmts, Findings.errors_append, List.append_eq_nil_iff] at he
      simp only [statement] at h
      split at h
      · cases h
        exact he.1
      · exact ih h he.2

theorem errors_ofExpr {p : Place} {c : Context} {e : Expr} {i : Nat} {w : Visit}
    (h : ofExpr p c e i = some w) (he : errors ⟨c, .expr e⟩ = []) : w.errors = [] := by
  cases exprChild_of_ofExpr h with simp only [errors, Resolve.expr, Findings.errors_append,
    List.append_eq_nil_iff] at he
  | grouping | unary | getObject => exact he
  | binaryLeft | logicalLeft | assigned | callee | setValue | indexObject | size => exact he.1
  | binaryRight | logicalRight | setObject | index => exact he.2
  | argument h | element h => exact errors_operand h he.2
  | setIndexObject => exact he.1.1
  | setIndex => exact he.1.2
  | setIndexValue => exact he.2
  | @lambda d =>
      -- the function is inside the scope of its own name
      cases hd : d.name <;> simp only [hd] at he <;>
        simpa only [errors, Context.lambda, Context.push, Context.withScopes, hd] using he

theorem errors_ofStmt {p : Place} {c : Context} {st : Stmt} {i : Nat} {w : Visit}
    (h : ofStmt p c st i = some w) (he : errors ⟨c, .stmt st⟩ = []) : w.errors = [] := by
  cases stmtChild_of_ofStmt h with simp only [errors, Resolve.stmt, Findings.errors_append,
    List.append_eq_nil_iff] at he
  | printed | expression => exact he
  | varInitializer | letInitializer | returned => exact he.2
  | condition | loopCondition => exact he.1.1
  | onTrue | loopBody => exact he.1.2
  | onFalse | loopStep => exact he.2
  | block h => exact errors_statement h he
  | member h => exact errors_statement h he.1
  | @declared d =>
      cases hd : d.name <;> simp only [hd] at he <;>
        simpa only [errors, Context.declared, Context.withScopes, hd] using he.2
  | superclass => exact he.1.2
  | @method name e ms i w h =>
      cases e <;> simp only [Resolve.stmt, Findings.errors_append, List.append_eq_nil_iff] at he <;>
        exact errors_method h he.2

/-- The violations of a child are violations of its parent. -/
theorem errors_child {p : Place} {v w : Visit} {i : Nat} (h : v.child p i = some w)
    (he : v.errors = []) : w.errors = [] := by
  obtain ⟨c, node⟩ := v
  cases node with
  | text body => exact errors_statement h he
  | expr e => exact errors_ofExpr h he
  | stmt st => exact errors_ofStmt h he
  | function kind d =>
      cases d with
      | mk keyword name params body =>
          simp only [errors, Resolve.function, Findings.errors_append,
            List.append_eq_nil_iff] at he
          exact errors_statement h he.2

end Visit

/-- In accepted texts nothing that is visited has a violation. -/
theorem visitAt_errors {texts : List (List Stmt)} (accepted : ∀ body ∈ texts, Accepted body)
    {p : Place} {v : Visit} (h : visitAt texts p = some v) : v.errors = [] :=
  visitAt_induct (P := fun v => v.errors = []) accepted
    (fun _ _ _ _ _ he hc => Visit.errors_child hc he) h

end Lox
