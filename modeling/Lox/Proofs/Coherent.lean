/-
# Coherent machines

A machine is coherent with its trail if every piece of program that it holds is
what the resolver made of the node at the place that the trail says, and is to
run in an environment whose chain goes, construct by construct, through the
scopes that the resolver had on its stack there.  Beside expressions and
statements that are still to run this is asked of functions, wherever a value,
a field, an element or a class holds them: a method is to run one `this` scope
further inside than its own environment.

The second half of coherence is about signals.  A statement that the resolver
visits inside a function has a function body on the stack below it, and one
inside a loop has the body of a loop there, with nothing between that would let
neither through.

Failures are ordinary: none says that a signal escaped, and if the programs came
without depths, none says that a scope is missing.

`Coherent.step` is the one theorem that the others need: a move keeps a machine
coherent.
-/
import Lox.Proofs.Declared
import Lox.Proofs.World

namespace Lox

/-! ## Signals that a stack catches -/

/-- Whether a `return` gets from here to the body of a function. -/
def catchesReturn : List Frame → Bool
  | .functionBody _ :: _ => true
  | .sequence .. :: stack | .loopBody .. :: stack | .moduleBody .. :: stack =>
    catchesReturn stack
  | _ => false

/-- Whether a `break` or a `continue` gets from here to the body of a loop. -/
def catchesLoop : List Frame → Bool
  | .loopBody .. :: _ => true
  | .sequence .. :: stack => catchesLoop stack
  | _ => false

/-- What may leave a statement with these surroundings is caught. -/
structure Catches (s : Surroundings) (stack : List Frame) : Prop where
  returning : s.function ≠ .none → catchesReturn stack = true
  looping : s.inLoop = true → catchesLoop stack = true

/-! ## Pieces of a program -/

section
variable (w : World)

/-- `e` is the expression at `p`, to be evaluated in `env`. -/
def ExprAt (p : Place) (e : Expr) (env : EnvironmentId) : Prop :=
  ∃ c e₀, w.visit p = some ⟨c, .expr e₀⟩ ∧ c.expr e₀ = e ∧ w.sites env = some c.sites

/-- `es` are the last operands of the expression at `p`. -/
def ExprsAt (p : Place) (es : List Expr) (env : EnvironmentId) : Prop :=
  ∃ c es₀, (∀ {i v}, Visit.operand c es₀ i = some v → w.visit (i :: p) = some v) ∧
    c.exprs es₀ = es ∧ w.sites env = some c.sites

/-- `st` is the statement at `p`, to be executed in `env`. -/
def StmtAt (p : Place) (st : Stmt) (env : EnvironmentId) (stack : List Frame) : Prop :=
  ∃ c st₀, w.visit p = some ⟨c, .stmt st₀⟩ ∧ c.stmt st₀ = st ∧ w.sites env = some c.sites ∧
    Catches c.surroundings stack

/-- `sts` are the last statements of the construct at `p`. -/
def StmtsAt (p : Place) (sts : List Stmt) (env : EnvironmentId) (stack : List Frame) : Prop :=
  ∃ c sts₀, (∀ {i v}, Visit.statement c sts₀ i = some v → w.visit (i :: p) = some v) ∧
    c.stmts sts₀ = sts ∧ w.sites env = some c.sites ∧ Catches c.surroundings stack

/-- A loop stands at `p`. -/
structure LoopAt (p : Place) (condition : Expr) (body : Stmt) (step : Option Expr)
    (env : EnvironmentId) (stack : List Frame) : Prop where
  test : ExprAt w (0 :: p) condition env
  once : StmtAt w (1 :: p) body env (.loopBody condition body step env :: stack)
  next : ∀ e, step = some e → ExprAt w (2 :: p) e env

/-- `ds` are the last methods of the class at `p`, to be made in `env`. -/
def MethodsAt (p : Place) (ds : List FunctionDecl) (env : EnvironmentId) : Prop :=
  ∃ c L ds₀, (∀ {i v}, Visit.method c ds₀ i = some v → w.visit (i :: p) = some v) ∧
    c.decls ds₀ = ds ∧ c.sites = .receiver p :: L ∧ w.sites env = some L

/-! ## Failures -/

/-- The programs came without depths. -/
def World.Fresh : Prop := ∀ p v, w.visit p = some v → v.Fresh

/-- A fault that a running program can have. -/
def Fault.Ordinary : Fault → Prop
  | .escaped _ => False
  | .noScopeAt _ _ => ¬ w.Fresh
  | _ => True

/-- A result with the property `P`, or an ordinary failure. -/
def Expected {α : Type} (P : α → Prop) : Except RuntimeError α → Prop
  | .ok a => P a
  | .error e => e.fault.Ordinary w

/-! ## Values -/

/-- The body of `f` is to run inside the constructs `L`, in a scope of its own. -/
def RunsIn (f : Closure) (q : Place) (L : List Site) : Prop :=
  w.code f.identity = some q ∧
  ∃ c kind d, w.visit q = some ⟨c, .function kind d⟩ ∧ c.function kind d = f.declaration ∧
    c.sites = L

/-- A function that can be called. -/
def ClosureOk (f : Closure) : Prop :=
  ∃ q L, RunsIn w f q L ∧ w.sites f.environment = some L

/-- A method that is still to be bound to an instance. -/
def MethodOk (f : Closure) : Prop :=
  ∃ q i L, RunsIn w f (i :: q) (.receiver q :: L) ∧ w.sites f.environment = some L

def ClassOk (c : Class) : Prop :=
  ∀ n f, c.findMethod? n = some f → MethodOk w f

def ValueOk : Value → Prop
  | .callable (.function f) => ClosureOk w f
  | .callable (.class c) => ClassOk w c
  | .instance i => ClassOk w i.ofClass
  | _ => True

def SignalOk (stack : List Frame) : Signal → Prop
  | .failure e => e.fault.Ordinary w
  | .returning v => ValueOk w v ∧ catchesReturn stack = true
  | .breaking | .continuing => catchesLoop stack = true

/-! ## Machines -/

/-- A frame for the node at `p`, above the frames `stack`. -/
def FrameOk (p : Place) (stack : List Frame) : Frame → Prop
  | .binaryRight _ right env => ExprAt w (1 :: p) right env
  | .binary left _ => ValueOk w left
  | .logical _ right env => ExprAt w (1 :: p) right env
  | .assign name depth env =>
    ∃ c v₀ depth₀, w.visit p = some ⟨c, .expr (.assign name v₀ depth₀)⟩ ∧
      (c.scopes.refer name depth₀ true).1 = depth ∧ w.sites env = some c.sites
  | .callee _ es env => ExprsAt w p es env
  | .argument callee earlier _ later env =>
    ValueOk w callee ∧ (∀ v ∈ earlier, ValueOk w v) ∧ ExprsAt w p later env
  | .setObject _ e env => ExprAt w (1 :: p) e env
  | .arraySize _ es env => ExprsAt w p es env
  | .arrayElement _ _ earlier later env =>
    (∀ v ∈ earlier, ValueOk w v) ∧ ExprsAt w p later env
  | .indexObject _ i env => ExprAt w (1 :: p) i env
  | .setIndexObject _ i e env => ExprAt w (1 :: p) i env ∧ ExprAt w (2 :: p) e env
  | .setIndexAt _ _ e env => ExprAt w (2 :: p) e env
  | .varDecl name env =>
    ∃ c e₀, w.visit p = some ⟨c, .stmt (.varDecl name e₀)⟩ ∧ w.sites env = some c.sites
  | .letDecl name env =>
    ∃ c e₀, w.visit p = some ⟨c, .stmt (.letDecl name e₀)⟩ ∧ w.sites env = some c.sites
  | .branch onTrue onFalse env =>
    StmtAt w (1 :: p) onTrue env stack ∧
      ∀ st, onFalse = some st → StmtAt w (2 :: p) st env stack
  | .loopTest condition body step env | .loopStep condition body step env
  | .loopBody condition body step env => LoopAt w p condition body step env stack
  | .superclass name _ ms env =>
    ∃ c e₀ ms₀, w.visit p = some ⟨c, .stmt (.classDecl name (some e₀) ms₀)⟩ ∧
      (c.methods p name (some e₀)).decls ms₀ = ms ∧ w.sites env = some c.sites
  | .returnWith => catchesReturn stack = true
  | .constructed i => ClassOk w i.ofClass
  | .sequence later env => StmtsAt w p later env stack
  | .moduleBody name _ env =>
    ∃ c body₀, w.visit p = some ⟨c, .stmt (.moduleDecl name body₀)⟩ ∧
      w.sites env = some c.sites
  | .functionBody f => ClosureOk w f
  | .unary _ | .get _ | .setField .. | .setMember .. | .index .. | .setIndex .. | .print
  | .discard | .activeCall _ => True

/-- Frames and the places that they were pushed for. -/
def StackOk : List Frame → List Place → Prop
  | [], [] => True
  | frame :: stack, p :: ps => FrameOk w p stack frame ∧ StackOk stack ps
  | _, _ => False

def ControlOk (p : Place) (stack : List Frame) : Control → Prop
  | .evaluate e env => ExprAt w p e env
  | .execute st env => StmtAt w p st env stack
  | .value v => ValueOk w v
  | .done => True
  | .unwind signal => SignalOk w stack signal

end

/-- A store that holds only what may run, in environments that are linked
outwards. -/
structure StoreOk (texts : List (List Stmt)) (t : Trail) (s : Store) : Prop where
  linked : s.Linked
  rooted : s.Rooted
  origins : t.origins.length = s.environments.size
  code : t.code.length = s.identities
  outermost : (t.world texts s).sites State.globals = some [.program]
  bindings : ∀ {e n v}, s.getLocal? e n = some v → ValueOk (t.world texts s) v
  fields : ∀ {i n v}, (s.fieldsOf i).get? n = some v → ValueOk (t.world texts s) v
  arrays : ∀ {a i v}, s.element? a i = some v → ValueOk (t.world texts s) v

/-- Where the machine is makes no difference to its store. -/
theorem StoreOk.moved {texts : List (List Stmt)} {t : Trail} {s : Store}
    (h : StoreOk texts t s) {here : Place} {frames : List Place} :
    StoreOk texts { t with here := here, frames := frames } s :=
  ⟨h.linked, h.rooted, h.origins, h.code, h.outermost, h.bindings, h.fields, h.arrays⟩

/-- A machine that is where its trail says. -/
structure Coherent (texts : List (List Stmt)) (t : Trail) (m : Machine) : Prop where
  control : ControlOk (t.world texts m.state.store) t.here m.stack m.control
  stack : StackOk (t.world texts m.state.store) m.stack t.frames
  store : StoreOk texts t m.state.store

/-! ## What is coherent stays so in a larger world -/

section
variable {w w' : World} (h : w ≤ w')
include h

theorem Fault.Ordinary.mono {fault : Fault} (hf : fault.Ordinary w) : fault.Ordinary w' := by
  cases fault with
  | escaped => exact hf
  | noScopeAt => exact fun hfresh => hf fun p v hv => hfresh p v (h.visit hv)
  | _ => trivial

theorem ExprAt.mono {p : Place} {e : Expr} {env : EnvironmentId} :
    ExprAt w p e env → ExprAt w' p e env
  | ⟨c, e₀, hv, he, hs⟩ => ⟨c, e₀, h.visit hv, he, h.sites hs⟩

theorem ExprsAt.mono {p : Place} {es : List Expr} {env : EnvironmentId} :
    ExprsAt w p es env → ExprsAt w' p es env
  | ⟨c, es₀, hv, he, hs⟩ => ⟨c, es₀, fun hi => h.visit (hv hi), he, h.sites hs⟩

theorem StmtAt.mono {p : Place} {st : Stmt} {env : EnvironmentId} {stack : List Frame} :
    StmtAt w p st env stack → StmtAt w' p st env stack
  | ⟨c, st₀, hv, he, hs, hc⟩ => ⟨c, st₀, h.visit hv, he, h.sites hs, hc⟩

theorem StmtsAt.mono {p : Place} {sts : List Stmt} {env : EnvironmentId}
    {stack : List Frame} : StmtsAt w p sts env stack → StmtsAt w' p sts env stack
  | ⟨c, sts₀, hv, he, hs, hc⟩ => ⟨c, sts₀, fun hi => h.visit (hv hi), he, h.sites hs, hc⟩

theorem LoopAt.mono {p : Place} {condition : Expr} {body : Stmt} {step : Option Expr}
    {env : EnvironmentId} {stack : List Frame} (hl : LoopAt w p condition body step env stack) :
    LoopAt w' p condition body step env stack :=
  ⟨hl.test.mono h, hl.once.mono h, fun e he => (hl.next e he).mono h⟩

theorem MethodsAt.mono {p : Place} {ds : List FunctionDecl} {env : EnvironmentId} :
    MethodsAt w p ds env → MethodsAt w' p ds env
  | ⟨c, L, ds₀, hv, he, hc, hs⟩ => ⟨c, L, ds₀, fun hi => h.visit (hv hi), he, hc, h.sites hs⟩

theorem RunsIn.mono {f : Closure} {q : Place} {L : List Site} :
    RunsIn w f q L → RunsIn w' f q L
  | ⟨hq, c, kind, d, hv, hd, hc⟩ => ⟨h.code hq, c, kind, d, h.visit hv, hd, hc⟩

theorem ClosureOk.mono {f : Closure} : ClosureOk w f → ClosureOk w' f
  | ⟨q, L, hr, hs⟩ => ⟨q, L, hr.mono h, h.sites hs⟩

theorem MethodOk.mono {f : Closure} : MethodOk w f → MethodOk w' f
  | ⟨q, i, L, hr, hs⟩ => ⟨q, i, L, hr.mono h, h.sites hs⟩

theorem ClassOk.mono {c : Class} (hc : ClassOk w c) : ClassOk w' c :=
  fun n f hf => (hc n f hf).mono h

theorem ValueOk.mono {v : Value} (hv : ValueOk w v) : ValueOk w' v := by
  unfold ValueOk at hv ⊢
  split
  · exact ClosureOk.mono h hv
  · exact ClassOk.mono h hv
  · exact ClassOk.mono h hv
  · trivial

theorem FrameOk.mono {p : Place} {stack : List Frame} {frame : Frame}
    (hf : FrameOk w p stack frame) : FrameOk w' p stack frame := by
  cases frame with
  | binaryRight | logical | setObject | indexObject | setIndexAt => exact ExprAt.mono h hf
  | callee | arraySize => exact ExprsAt.mono h hf
  | binary => exact ValueOk.mono h hf
  | assign =>
      obtain ⟨c, v₀, d₀, hv, hd, hs⟩ := hf
      exact ⟨c, v₀, d₀, h.visit hv, hd, h.sites hs⟩
  | argument => exact ⟨hf.1.mono h, fun v hv => (hf.2.1 v hv).mono h, hf.2.2.mono h⟩
  | arrayElement => exact ⟨fun v hv => (hf.1 v hv).mono h, hf.2.mono h⟩
  | setIndexObject => exact ⟨hf.1.mono h, hf.2.mono h⟩
  | varDecl | letDecl | moduleBody =>
      obtain ⟨c, x, hv, hs⟩ := hf
      exact ⟨c, x, h.visit hv, h.sites hs⟩
  | branch => exact ⟨hf.1.mono h, fun st hst => (hf.2 st hst).mono h⟩
  | loopTest | loopStep | loopBody => exact LoopAt.mono h hf
  | superclass =>
      obtain ⟨c, e₀, ms₀, hv, hm, hs⟩ := hf
      exact ⟨c, e₀, ms₀, h.visit hv, hm, h.sites hs⟩
  | constructed => exact ClassOk.mono h hf
  | sequence => exact StmtsAt.mono h hf
  | functionBody => exact ClosureOk.mono h hf
  | unary | get | setField | setMember | index | setIndex | print | discard | activeCall
  | returnWith => exact hf

theorem StackOk.mono : ∀ {stack : List Frame} {ps : List Place},
    StackOk w stack ps → StackOk w' stack ps
  | [], [], _ => trivial
  | _ :: _, _ :: _, hs => ⟨hs.1.mono h, hs.2.mono⟩

end

end Lox
