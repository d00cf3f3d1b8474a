/-
# The trail of a machine

A machine holds pieces of its programs, but not the places that they stand at.
A trail keeps them beside the machine, and with them why everything with a
number was made:

    here       the place of the node that is looked at
    frames     for each frame, the place of the node that it was pushed for
    origins    for each environment, the construct that it was made for
    code       for each identity, the place of the declaration it came from

`Trail.step` is written after `Machine.step`, rule by rule, and only reads the
machine: a machine runs the same with a trail and without.  `Moment` is a machine
at some move of some run, with the texts and the trail so far; texts are launched
one after the other, each in the state that the one before left.
-/
import Lox.Proofs.Visit
import Lox.Interpreter

namespace Lox

structure Trail where
  here : Place
  frames : List Place
  origins : List Site
  code : List Place

namespace Trail

/-- The trail of a state in which nothing has run. -/
def initial : Trail := ⟨[], [], [.program], []⟩

/-! ## Notes about what is made -/

/-- An environment is made for a construct. -/
def make (t : Trail) (site : Site) : Trail := { t with origins := t.origins ++ [site] }

/-- A function or class is made from the declaration at `p`. -/
def declare (t : Trail) (p : Place) : Trail := { t with code := t.code ++ [p] }

/-- Where a function was declared. -/
def codeOf (t : Trail) (f : Closure) : Place := t.code[f.identity]?.getD []

/-- A method, whose place is inside its class, is bound to an instance. -/
def bind (t : Trail) (m : Closure) : Trail :=
  (t.make (.receiver (t.codeOf m).tail)).declare (t.codeOf m)

/-! ## Notes about where the machine is -/

/-- Pushes a frame for the node at `p`. -/
def push (t : Trail) (p : Place) : Trail := { t with frames := p :: t.frames }

/-- Goes to a child for good. -/
def goTo (t : Trail) (i : Nat) : Trail := { t with here := i :: t.here }

/-- Goes to a child, leaving a frame. -/
def await (t : Trail) (i : Nat) : Trail := (t.push t.here).goTo i

/-- Takes up the node of the top frame, which is dropped. -/
def pop (t : Trail) : Trail :=
  { t with here := t.frames.headD [], frames := t.frames.tail }

/-! ## Calls -/

def enter (f : Closure) (arguments : List Value) (s : Store) (t : Trail) : Trail :=
  let (env, store) := s.child f.environment
  let t := t.make (.call (t.codeOf f))
  match (Machine.bindArguments store env f.declaration.params arguments).2 with
  | none => (t.push (t.codeOf f)).push (t.codeOf f)
  | some _ => t

def construct (c : Class) (arguments : List Value) (s : Store) (t : Trail) : Trail :=
  match c.findMethod? FunctionDecl.initializerName with
  | some init =>
    let (i, s) := s.newInstance c
    let (f, s) := s.bindMethod init i
    ((t.bind init).push t.here).enter f arguments s
  | none => t

def invoke (c : Callable) (arguments : List Value) (s : Store) (t : Trail) : Trail :=
  match c with
  | .function f => t.enter f arguments s
  | .class c => t.construct c arguments s
  | .native _ => t

def apply (callee : Value) (arguments : List Value) (s : State) (t : Trail) : Trail :=
  match callee with
  | .callable c =>
    if c.arity ≠ arguments.length then t
    else if maxCallDepth ≤ s.callDepth then t
    else (t.push t.here).invoke c arguments s.store
  | _ => t

def applyNext (callee : Value) (earlier : List Value) (later : List Expr) (s : State)
    (t : Trail) : Trail :=
  match later with
  | _ :: es => t.await (es.length + 1)
  | [] => t.apply callee earlier.reverse s

/-! ## Expressions -/

def arrayNext (later : List Expr) (t : Trail) : Trail :=
  match later with
  | _ :: es => t.await (es.length + 1)
  | [] => t

def lambda (d : FunctionDecl) (t : Trail) : Trail :=
  match d.name with
  | some _ => (t.make (.selfName t.here)).declare (0 :: t.here)
  | none => t.declare (0 :: t.here)

def evaluate (e : Expr) (env : EnvironmentId) (s : State) (t : Trail) : Trail :=
  match e with
  | .grouping _ => t.goTo 0
  | .unary .. | .binary .. | .logical .. | .assign .. | .call .. | .get .. | .set .. => t.await 0
  | .index .. | .setIndex .. | .array _ (some _) _ => t.await 0
  | .array _ none es => t.arrayNext es
  | .superMethod keyword method depth =>
    match Machine.superMethod s.store keyword method depth env with
    | .ok (m, _) => t.bind m
    | .error _ => t
  | .function d => t.lambda d
  | .literal _ | .variable .. | .receiver .. => t

/-! ## Statements -/

def loopNext (step : Option Expr) (t : Trail) : Trail :=
  match step with
  | some _ => t.await 2
  | none => t.await 0

def makeMethods : List FunctionDecl → Trail → Trail
  | [], t => t
  | d :: ds, t =>
    match d.name with
    | some _ => makeMethods ds (t.declare ((ds.length + 1) :: t.here))
    | none => makeMethods ds t

def defineClass (superclass : Option Class) (ms : List FunctionDecl) (t : Trail) : Trail :=
  let t := match superclass with
    | some _ => t.make (.superclass t.here)
    | none => t
  let t := t.makeMethods ms
  t.declare t.here

def execute (st : Stmt) (t : Trail) : Trail :=
  match st with
  | .print _ | .expression _ | .varDecl _ (some _) | .letDecl .. | .branch .. => t.await 0
  | .whileLoop .. | .classDecl _ (some _) _ | .returnWith _ (some _) => t.await 0
  | .block _ => (t.make (.block t.here)).push t.here
  | .functionDecl _ => t.declare (0 :: t.here)
  | .classDecl _ none ms => t.defineClass none ms
  | .moduleDecl .. => ((t.make (.members t.here)).push t.here).push t.here
  | .varDecl _ none | .returnWith _ none | .breakLoop _ | .continueLoop _ => t

/-! ## Frames -/

def resume (v : Value) (frame : Frame) (s : State) (t : Trail) : Trail :=
  match frame with
  | .binaryRight .. => t.await 1
  | .logical op _ _ => if decidedBy op v then t else t.goTo 1
  | .callee _ es _ => t.applyNext v [] es s
  | .argument callee earlier _ later _ => t.applyNext callee (v :: earlier) later s
  | .get name =>
    match v with
    | .instance i =>
      match s.store.property? i name.lexeme with
      | some (.method m) => t.bind m
      | _ => t
    | _ => t
  | .setObject .. =>
    match v with
    | .instance _ | .module _ => t.await 1
    | _ => t
  | .arraySize bracket es _ =>
    match arraySize v bracket with
    | .ok _ => t.arrayNext es
    | .error _ => t
  | .arrayElement _ _ _ later _ => t.arrayNext later
  | .indexObject bracket _ _ =>
    match asArray v bracket with
    | .ok _ => t.await 1
    | .error _ => t
  | .setIndexObject bracket _ _ _ =>
    match asArray v bracket with
    | .ok _ => t.await 1
    | .error _ => t
  | .setIndexAt a bracket _ _ =>
    match asIndex v (s.store.length a) bracket with
    | .ok _ => t.await 2
    | .error _ => t
  | .branch _ onFalse _ =>
    if v.isTruthy then t.goTo 1
    else match onFalse with
      | some _ => t.goTo 2
      | none => t
  | .loopTest .. => if v.isTruthy then t.await 1 else t
  | .loopStep .. => t.await 0
  | .superclass _ _ ms _ =>
    match v with
    | .callable (.class c) => t.defineClass (some c) ms
    | _ => t
  | _ => t

def proceed (frame : Frame) (t : Trail) : Trail :=
  match frame with
  | .sequence (_ :: later) _ => t.await later.length
  | .loopBody _ _ step _ => t.loopNext step
  | _ => t

def unwind (signal : Signal) (frame : Frame) (t : Trail) : Trail :=
  match frame, signal with
  | .loopBody _ _ step _, .continuing => t.loopNext step
  | _, _ => t

/-! ## The trail as a whole -/

/-- The trail after one move of the machine. -/
def step (m : Machine) (t : Trail) : Trail :=
  match m with
  | ⟨.evaluate e env, _, s⟩ => t.evaluate e env s
  | ⟨.execute st _, _, _⟩ => t.execute st
  | ⟨.value v, frame :: _, s⟩ => t.pop.resume v frame s
  | ⟨.done, frame :: _, _⟩ => t.pop.proceed frame
  | ⟨.unwind signal, frame :: _, _⟩ => t.pop.unwind signal frame
  | ⟨_, [], _⟩ => t

/-- The trail of a machine that is about to run the text of the number `r`. -/
def starting (r : Nat) (t : Trail) : Trail := { t with frames := [[r]] }

end Trail

end Lox
