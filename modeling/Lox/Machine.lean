/-
# The machine

A running program is a machine in one of five conditions: about to evaluate an
expression, about to execute a statement, holding a value, done with a
statement, or unwinding.  What is to be done afterwards stands on a stack of
frames, the innermost first.

    evaluate e in env        look at `e`; push a frame for what its operand is for
    execute  s in env        look at `s`; likewise
    value    v               hand `v` to the top frame
    done                     let the top frame go on
    unwind   signal          offer the signal to the top frame, which as a rule
                             is dropped; calls catch `return`, loops catch
                             `break` and `continue`

`Machine.step` is one move and does not recurse; a machine whose stack is empty
and which has nothing left to look at has halted and moves no more.  How deep a
program nests is the length of the stack, so no program is too deep for it;
that calls nest no deeper than `maxCallDepth` is a rule of the language.
-/
import Lox.Operator
import Lox.State

namespace Lox

/-- How many calls may be active at once. -/
def maxCallDepth : Nat := 5000

/-- Why a program leaves the place where it is. -/
inductive Signal where
  | failure (e : RuntimeError)
  | returning (v : Value)
  | breaking
  | continuing

/-- What is to be done once something is there: the value of an expression, the
end of a call or the end of statements. -/
inductive Frame where
  -- waiting for the value of an expression
  | unary (op : Token)
  | binaryRight (op : Token) (right : Expr) (env : EnvironmentId)
  | binary (left : Value) (op : Token)
  | logical (op : Token) (right : Expr) (env : EnvironmentId)
  | assign (name : Token) (depth : Option Nat) (env : EnvironmentId)
  | callee (paren : Token) (arguments : List Expr) (env : EnvironmentId)
  | argument (callee : Value) (earlier : List Value) (paren : Token) (later : List Expr)
      (env : EnvironmentId)
  | get (name : Token)
  | setObject (name : Token) (value : Expr) (env : EnvironmentId)
  | setField (i : Instance) (name : Token)
  | setMember (m : Module) (name : Token)
  | arraySize (bracket : Token) (elements : List Expr) (env : EnvironmentId)
  | arrayElement (bracket : Token) (size : Option Nat) (earlier : List Value)
      (later : List Expr) (env : EnvironmentId)
  | indexObject (bracket : Token) (index : Expr) (env : EnvironmentId)
  | index (a : ArrayId) (bracket : Token)
  | setIndexObject (bracket : Token) (index value : Expr) (env : EnvironmentId)
  | setIndexAt (a : ArrayId) (bracket : Token) (value : Expr) (env : EnvironmentId)
  | setIndex (a : ArrayId) (i : Nat) (bracket : Token)
  | print
  | discard
  | varDecl (name : Token) (env : EnvironmentId)
  | letDecl (name : Token) (env : EnvironmentId)
  | branch (onTrue : Stmt) (onFalse : Option Stmt) (env : EnvironmentId)
  | loopTest (condition : Expr) (body : Stmt) (step : Option Expr) (env : EnvironmentId)
  | loopStep (condition : Expr) (body : Stmt) (step : Option Expr) (env : EnvironmentId)
  | superclass (name site : Token) (methods : List FunctionDecl) (env : EnvironmentId)
  | returnWith
  -- waiting for a call
  | constructed (i : Instance)
  | activeCall (paren : Token)
  -- waiting for statements
  | sequence (later : List Stmt) (env : EnvironmentId)
  | loopBody (condition : Expr) (body : Stmt) (step : Option Expr) (env : EnvironmentId)
  | moduleBody (name : Token) (members env : EnvironmentId)
  | functionBody (f : Closure)

/-- The condition of a machine. -/
inductive Control where
  | evaluate (e : Expr) (env : EnvironmentId)
  | execute (s : Stmt) (env : EnvironmentId)
  | value (v : Value)
  | done
  | unwind (signal : Signal)

/-- A running program. -/
structure Machine where
  control : Control
  stack : List Frame
  state : State

namespace Machine

/-! ## Moves that leave the stack below alone -/

/-- Fails. -/
@[inline] def fail (e : RuntimeError) (stack : List Frame) (s : State) : Machine :=
  ⟨.unwind (.failure e), stack, s⟩

/-- Hands on a value, or fails. -/
@[inline] def yield (r : Except RuntimeError Value) (stack : List Frame) (s : State) : Machine :=
  match r with
  | .ok v => ⟨.value v, stack, s⟩
  | .error e => fail e stack s

/-- Hands on a value that took a change of the store, or fails. -/
@[inline] def yieldWith (v : Value) (r : Except RuntimeError Store) (stack : List Frame)
    (s : State) : Machine :=
  match r with
  | .ok store => ⟨.value v, stack, { s with store := store }⟩
  | .error e => fail e stack s

/-- Is done with a statement that took a change of the store, or fails. -/
@[inline] def doneWith (r : Except RuntimeError Store) (stack : List Frame) (s : State) : Machine :=
  match r with
  | .ok store => ⟨.done, stack, { s with store := store }⟩
  | .error e => fail e stack s

/-- What a name stands for: `depth` steps outwards, or among the globals. -/
def lookUp (s : Store) (name : Token) (depth : Option Nat) (env : EnvironmentId) :
    Except RuntimeError Value :=
  match depth with
  | some d => s.accessAt env d name
  | none => s.access State.globals name

/-- Changes what a name stands for: `depth` steps outwards, or among the
globals. -/
@[inline] def change (s : Store) (name : Token) (depth : Option Nat) (env : EnvironmentId)
    (v : Value) : Except RuntimeError Store :=
  match depth with
  | some d => s.assignAt env d name v
  | none => s.assign State.globals name v

/-! ## Calls -/

/-- Adds the parameters of a function to the environment of its call, up to one
that is there already.  Missing arguments leave parameters out, further ones
are dropped. -/
def bindArguments (s : Store) (env : EnvironmentId) :
    List Token → List Value → Store × Option RuntimeError
  | p :: ps, v :: vs =>
    match s.define env p v with
    | .ok s => bindArguments s env ps vs
    | .error e => (s, some e)
  | _, _ => (s, none)

/-- Enters the body of a function, in a new environment inside the one that the
function was made in. -/
def enter (f : Closure) (arguments : List Value) (stack : List Frame) (s : State) : Machine :=
  let (env, store) := s.store.child f.environment
  match bindArguments store env f.declaration.params arguments with
  | (store, none) =>
    ⟨.done, .sequence f.declaration.body env :: .functionBody f :: stack, { s with store := store }⟩
  | (store, some e) => fail e stack { s with store := store }

/-- Makes an instance and has its initializer run on it, if there is one. -/
def construct (c : Class) (arguments : List Value) (stack : List Frame) (s : State) : Machine :=
  let (i, store) := s.store.newInstance c
  match c.findMethod? FunctionDecl.initializerName with
  | some init =>
    let (f, store) := store.bindMethod init i
    enter f arguments (.constructed i :: stack) { s with store := store }
  | none => ⟨.value (.instance i), stack, { s with store := store }⟩

/-- Calls what can be called, however many arguments there are. -/
def invoke (c : Callable) (arguments : List Value) (stack : List Frame) (s : State) : Machine :=
  let s := s.note (.called c arguments.length)
  match c with
  | .function f => enter f arguments stack s
  | .class c => construct c arguments stack s
  | .native n =>
    yield ((n.apply s.now s.store arguments).mapError .unplaced) stack s.tick

/-- Calls a value from a call expression: it must be callable, take as many
arguments, and not be one call too deep. -/
def apply (callee : Value) (arguments : List Value) (paren : Token) (stack : List Frame)
    (s : State) : Machine :=
  match callee with
  | .callable c =>
    if c.arity ≠ arguments.length then
      fail (.blaming paren (.wrongArity c.arity arguments.length)) stack s
    else if maxCallDepth ≤ s.callDepth then fail (.blaming paren .stackOverflow) stack s
    else invoke c arguments (.activeCall paren :: stack) { s with callDepth := s.callDepth + 1 }
  | _ => fail (.blaming paren .notCallable) stack s

/-- Goes on with the arguments of a call, `earlier` ones (the latest first)
having their values. -/
def applyNext (callee : Value) (earlier : List Value) (paren : Token) (later : List Expr)
    (env : EnvironmentId) (stack : List Frame) (s : State) : Machine :=
  match later with
  | e :: es => ⟨.evaluate e env, .argument callee earlier paren es env :: stack, s⟩
  | [] => apply callee earlier.reverse paren stack s

/-- What a call of `f` yields: an initializer always yields its instance. -/
def result (f : Closure) (v : Value) (s : Store) : Except RuntimeError Value :=
  if f.isInitializer then
    s.accessAt f.environment 0 (.implicitAt Store.receiverName f.declaration.keyword)
  else .ok v

/-! ## Expressions -/

/-- Goes on with the elements of an array, `earlier` ones (the latest first)
having their values. -/
def arrayNext (bracket : Token) (size : Option Nat) (earlier : List Value) (later : List Expr)
    (env : EnvironmentId) (stack : List Frame) (s : State) : Machine :=
  match later with
  | e :: es => ⟨.evaluate e env, .arrayElement bracket size earlier es env :: stack, s⟩
  | [] =>
    match arrayElements size earlier.reverse bracket with
    | .ok elements =>
      let (a, store) := s.store.newArray elements
      ⟨.value (.array a), stack, { s with store := store }⟩
    | .error e => fail e stack s

/-- The value of a lambda; one with a name knows itself by it. -/
def lambda (d : FunctionDecl) (env : EnvironmentId) (stack : List Frame) (s : State) : Machine :=
  match d.name with
  | some name =>
    let (scope, store) := s.store.child env
    let (f, store) := store.newClosure d scope false
    let s := { s with store := store }
    let v := Value.callable (.function f)
    yieldWith v (s.store.defineReadOnly scope name v) stack s
  | none =>
    let (f, store) := s.store.newClosure d env false
    ⟨.value (.callable (.function f)), stack, { s with store := store }⟩

/-- The name under which a method knows its superclass. -/
def superName : String := "super"

/-- The superclass that `super` stands for. -/
def superclassAt (s : Store) (keyword : Token) (depth : Nat) (env : EnvironmentId) :
    Except RuntimeError Class :=
  match s.accessAt env depth keyword with
  | .ok (.callable (.class c)) => .ok c
  | .ok _ => .error (.blaming keyword .superclassNotAClass)
  | .error e => .error e

/-- The instance for which `super` is used; it is known one scope further
inside. -/
def receiverAt (s : Store) (keyword : Token) (depth : Nat) (env : EnvironmentId) :
    Except RuntimeError Instance :=
  match s.accessAt env (depth - 1) (.implicitAt Store.receiverName keyword) with
  | .ok (.instance i) => .ok i
  | .ok _ => .error (.blaming keyword .receiverNotAnInstance)
  | .error e => .error e

/-- A method of the superclass and the instance to bind it to. -/
def superMethod (s : Store) (keyword method : Token) (depth : Option Nat)
    (env : EnvironmentId) : Except RuntimeError (Closure × Instance) :=
  match depth with
  | none => .error (.blaming keyword .unresolvedSuper)
  | some d =>
    match superclassAt s keyword d env with
    | .error e => .error e
    | .ok c =>
      match receiverAt s keyword d env with
      | .error e => .error e
      | .ok i =>
        match c.findMethod? method.lexeme with
        | some m => .ok (m, i)
        | none => .error (.blaming method (.undefinedProperty method.lexeme))

/-- Looks at an expression. -/
def evaluate (e : Expr) (env : EnvironmentId) (stack : List Frame) (s : State) : Machine :=
  match e with
  | .literal v => ⟨.value (.ofLiteral v), stack, s⟩
  | .grouping e => ⟨.evaluate e env, stack, s⟩
  | .unary op e => ⟨.evaluate e env, .unary op :: stack, s⟩
  | .binary l op r => ⟨.evaluate l env, .binaryRight op r env :: stack, s⟩
  | .logical l op r => ⟨.evaluate l env, .logical op r env :: stack, s⟩
  | .variable name depth => yield (lookUp s.store name depth env) stack s
  | .assign name e depth => ⟨.evaluate e env, .assign name depth env :: stack, s⟩
  | .call callee paren es => ⟨.evaluate callee env, .callee paren es env :: stack, s⟩
  | .get object name => ⟨.evaluate object env, .get name :: stack, s⟩
  | .set object name e => ⟨.evaluate object env, .setObject name e env :: stack, s⟩
  | .receiver keyword depth => yield (lookUp s.store keyword depth env) stack s
  | .superMethod keyword method depth =>
    match superMethod s.store keyword method depth env with
    | .ok (m, i) =>
      let (f, store) := s.store.bindMethod m i
      ⟨.value (.callable (.function f)), stack, { s with store := store }⟩
    | .error err => fail err stack s
  | .function d => lambda d env stack s
  | .array bracket (some size) es => ⟨.evaluate size env, .arraySize bracket es env :: stack, s⟩
  | .array bracket none es => arrayNext bracket none [] es env stack s
  | .index object bracket i => ⟨.evaluate object env, .indexObject bracket i env :: stack, s⟩
  | .setIndex object bracket i e =>
    ⟨.evaluate object env, .setIndexObject bracket i e env :: stack, s⟩

/-! ## Statements -/

/-- Runs a loop once more: looks at its condition. -/
def loop (condition : Expr) (body : Stmt) (step : Option Expr) (env : EnvironmentId)
    (stack : List Frame) (s : State) : Machine :=
  ⟨.evaluate condition env, .loopTest condition body step env :: stack, s⟩

/-- Ends one round of a loop: looks at its step, if there is one. -/
def loopNext (condition : Expr) (body : Stmt) (step : Option Expr) (env : EnvironmentId)
    (stack : List Frame) (s : State) : Machine :=
  match step with
  | some e => ⟨.evaluate e env, .loopStep condition body step env :: stack, s⟩
  | none => loop condition body step env stack s

/-- Makes the methods of a class, all in the environment `env`; of two with the
same name the later one counts. -/
def makeMethods (s : Store) (env : EnvironmentId) :
    Table Closure → List FunctionDecl → Table Closure × Store
  | table, [] => (table, s)
  | table, d :: ds =>
    match d.name with
    | some name =>
      let (f, s) := s.newClosure d env d.isInitializer
      makeMethods s env (table.set name.lexeme f) ds
    | none => makeMethods s env table ds

/-- Makes a class and defines its name.  The methods of a class with a
superclass are made in one more environment, which holds the superclass. -/
def defineClass (name : Token) (superclass : Option Class) (ms : List FunctionDecl)
    (env : EnvironmentId) (stack : List Frame) (s : State) : Machine :=
  let (scope, store) := match superclass with
    | some c => s.store.childWith env superName (.callable (.class c))
    | none => (env, s.store)
  let (table, store) := makeMethods store scope [] ms
  let (identity, store) := store.newIdentity
  let c := Class.mk identity name superclass table
  let s := { s with store := store }.note (.classDefined c)
  doneWith (s.store.define env name (.callable (.class c))) stack s

/-- Prints a value and a newline. -/
def printValue (v : Value) (stack : List Frame) (s : State) : Machine :=
  match s.output.writeAll (s.store.pieces v ++ ["\n"]) with
  | (output, none) => ⟨.done, stack, { s with output := output }⟩
  | (output, some reason) => fail (.unplaced (.notWritten reason)) stack { s with output := output }

/-- Looks at a statement. -/
def execute (st : Stmt) (env : EnvironmentId) (stack : List Frame) (s : State) : Machine :=
  match st with
  | .print e => ⟨.evaluate e env, .print :: stack, s⟩
  | .expression e => ⟨.evaluate e env, .discard :: stack, s⟩
  | .varDecl name (some e) => ⟨.evaluate e env, .varDecl name env :: stack, s⟩
  | .varDecl name none => doneWith (s.store.define env name .nil) stack s
  | .letDecl name e => ⟨.evaluate e env, .letDecl name env :: stack, s⟩
  | .block body =>
    let (inner, store) := s.store.child env
    ⟨.done, .sequence body inner :: stack, { s with store := store }⟩
  | .branch condition onTrue onFalse =>
    ⟨.evaluate condition env, .branch onTrue onFalse env :: stack, s⟩
  | .whileLoop condition body step => loop condition body step env stack s
  | .functionDecl d =>
    let (f, store) := s.store.newClosure d env false
    let s := { s with store := store }
    match d.name with
    | some name => doneWith (s.store.define env name (.callable (.function f))) stack s
    | none => ⟨.done, stack, s⟩
  | .classDecl name (some e) ms =>
    ⟨.evaluate e env, .superclass name (e.name?.getD name) ms env :: stack, s⟩
  | .classDecl name none ms => defineClass name none ms env stack s
  | .returnWith _ (some e) => ⟨.evaluate e env, .returnWith :: stack, s⟩
  | .returnWith _ none => ⟨.unwind (.returning .nil), stack, s⟩
  | .breakLoop _ => ⟨.unwind .breaking, stack, s⟩
  | .continueLoop _ => ⟨.unwind .continuing, stack, s⟩
  | .moduleDecl name body =>
    let (members, store) := s.store.child env
    ⟨.done, .sequence body members :: .moduleBody name members env :: stack,
      { s with store := store }⟩

/-! ## Frames -/

/-- Hands a value to a frame. -/
def resume (v : Value) (frame : Frame) (stack : List Frame) (s : State) : Machine :=
  match frame with
  | .unary op => yield (applyUnary op v) stack s
  | .binaryRight op right env => ⟨.evaluate right env, .binary v op :: stack, s⟩
  | .binary left op => yield (applyBinary op left v) stack s
  | .logical op right env =>
    if decidedBy op v then ⟨.value v, stack, s⟩ else ⟨.evaluate right env, stack, s⟩
  | .assign name depth env => yieldWith v (change s.store name depth env v) stack s
  | .callee paren es env => applyNext v [] paren es env stack s
  | .argument callee earlier paren later env =>
    applyNext callee (v :: earlier) paren later env stack s
  | .get name =>
    match v with
    | .instance i =>
      match s.store.get i name with
      | .ok (v, store) => ⟨.value v, stack, { s with store := store }⟩
      | .error e => fail e stack s
    | .module m =>
      match s.store.getLocal? m.environment name.lexeme with
      | some v => ⟨.value v, stack, s⟩
      | none => fail (.blaming name (.undefinedProperty name.lexeme)) stack s
    | _ => fail (.blaming name .noProperties) stack s
  | .setObject name e env =>
    match v with
    | .instance i => ⟨.evaluate e env, .setField i name :: stack, s⟩
    | .module m => ⟨.evaluate e env, .setMember m name :: stack, s⟩
    | _ => fail (.blaming name .noProperties) stack s
  | .setField i name =>
    ⟨.value v, stack, { s with store := s.store.setField i name.lexeme v }⟩
  | .setMember m name =>
    if s.store.isReadOnly m.environment name.lexeme then
      fail (.blaming name (.readOnly name.lexeme)) stack s
    else match s.store.assignLocal? m.environment name.lexeme v with
      | some store => ⟨.value v, stack, { s with store := store }⟩
      | none => fail (.blaming name (.undefinedProperty name.lexeme)) stack s
  | .arraySize bracket es env =>
    match arraySize v bracket with
    | .ok n => arrayNext bracket (some n) [] es env stack s
    | .error e => fail e stack s
  | .arrayElement bracket size earlier later env =>
    arrayNext bracket size (v :: earlier) later env stack s
  | .indexObject bracket i env =>
    match asArray v bracket with
    | .ok a => ⟨.evaluate i env, .index a bracket :: stack, s⟩
    | .error e => fail e stack s
  | .index a bracket =>
    match asIndex v (s.store.length a) bracket with
    | .ok i =>
      match s.store.element? a i with
      | some v => ⟨.value v, stack, s⟩
      | none => fail (.blaming bracket (.outOfBounds (Float.ofNat i) (s.store.length a))) stack s
    | .error e => fail e stack s
  | .setIndexObject bracket i e env =>
    match asArray v bracket with
    | .ok a => ⟨.evaluate i env, .setIndexAt a bracket e env :: stack, s⟩
    | .error e => fail e stack s
  | .setIndexAt a bracket e env =>
    match asIndex v (s.store.length a) bracket with
    | .ok i => ⟨.evaluate e env, .setIndex a i bracket :: stack, s⟩
    | .error e => fail e stack s
  | .setIndex a i bracket =>
    let length := s.store.length a
    match s.store.setElement? a i v with
    | some store => ⟨.value v, stack, { s with store := store }⟩
    | none => fail (.blaming bracket (.outOfBounds (Float.ofNat i) length)) stack s
  | .print => printValue v stack s
  | .discard => ⟨.done, stack, s⟩
  | .varDecl name env => doneWith (s.store.define env name v) stack s
  | .letDecl name env => doneWith (s.store.defineReadOnly env name v) stack s
  | .branch onTrue onFalse env =>
    if v.isTruthy then ⟨.execute onTrue env, stack, s⟩
    else match onFalse with
      | some st => ⟨.execute st env, stack, s⟩
      | none => ⟨.done, stack, s⟩
  | .loopTest condition body step env =>
    if v.isTruthy then ⟨.execute body env, .loopBody condition body step env :: stack, s⟩
    else ⟨.done, stack, s⟩
  | .loopStep condition body step env => loop condition body step env stack s
  | .superclass name site ms env =>
    match v with
    | .callable (.class c) => defineClass name (some c) ms env stack s
    | _ => fail (.blaming site .superclassNotAClass) stack s
  | .returnWith => ⟨.unwind (.returning v), stack, s⟩
  | .constructed i => ⟨.value (.instance i), stack, s⟩
  | .activeCall _ => ⟨.value v, stack, { s with callDepth := s.callDepth - 1 }⟩
  | .sequence .. | .loopBody .. | .moduleBody .. | .functionBody _ => ⟨.value v, stack, s⟩

/-- Lets a frame go on after a statement. -/
def proceed (frame : Frame) (stack : List Frame) (s : State) : Machine :=
  match frame with
  | .sequence (st :: later) env => ⟨.execute st env, .sequence later env :: stack, s⟩
  | .sequence [] _ => ⟨.done, stack, s⟩
  | .loopBody condition body step env => loopNext condition body step env stack s
  | .moduleBody name members env =>
    let s := s.note (.moduleMade name.lexeme)
    doneWith (s.store.defineReadOnly env name (.module ⟨name.lexeme, members⟩)) stack s
  | .functionBody f => yield (result f .nil s.store) stack s
  | _ => ⟨.done, stack, s⟩

/-- Offers a signal to a frame. -/
def unwind (signal : Signal) (frame : Frame) (stack : List Frame) (s : State) : Machine :=
  match frame, signal with
  | .loopBody condition body step env, .continuing => loopNext condition body step env stack s
  | .loopBody .., .breaking => ⟨.done, stack, s⟩
  | .functionBody f, .returning v => yield (result f v s.store) stack s
  | .activeCall paren, .failure e =>
    ⟨.unwind (.failure (e.orAt paren)), stack, { s with callDepth := s.callDepth - 1 }⟩
  | .activeCall _, _ => ⟨.unwind signal, stack, { s with callDepth := s.callDepth - 1 }⟩
  | _, _ => ⟨.unwind signal, stack, s⟩

/-! ## The machine as a whole -/

/-- Whether there is nothing left to do. -/
def hasHalted (m : Machine) : Bool :=
  match m.control with
  | .evaluate .. | .execute .. => false
  | _ => m.stack.isEmpty

/-- One move. -/
def step (m : Machine) : Machine :=
  match m with
  | ⟨.evaluate e env, stack, s⟩ => evaluate e env stack s
  | ⟨.execute st env, stack, s⟩ => execute st env stack s
  | ⟨.value v, frame :: stack, s⟩ => resume v frame stack s
  | ⟨.done, frame :: stack, s⟩ => proceed frame stack s
  | ⟨.unwind signal, frame :: stack, s⟩ => unwind signal frame stack s
  | ⟨control, [], s⟩ => ⟨control, [], s⟩

/-- At most `moves` moves. -/
def run : Nat → Machine → Machine
  | 0, m => m
  | moves + 1, m => if m.hasHalted then m else run moves m.step

end Machine

end Lox
