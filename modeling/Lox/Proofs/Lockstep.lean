/-
# Machines in lockstep

Two machines are alike if what they hold is alike: the pieces of program still to
run, the values, the stores.  Moves keep them alike (`Lockstep.Step`).

Below all frames stands the program.  The second machine may have more of it: the
statements `rest` come after those that both have.  Where the first one has come
to the end of its program, the second goes on with `rest`.
-/
import Lox.Proofs.Like.Store
import Lox.Interpreter

namespace Lox

section
variable (R : Likeness) (W : Distances)

/-- Frames that are alike; the number is that of the scopes around the code that is
still to run. -/
inductive LikeFrame : Frame → Frame → Prop
  | unary {op op'} : R.token op op' → LikeFrame (.unary op) (.unary op')
  | binaryRight {m op op' e e' env} : R.token op op' → Within W m env → LikeExpr R m e e' →
      LikeFrame (.binaryRight op e env) (.binaryRight op' e' env)
  | binary {v v' op op'} : LikeValue R W v v' → R.token op op' →
      LikeFrame (.binary v op) (.binary v' op')
  | logical {m op op' e e' env} : R.token op op' → Within W m env → LikeExpr R m e e' →
      LikeFrame (.logical op e env) (.logical op' e' env)
  | assign {m n n' d d' env} : R.token n n' → Within W m env → R.depth m d d' →
      LikeFrame (.assign n d env) (.assign n' d' env)
  | callee {m p p' es es' env} : R.token p p' → Within W m env → LikeExprs R m es es' →
      LikeFrame (.callee p es env) (.callee p' es' env)
  | argument {m c c' vs vs' p p' es es' env} : LikeValue R W c c' →
      List.Forall₂ (LikeValue R W) vs vs' → R.token p p' → Within W m env →
      LikeExprs R m es es' → LikeFrame (.argument c vs p es env) (.argument c' vs' p' es' env)
  | get {n n'} : R.token n n' → LikeFrame (.get n) (.get n')
  | setObject {m n n' e e' env} : R.token n n' → Within W m env → LikeExpr R m e e' →
      LikeFrame (.setObject n e env) (.setObject n' e' env)
  | setField {i i' n n'} : LikeInstance R W i i' → R.token n n' →
      LikeFrame (.setField i n) (.setField i' n')
  | setMember (o : Module) {n n'} : R.token n n' →
      LikeFrame (.setMember o n) (.setMember o n')
  | arraySize {m b b' es es' env} : R.token b b' → Within W m env → LikeExprs R m es es' →
      LikeFrame (.arraySize b es env) (.arraySize b' es' env)
  | arrayElement (size : Option Nat) {m b b' vs vs' es es' env} : R.token b b' →
      List.Forall₂ (LikeValue R W) vs vs' → Within W m env → LikeExprs R m es es' →
      LikeFrame (.arrayElement b size vs es env) (.arrayElement b' size vs' es' env)
  | indexObject {m b b' i i' env} : R.token b b' → Within W m env → LikeExpr R m i i' →
      LikeFrame (.indexObject b i env) (.indexObject b' i' env)
  | index (a : ArrayId) {b b'} : R.token b b' → LikeFrame (.index a b) (.index a b')
  | setIndexObject {m b b' i i' e e' env} : R.token b b' → Within W m env → LikeExpr R m i i' →
      LikeExpr R m e e' → LikeFrame (.setIndexObject b i e env) (.setIndexObject b' i' e' env)
  | setIndexAt (a : ArrayId) {m b b' e e' env} : R.token b b' → Within W m env →
      LikeExpr R m e e' → LikeFrame (.setIndexAt a b e env) (.setIndexAt a b' e' env)
  | setIndex (a : ArrayId) (i : Nat) {b b'} : R.token b b' →
      LikeFrame (.setIndex a i b) (.setIndex a i b')
  | print : LikeFrame .print .print
  | discard : LikeFrame .discard .discard
  | varDecl {n n'} (env : EnvironmentId) : R.name n n' →
      LikeFrame (.varDecl n env) (.varDecl n' env)
  | letDecl {n n'} (env : EnvironmentId) : R.name n n' →
      LikeFrame (.letDecl n env) (.letDecl n' env)
  | branch {m a a' b b' env} : Within W m env → LikeStmt R m a a' → LikeOptionStmt R m b b' →
      LikeFrame (.branch a b env) (.branch a' b' env)
  | loopTest {m e e' b b' st st' env} : Within W m env → LikeExpr R m e e' → LikeStmt R m b b' →
      LikeOptionExpr R m st st' → LikeFrame (.loopTest e b st env) (.loopTest e' b' st' env)
  | loopStep {m e e' b b' st st' env} : Within W m env → LikeExpr R m e e' → LikeStmt R m b b' →
      LikeOptionExpr R m st st' → LikeFrame (.loopStep e b st env) (.loopStep e' b' st' env)
  | superclass {m n n' k k' ms ms' env} : R.name n n' → R.token k k' → Within W m env →
      LikeDecls R (inner (inner m)) ms ms' →
      LikeFrame (.superclass n k ms env) (.superclass n' k' ms' env)
  | returnWith : LikeFrame .returnWith .returnWith
  | constructed {i i'} : LikeInstance R W i i' → LikeFrame (.constructed i) (.constructed i')
  | activeCall {p p'} : R.token p p' → LikeFrame (.activeCall p) (.activeCall p')
  | sequence {m sts sts' env} : Within W m env → LikeStmts R m sts sts' →
      LikeFrame (.sequence sts env) (.sequence sts' env)
  | loopBody {m e e' b b' st st' env} : Within W m env → LikeExpr R m e e' → LikeStmt R m b b' →
      LikeOptionExpr R m st st' → LikeFrame (.loopBody e b st env) (.loopBody e' b' st' env)
  | moduleBody {n n'} (members env : EnvironmentId) : R.name n n' →
      LikeFrame (.moduleBody n members env) (.moduleBody n' members env)
  | functionBody {f f'} : LikeClosure R W id f f' →
      LikeFrame (.functionBody f) (.functionBody f')

/-- Alike frames above alike programs, after which the second machine has `rest`. -/
inductive LikeStack (rest : List Stmt) : List Frame → List Frame → Prop
  | program {sts sts'} : LikeStmts R (some 0) sts sts' →
      LikeStack rest [.sequence sts State.globals] [.sequence (sts' ++ rest) State.globals]
  | cons {frame frame' stack stack'} : LikeFrame R W frame frame' →
      LikeStack rest stack stack' → LikeStack rest (frame :: stack) (frame' :: stack')

inductive LikeSignal : Signal → Signal → Prop
  | failure {e e'} : LikeError R e e' → LikeSignal (.failure e) (.failure e')
  | returning {v v'} : LikeValue R W v v' → LikeSignal (.returning v) (.returning v')
  | breaking : LikeSignal .breaking .breaking
  | continuing : LikeSignal .continuing .continuing

inductive LikeControl : Control → Control → Prop
  | evaluate {m e e' env} : Within W m env → LikeExpr R m e e' →
      LikeControl (.evaluate e env) (.evaluate e' env)
  | execute {m st st' env} : Within W m env → LikeStmt R m st st' →
      LikeControl (.execute st env) (.execute st' env)
  | value {v v'} : LikeValue R W v v' → LikeControl (.value v) (.value v')
  | done : LikeControl .done .done
  | unwind {g g'} : LikeSignal R W g g' → LikeControl (.unwind g) (.unwind g')

/-- Alike stores, as many calls, the same output, and the same clock at the same tick.
Events are not compared. -/
structure LikeState (s s' : State) : Prop where
  store : LikeStore R W s.store s'.store
  callDepth : s'.callDepth = s.callDepth
  output : s'.output = s.output
  clock : s'.clock = s.clock
  ticks : s'.ticks = s.ticks

end

/-- Machines that are alike and have not come to the end of their programs. -/
def LikeMachine (R : Likeness) (rest : List Stmt) (m m' : Machine) : Prop :=
  ∃ W, LikeControl R W m.control m'.control ∧ LikeStack R W rest m.stack m'.stack ∧
    LikeState R W m.state m'.state

/-- The first machine is at the end of its program, and what the second has left
is `rest`. -/
def Arrived (R : Likeness) (rest : List Stmt) (m m' : Machine) : Prop :=
  ∃ W s s', m = ⟨.done, [.sequence [] State.globals], s⟩ ∧
    m' = ⟨.done, [.sequence rest State.globals], s'⟩ ∧ LikeState R W s s'

/-- Both machines have come to their ends, and these are alike. -/
structure Ended (R : Likeness) (m m' : Machine) : Prop where
  halted : m.hasHalted = true
  stack : m.stack = []
  stack' : m'.stack = []
  alike : ∃ W, LikeControl R W m.control m'.control ∧ LikeState R W m.state m'.state

/-! ## What is alike stays so when more is known -/

section
variable {R : Likeness} {W W' : Distances} (hW : ∀ e k, W e k → W' e k)
include hW

theorem like_values_mono {vs vs' : List Value} (h : List.Forall₂ (LikeValue R W) vs vs') :
    List.Forall₂ (LikeValue R W') vs vs' :=
  h.imp fun _ _ hv => hv.mono hW

theorem LikeFrame.mono {frame frame' : Frame} (h : LikeFrame R W frame frame') :
    LikeFrame R W' frame frame' := by
  cases h with
  | unary h => exact .unary h
  | binaryRight h hm he => exact .binaryRight h (hm.mono hW) he
  | binary hv h => exact .binary (hv.mono hW) h
  | logical h hm he => exact .logical h (hm.mono hW) he
  | assign h hm hd => exact .assign h (hm.mono hW) hd
  | callee h hm hes => exact .callee h (hm.mono hW) hes
  | argument hc hvs h hm hes =>
      exact .argument (hc.mono hW) (like_values_mono hW hvs) h (hm.mono hW) hes
  | get h => exact .get h
  | setObject h hm he => exact .setObject h (hm.mono hW) he
  | setField hi h => exact .setField (hi.mono hW) h
  | setMember o h => exact .setMember o h
  | arraySize h hm hes => exact .arraySize h (hm.mono hW) hes
  | arrayElement size h hvs hm hes =>
      exact .arrayElement size h (like_values_mono hW hvs) (hm.mono hW) hes
  | indexObject h hm hi => exact .indexObject h (hm.mono hW) hi
  | index a h => exact .index a h
  | setIndexObject h hm hi he => exact .setIndexObject h (hm.mono hW) hi he
  | setIndexAt a h hm he => exact .setIndexAt a h (hm.mono hW) he
  | setIndex a i h => exact .setIndex a i h
  | print => exact .print
  | discard => exact .discard
  | varDecl env h => exact .varDecl env h
  | letDecl env h => exact .letDecl env h
  | branch hm ha hb => exact .branch (hm.mono hW) ha hb
  | loopTest hm he hb hst => exact .loopTest (hm.mono hW) he hb hst
  | loopStep hm he hb hst => exact .loopStep (hm.mono hW) he hb hst
  | superclass hn hk hm hms => exact .superclass hn hk (hm.mono hW) hms
  | returnWith => exact .returnWith
  | constructed hi => exact .constructed (hi.mono hW)
  | activeCall h => exact .activeCall h
  | sequence hm hsts => exact .sequence (hm.mono hW) hsts
  | loopBody hm he hb hst => exact .loopBody (hm.mono hW) he hb hst
  | moduleBody members env h => exact .moduleBody members env h
  | functionBody hf => exact .functionBody (hf.mono hW)

theorem LikeStack.mono {rest : List Stmt} {stack stack' : List Frame}
    (h : LikeStack R W rest stack stack') : LikeStack R W' rest stack stack' := by
  induction h with
  | program hsts => exact .program hsts
  | cons hf _ ih => exact .cons (hf.mono hW) ih

end

theorem LikeStack.ne_nil {R : Likeness} {W : Distances} {rest : List Stmt}
    {stack stack' : List Frame} (h : LikeStack R W rest stack stack') :
    stack ≠ [] ∧ stack' ≠ [] := by
  cases h <;> exact ⟨nofun, nofun⟩

namespace LikeState

variable {R : Likeness} {W W' : Distances} {s s' : State} (h : LikeState R W s s')
include h

/-- Alike states with other stores that are alike. -/
theorem withStore {u u' : Store} (hu : LikeStore R W' u u') :
    LikeState R W' { s with store := u } { s' with store := u' } :=
  ⟨hu, h.callDepth, h.output, h.clock, h.ticks⟩

theorem withCallDepth (n : Nat) :
    LikeState R W { s with callDepth := n } { s' with callDepth := n } :=
  ⟨h.store, rfl, h.output, h.clock, h.ticks⟩

theorem withOutput (o : Output) : LikeState R W { s with output := o } { s' with output := o } :=
  ⟨h.store, h.callDepth, rfl, h.clock, h.ticks⟩

theorem note (e e' : Event) : LikeState R W (s.note e) (s'.note e') :=
  ⟨h.store, h.callDepth, h.output, h.clock, h.ticks⟩

theorem tick : LikeState R W s.tick s'.tick :=
  ⟨h.store, h.callDepth, h.output, h.clock, congrArg (· + 1) h.ticks⟩

/-- The clocks say the same. -/
theorem now : s'.now = s.now := by
  unfold State.now
  rw [h.clock, h.ticks]

theorem notes (es es' : List Event) :
    LikeState R W (es.foldl State.note s) (es'.foldl State.note s') := by
  rw [State.foldl_note, State.foldl_note]
  exact ⟨h.store, h.callDepth, h.output, h.clock, h.ticks⟩

end LikeState

end Lox
