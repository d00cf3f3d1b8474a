/-
# Machines of a program with a renamed scope

Two machines belong together if what they hold does: the pieces of program still to run,
the values, the stores.  Of the environment that a piece of program is to run in, the
bearings are those that the piece has.  Moves keep machines together (`Renaming.Step`).
-/
import Lox.Proofs.Renaming.Store

namespace Lox

section
variable (ρ : Renaming) (B : Bearings)

inductive RenamedFrame : Frame → Frame → Prop
  | unary (op : Token) : RenamedFrame (.unary op) (.unary op)
  | binaryRight {k op e e' env} : B env k → RenamedExpr ρ k e e' →
      RenamedFrame (.binaryRight op e env) (.binaryRight op e' env)
  | binary {v v'} (op : Token) : RenamedValue ρ B v v' →
      RenamedFrame (.binary v op) (.binary v' op)
  | logical {k op e e' env} : B env k → RenamedExpr ρ k e e' →
      RenamedFrame (.logical op e env) (.logical op e' env)
  | assign {k x x' d env} : B env k → ρ.Names (Renaming.Reaches k d) x x' →
      RenamedFrame (.assign x d env) (.assign x' d env)
  | callee {k paren es es' env} : B env k → RenamedExprs ρ k es es' →
      RenamedFrame (.callee paren es env) (.callee paren es' env)
  | argument {k c c' vs vs' paren es es' env} : RenamedValue ρ B c c' →
      List.Forall₂ (RenamedValue ρ B) vs vs' → B env k → RenamedExprs ρ k es es' →
      RenamedFrame (.argument c vs paren es env) (.argument c' vs' paren es' env)
  | get (x : Token) : RenamedFrame (.get x) (.get x)
  | setObject {k x e e' env} : B env k → RenamedExpr ρ k e e' →
      RenamedFrame (.setObject x e env) (.setObject x e' env)
  | setField {i i'} (x : Token) : RenamedInstance ρ B i i' →
      RenamedFrame (.setField i x) (.setField i' x)
  | setMember {o k} (x : Token) : B o.environment k → k ≠ some 0 →
      RenamedFrame (.setMember o x) (.setMember o x)
  | arraySize {k bracket es es' env} : B env k → RenamedExprs ρ k es es' →
      RenamedFrame (.arraySize bracket es env) (.arraySize bracket es' env)
  | arrayElement (size : Option Nat) {k bracket vs vs' es es' env} :
      List.Forall₂ (RenamedValue ρ B) vs vs' → B env k → RenamedExprs ρ k es es' →
      RenamedFrame (.arrayElement bracket size vs es env) (.arrayElement bracket size vs' es' env)
  | indexObject {k bracket i i' env} : B env k → RenamedExpr ρ k i i' →
      RenamedFrame (.indexObject bracket i env) (.indexObject bracket i' env)
  | index (a : ArrayId) (bracket : Token) : RenamedFrame (.index a bracket) (.index a bracket)
  | setIndexObject {k bracket i i' e e' env} : B env k → RenamedExpr ρ k i i' →
      RenamedExpr ρ k e e' →
      RenamedFrame (.setIndexObject bracket i e env) (.setIndexObject bracket i' e' env)
  | setIndexAt (a : ArrayId) {k bracket e e' env} : B env k → RenamedExpr ρ k e e' →
      RenamedFrame (.setIndexAt a bracket e env) (.setIndexAt a bracket e' env)
  | setIndex (a : ArrayId) (i : Nat) (bracket : Token) :
      RenamedFrame (.setIndex a i bracket) (.setIndex a i bracket)
  | print : RenamedFrame .print .print
  | discard : RenamedFrame .discard .discard
  | varDecl {k x x' env} : B env k → ρ.Names (k = some 0) x x' →
      RenamedFrame (.varDecl x env) (.varDecl x' env)
  | letDecl {k x x' env} : B env k → ρ.Names (k = some 0) x x' →
      RenamedFrame (.letDecl x env) (.letDecl x' env)
  | branch {k a a' b b' env} : B env k → RenamedStmt ρ k a a' → RenamedOptionStmt ρ k b b' →
      RenamedFrame (.branch a b env) (.branch a' b' env)
  | loopTest {k e e' b b' st st' env} : B env k → RenamedExpr ρ k e e' → RenamedStmt ρ k b b' →
      RenamedOptionExpr ρ k st st' → RenamedFrame (.loopTest e b st env) (.loopTest e' b' st' env)
  | loopStep {k e e' b b' st st' env} : B env k → RenamedExpr ρ k e e' → RenamedStmt ρ k b b' →
      RenamedOptionExpr ρ k st st' → RenamedFrame (.loopStep e b st env) (.loopStep e' b' st' env)
  | superclass {k x here site site' ms ms' env} : B env k → ρ.Names (k = some 0) x x →
      ρ.Names here site site' → RenamedDecls ρ (inner (inner k)) ms ms' →
      RenamedFrame (.superclass x site ms env) (.superclass x site' ms' env)
  | returnWith : RenamedFrame .returnWith .returnWith
  | constructed {i i'} : RenamedInstance ρ B i i' → RenamedFrame (.constructed i) (.constructed i')
  | activeCall (paren : Token) : RenamedFrame (.activeCall paren) (.activeCall paren)
  | sequence {k sts sts' env} : B env k → RenamedStmts ρ k sts sts' →
      RenamedFrame (.sequence sts env) (.sequence sts' env)
  | loopBody {k e e' b b' st st' env} : B env k → RenamedExpr ρ k e e' → RenamedStmt ρ k b b' →
      RenamedOptionExpr ρ k st st' → RenamedFrame (.loopBody e b st env) (.loopBody e' b' st' env)
  | moduleBody {k x members env} : B members (inner k) → B env k → ρ.Names (k = some 0) x x →
      RenamedFrame (.moduleBody x members env) (.moduleBody x members env)
  | functionBody {f f'} : RenamedClosure ρ B id f f' →
      RenamedFrame (.functionBody f) (.functionBody f')

inductive RenamedSignal : Signal → Signal → Prop
  | failure {e e'} : RenamedError ρ e e' → RenamedSignal (.failure e) (.failure e')
  | returning {v v'} : RenamedValue ρ B v v' → RenamedSignal (.returning v) (.returning v')
  | breaking : RenamedSignal .breaking .breaking
  | continuing : RenamedSignal .continuing .continuing

inductive RenamedControl : Control → Control → Prop
  | evaluate {k e e' env} : B env k → RenamedExpr ρ k e e' →
      RenamedControl (.evaluate e env) (.evaluate e' env)
  | execute {k st st' env} : B env k → RenamedStmt ρ k st st' →
      RenamedControl (.execute st env) (.execute st' env)
  | value {v v'} : RenamedValue ρ B v v' → RenamedControl (.value v) (.value v')
  | done : RenamedControl .done .done
  | unwind {g g'} : RenamedSignal ρ B g g' → RenamedControl (.unwind g) (.unwind g')

/-- Such stores, as many calls, and the same output, and the same clock at the
same tick.  Events are not compared. -/
structure RenamedState (s s' : State) : Prop where
  store : RenamedStore ρ B s.store s'.store
  callDepth : s'.callDepth = s.callDepth
  output : s'.output = s.output
  clock : s'.clock = s.clock
  ticks : s'.ticks = s.ticks

end

/-- Machines that belong together. -/
def RenamedMachine (ρ : Renaming) (m m' : Machine) : Prop :=
  ∃ B, RenamedControl ρ B m.control m'.control ∧
    List.Forall₂ (RenamedFrame ρ B) m.stack m'.stack ∧ RenamedState ρ B m.state m'.state

/-! ## What belongs together does so when more is known -/

section
variable {ρ : Renaming} {B B' : Bearings} (hB : ∀ e k, B e k → B' e k)
include hB

theorem RenamedFrame.mono {frame frame' : Frame} (h : RenamedFrame ρ B frame frame') :
    RenamedFrame ρ B' frame frame' := by
  cases h with
  | unary op => exact .unary op
  | binaryRight hk he => exact .binaryRight (hB _ _ hk) he
  | binary op hv => exact .binary op (hv.mono hB)
  | logical hk he => exact .logical (hB _ _ hk) he
  | assign hk hx => exact .assign (hB _ _ hk) hx
  | callee hk hes => exact .callee (hB _ _ hk) hes
  | argument hc hvs hk hes =>
      exact .argument (hc.mono hB) (renamed_values_mono hB hvs) (hB _ _ hk) hes
  | get x => exact .get x
  | setObject hk he => exact .setObject (hB _ _ hk) he
  | setField x hi => exact .setField x (hi.mono hB)
  | setMember x hk hne => exact .setMember x (hB _ _ hk) hne
  | arraySize hk hes => exact .arraySize (hB _ _ hk) hes
  | arrayElement size hvs hk hes =>
      exact .arrayElement size (renamed_values_mono hB hvs) (hB _ _ hk) hes
  | indexObject hk hi => exact .indexObject (hB _ _ hk) hi
  | index a bracket => exact .index a bracket
  | setIndexObject hk hi he => exact .setIndexObject (hB _ _ hk) hi he
  | setIndexAt a hk he => exact .setIndexAt a (hB _ _ hk) he
  | setIndex a i bracket => exact .setIndex a i bracket
  | print => exact .print
  | discard => exact .discard
  | varDecl hk hx => exact .varDecl (hB _ _ hk) hx
  | letDecl hk hx => exact .letDecl (hB _ _ hk) hx
  | branch hk ha hb => exact .branch (hB _ _ hk) ha hb
  | loopTest hk he hb hst => exact .loopTest (hB _ _ hk) he hb hst
  | loopStep hk he hb hst => exact .loopStep (hB _ _ hk) he hb hst
  | superclass hk hx hsite hms => exact .superclass (hB _ _ hk) hx hsite hms
  | returnWith => exact .returnWith
  | constructed hi => exact .constructed (hi.mono hB)
  | activeCall paren => exact .activeCall paren
  | sequence hk hsts => exact .sequence (hB _ _ hk) hsts
  | loopBody hk he hb hst => exact .loopBody (hB _ _ hk) he hb hst
  | moduleBody hm hk hx => exact .moduleBody (hB _ _ hm) (hB _ _ hk) hx
  | functionBody hf => exact .functionBody (hf.mono hB)

theorem renamed_stack_mono {stack stack' : List Frame}
    (h : List.Forall₂ (RenamedFrame ρ B) stack stack') :
    List.Forall₂ (RenamedFrame ρ B') stack stack' :=
  h.imp fun _ _ hf => hf.mono hB

end

namespace RenamedState

variable {ρ : Renaming} {B B' : Bearings} {s s' : State} (h : RenamedState ρ B s s')
include h

theorem withStore {u u' : Store} (hu : RenamedStore ρ B' u u') :
    RenamedState ρ B' { s with store := u } { s' with store := u' } :=
  ⟨hu, h.callDepth, h.output, h.clock, h.ticks⟩

theorem withCallDepth (n : Nat) :
    RenamedState ρ B { s with callDepth := n } { s' with callDepth := n } :=
  ⟨h.store, rfl, h.output, h.clock, h.ticks⟩

theorem withOutput (o : Output) :
    RenamedState ρ B { s with output := o } { s' with output := o } :=
  ⟨h.store, h.callDepth, rfl, h.clock, h.ticks⟩

theorem note (e e' : Event) : RenamedState ρ B (s.note e) (s'.note e') :=
  ⟨h.store, h.callDepth, h.output, h.clock, h.ticks⟩

theorem tick : RenamedState ρ B s.tick s'.tick :=
  ⟨h.store, h.callDepth, h.output, h.clock, congrArg (· + 1) h.ticks⟩

/-- The clocks say the same. -/
theorem now : s'.now = s.now := by
  unfold State.now
  rw [h.clock, h.ticks]

theorem notes (es es' : List Event) :
    RenamedState ρ B (es.foldl State.note s) (es'.foldl State.note s') := by
  induction es generalizing s with
  | nil =>
      induction es' generalizing s' with
      | nil => exact h
      | cons e' es' ih =>
          have h' : RenamedState ρ B s (s'.note e') :=
            ⟨h.store, h.callDepth, h.output, h.clock, h.ticks⟩
          exact ih h'
  | cons e es ih =>
      have h' : RenamedState ρ B (s.note e) s' :=
        ⟨h.store, h.callDepth, h.output, h.clock, h.ticks⟩
      exact ih h'

end RenamedState

end Lox
