/-
# Machines of a program with steps moved

Two machines belong together if what they hold does.  Their stacks have the same frames but
around a loop whose step was moved: where the first machine has the loop on its stack, the
second one has the block around the body there too, with the step still to come or being
evaluated.

    first      loopBody c b e        loopStep c b e
    second     sequence [e]          discard
               loopBody c {b e}      sequence []
                                     loopBody c {b e}

What a stack waits for says which signals can come: none but a failure where a value is
awaited, no `break` and no `continue` where no loop is around in the same function, and no
`continue` in the body of a loop whose step was moved.
-/
import Lox.Proofs.Moving.Store

namespace Lox

/-- What a stack waits for: a value, or the end of a statement with this loop around it. -/
inductive Wait where
  | value
  | done (l : InnerLoop)

section
variable (T : Twins)

/-- Frames, what they wait for, and what the frames below them do. -/
inductive MovedFrame : Wait → Wait → Frame → Frame → Prop
  | unary (op : Token) : MovedFrame .value .value (.unary op) (.unary op)
  | binaryRight {Δ op e e' env env'} : T env env' Δ → MovedExpr Δ e e' →
      MovedFrame .value .value (.binaryRight op e env) (.binaryRight op e' env')
  | binary {v v'} (op : Token) : MovedValue T v v' →
      MovedFrame .value .value (.binary v op) (.binary v' op)
  | logical {Δ op e e' env env'} : T env env' Δ → MovedExpr Δ e e' →
      MovedFrame .value .value (.logical op e env) (.logical op e' env')
  | assign {Δ x d d' env env'} : T env env' Δ → Option.Rel (Leads Δ) d d' →
      MovedFrame .value .value (.assign x d env) (.assign x d' env')
  | callee {Δ paren es es' env env'} : T env env' Δ → MovedExprs Δ es es' →
      MovedFrame .value .value (.callee paren es env) (.callee paren es' env')
  | argument {Δ c c' vs vs' paren es es' env env'} : MovedValue T c c' →
      List.Forall₂ (MovedValue T) vs vs' → T env env' Δ → MovedExprs Δ es es' →
      MovedFrame .value .value (.argument c vs paren es env) (.argument c' vs' paren es' env')
  | get (x : Token) : MovedFrame .value .value (.get x) (.get x)
  | setObject {Δ x e e' env env'} : T env env' Δ → MovedExpr Δ e e' →
      MovedFrame .value .value (.setObject x e env) (.setObject x e' env')
  | setField {i i'} (x : Token) : MovedInstance T i i' →
      MovedFrame .value .value (.setField i x) (.setField i' x)
  | setMember {m m'} (x : Token) : MovedModule T m m' →
      MovedFrame .value .value (.setMember m x) (.setMember m' x)
  | arraySize {Δ bracket es es' env env'} : T env env' Δ → MovedExprs Δ es es' →
      MovedFrame .value .value (.arraySize bracket es env) (.arraySize bracket es' env')
  | arrayElement (size : Option Nat) {Δ bracket vs vs' es es' env env'} :
      List.Forall₂ (MovedValue T) vs vs' → T env env' Δ → MovedExprs Δ es es' →
      MovedFrame .value .value (.arrayElement bracket size vs es env)
        (.arrayElement bracket size vs' es' env')
  | indexObject {Δ bracket i i' env env'} : T env env' Δ → MovedExpr Δ i i' →
      MovedFrame .value .value (.indexObject bracket i env) (.indexObject bracket i' env')
  | index (a : ArrayId) (bracket : Token) :
      MovedFrame .value .value (.index a bracket) (.index a bracket)
  | setIndexObject {Δ bracket i i' e e' env env'} : T env env' Δ → MovedExpr Δ i i' →
      MovedExpr Δ e e' →
      MovedFrame .value .value (.setIndexObject bracket i e env)
        (.setIndexObject bracket i' e' env')
  | setIndexAt (a : ArrayId) {Δ bracket e e' env env'} : T env env' Δ → MovedExpr Δ e e' →
      MovedFrame .value .value (.setIndexAt a bracket e env) (.setIndexAt a bracket e' env')
  | setIndex (a : ArrayId) (i : Nat) (bracket : Token) :
      MovedFrame .value .value (.setIndex a i bracket) (.setIndex a i bracket)
  | print {l} : MovedFrame .value (.done l) .print .print
  | discard {l} : MovedFrame .value (.done l) .discard .discard
  | varDecl {Δ l x env env'} : T env env' (.own :: Δ) →
      MovedFrame .value (.done l) (.varDecl x env) (.varDecl x env')
  | letDecl {Δ l x env env'} : T env env' (.own :: Δ) →
      MovedFrame .value (.done l) (.letDecl x env) (.letDecl x env')
  | branch {Δ l a a' b b' env env'} : T env env' Δ → MovedStmt Δ l a a' →
      MovedOptionStmt Δ l b b' →
      MovedFrame .value (.done l) (.branch a b env) (.branch a' b' env')
  | loopTest {Δ l c c' b b' e e' env env'} : T env env' Δ →
      MovedStmt Δ l (.whileLoop c b e) (.whileLoop c' b' e') →
      MovedFrame .value (.done l) (.loopTest c b e env) (.loopTest c' b' e' env')
  | loopStep {Δ l c c' b b' e e' env env'} : T env env' Δ → MovedExpr Δ c c' →
      MovedStmt Δ .kept b b' → MovedOptionExpr Δ e e' →
      MovedFrame .value (.done l) (.loopStep c b e env) (.loopStep c' b' e' env')
  | superclass {Δ l x site ms ms' env env'} : T env env' (.own :: Δ) →
      MovedDecls (.own :: .own :: .own :: Δ) ms ms' →
      MovedFrame .value (.done l) (.superclass x site ms env) (.superclass x site ms' env')
  | returnWith {l} : MovedFrame .value (.done l) .returnWith .returnWith
  | constructed {i i'} : MovedInstance T i i' →
      MovedFrame .value .value (.constructed i) (.constructed i')
  | activeCall (paren : Token) : MovedFrame .value .value (.activeCall paren) (.activeCall paren)
  | sequence {Δ l sts sts' env env'} : T env env' Δ → MovedStmts Δ l sts sts' →
      MovedFrame (.done l) (.done l) (.sequence sts env) (.sequence sts' env')
  | loopBody {Δ l c c' b b' e e' env env'} : T env env' Δ → MovedExpr Δ c c' →
      MovedStmt Δ .kept b b' → MovedOptionExpr Δ e e' →
      MovedFrame (.done .kept) (.done l) (.loopBody c b e env) (.loopBody c' b' e' env')
  | moduleBody {Δ Δ' l x members members' env env'} : T members members' (.own :: Δ') →
      T env env' (.own :: Δ) →
      MovedFrame (.done .none) (.done l) (.moduleBody x members env)
        (.moduleBody x members' env')
  | functionBody {f f'} : MovedClosure T id f f' →
      MovedFrame (.done .none) .value (.functionBody f) (.functionBody f')

/-- Stacks that wait for the same. -/
inductive MovedStack : Wait → List Frame → List Frame → Prop
  | nil (a : Wait) : MovedStack a [] []
  | cons {a b frame frame' stack stack'} : MovedFrame T a b frame frame' →
      MovedStack b stack stack' → MovedStack a (frame :: stack) (frame' :: stack')
  | movedBody {Δ l c c' b b' e e' env env' inner stack stack'} : T env env' Δ →
      T env inner (.added :: Δ) → MovedExpr Δ c c' → MovedStmt (.added :: Δ) .moved b b' →
      MovedExpr (.added :: Δ) e e' → MovedStack (.done l) stack stack' →
      MovedStack (.done .moved) (.loopBody c b (some e) env :: stack)
        (.sequence [.expression e'] inner ::
          .loopBody c' (.block [b', .expression e']) none env' :: stack')
  | movedStep {Δ l c c' b b' e e' env env' inner stack stack'} : T env env' Δ →
      MovedExpr Δ c c' → MovedStmt (.added :: Δ) .moved b b' →
      MovedExpr (.added :: Δ) e e' → MovedStack (.done l) stack stack' →
      MovedStack .value (.loopStep c b (some e) env :: stack)
        (.discard :: .sequence [] inner ::
          .loopBody c' (.block [b', .expression e']) none env' :: stack')

/-- Controls, and what the stack below waits for. -/
inductive MovedControl : Wait → Control → Control → Prop
  | evaluate {Δ e e' env env'} : T env env' Δ → MovedExpr Δ e e' →
      MovedControl .value (.evaluate e env) (.evaluate e' env')
  | execute {Δ l st st' env env'} : T env env' Δ → MovedStmt Δ l st st' →
      MovedControl (.done l) (.execute st env) (.execute st' env')
  | value {v v'} : MovedValue T v v' → MovedControl .value (.value v) (.value v')
  | done {l} : MovedControl (.done l) .done .done
  | failure {a} (e : RuntimeError) :
      MovedControl a (.unwind (.failure e)) (.unwind (.failure e))
  | returning {l v v'} : MovedValue T v v' →
      MovedControl (.done l) (.unwind (.returning v)) (.unwind (.returning v'))
  | breaking {l} : l ≠ .none → MovedControl (.done l) (.unwind .breaking) (.unwind .breaking)
  | continuing : MovedControl (.done .kept) (.unwind .continuing) (.unwind .continuing)

/-- Such stores, as many calls, and the same output, and the same clock at the
same tick.  Events are not compared. -/
structure MovedState (s s' : State) : Prop where
  store : MovedStore T s.store s'.store
  callDepth : s'.callDepth = s.callDepth
  output : s'.output = s.output
  clock : s'.clock = s.clock
  ticks : s'.ticks = s.ticks

end

/-- Machines that belong together. -/
def MovedMachine (m m' : Machine) : Prop :=
  ∃ T a, MovedControl T a m.control m'.control ∧ MovedStack T a m.stack m'.stack ∧
    MovedState T m.state m'.state

/-! ## What belongs together does so when more is known -/

section
variable {T T' : Twins} (hT : T.Le T')
include hT

theorem MovedFrame.mono {a b : Wait} {frame frame' : Frame}
    (h : MovedFrame T a b frame frame') : MovedFrame T' a b frame frame' := by
  cases h with
  | unary op => exact .unary op
  | binaryRight he hx => exact .binaryRight (hT _ _ _ he) hx
  | binary op hv => exact .binary op (hv.mono hT)
  | logical he hx => exact .logical (hT _ _ _ he) hx
  | assign he hd => exact .assign (hT _ _ _ he) hd
  | callee he hes => exact .callee (hT _ _ _ he) hes
  | argument hc hvs he hes =>
      exact .argument (hc.mono hT) (moved_values_mono hT hvs) (hT _ _ _ he) hes
  | get x => exact .get x
  | setObject he hx => exact .setObject (hT _ _ _ he) hx
  | setField x hi => exact .setField x (hi.mono hT)
  | setMember x hm => exact .setMember x (hm.mono hT)
  | arraySize he hes => exact .arraySize (hT _ _ _ he) hes
  | arrayElement size hvs he hes =>
      exact .arrayElement size (moved_values_mono hT hvs) (hT _ _ _ he) hes
  | indexObject he hi => exact .indexObject (hT _ _ _ he) hi
  | index a bracket => exact .index a bracket
  | setIndexObject he hi hx => exact .setIndexObject (hT _ _ _ he) hi hx
  | setIndexAt a he hx => exact .setIndexAt a (hT _ _ _ he) hx
  | setIndex a i bracket => exact .setIndex a i bracket
  | print => exact .print
  | discard => exact .discard
  | varDecl he => exact .varDecl (hT _ _ _ he)
  | letDecl he => exact .letDecl (hT _ _ _ he)
  | branch he ha hb => exact .branch (hT _ _ _ he) ha hb
  | loopTest he hloop => exact .loopTest (hT _ _ _ he) hloop
  | loopStep he hc hb hx => exact .loopStep (hT _ _ _ he) hc hb hx
  | superclass he hms => exact .superclass (hT _ _ _ he) hms
  | returnWith => exact .returnWith
  | constructed hi => exact .constructed (hi.mono hT)
  | activeCall paren => exact .activeCall paren
  | sequence he hsts => exact .sequence (hT _ _ _ he) hsts
  | loopBody he hc hb hx => exact .loopBody (hT _ _ _ he) hc hb hx
  | moduleBody hm he => exact .moduleBody (hT _ _ _ hm) (hT _ _ _ he)
  | functionBody hf => exact .functionBody (hf.mono hT)

theorem MovedStack.mono {a : Wait} {stack stack' : List Frame}
    (h : MovedStack T a stack stack') : MovedStack T' a stack stack' := by
  induction h with
  | nil a => exact .nil a
  | cons hf _ ih => exact .cons (hf.mono hT) ih
  | movedBody he hi hc hb hx _ ih => exact .movedBody (hT _ _ _ he) (hT _ _ _ hi) hc hb hx ih
  | movedStep he hc hb hx _ ih => exact .movedStep (hT _ _ _ he) hc hb hx ih

end

namespace MovedState

variable {T T' : Twins} {s s' : State} (h : MovedState T s s')
include h

theorem withStore {u u' : Store} (hu : MovedStore T' u u') :
    MovedState T' { s with store := u } { s' with store := u' } :=
  ⟨hu, h.callDepth, h.output, h.clock, h.ticks⟩

theorem withCallDepth (n : Nat) :
    MovedState T { s with callDepth := n } { s' with callDepth := n } :=
  ⟨h.store, rfl, h.output, h.clock, h.ticks⟩

theorem withOutput (o : Output) :
    MovedState T { s with output := o } { s' with output := o } :=
  ⟨h.store, h.callDepth, rfl, h.clock, h.ticks⟩

theorem note (e e' : Event) : MovedState T (s.note e) (s'.note e') :=
  ⟨h.store, h.callDepth, h.output, h.clock, h.ticks⟩

theorem tick : MovedState T s.tick s'.tick :=
  ⟨h.store, h.callDepth, h.output, h.clock, congrArg (· + 1) h.ticks⟩

/-- The clocks say the same. -/
theorem now : s'.now = s.now := by
  unfold State.now
  rw [h.clock, h.ticks]

theorem notes (es es' : List Event) :
    MovedState T (es.foldl State.note s) (es'.foldl State.note s') := by
  rw [State.foldl_note, State.foldl_note]
  exact ⟨h.store, h.callDepth, h.output, h.clock, h.ticks⟩

end MovedState

/-- Machines that belong together halt together. -/
theorem MovedMachine.hasHalted {m m' : Machine} (h : MovedMachine m m') :
    m'.hasHalted = m.hasHalted := by
  obtain ⟨control, stack, s⟩ := m
  obtain ⟨control', stack', s'⟩ := m'
  obtain ⟨T, a, hcontrol, hstack, -⟩ := h
  dsimp only at hcontrol hstack
  cases hcontrol <;> cases hstack <;> rfl

end Lox
