/-
# Pure expressions

An expression is pure if it has no call, no assignment and no change of a property or of
an element, except in the bodies of functions, which do not run when the function is made.
It may still make things: functions, bound methods with their environments, and arrays.

While a machine evaluates such an expression it is `Pure`: all that waits on its stack are
operands that are pure themselves.  A move keeps it so, leaves all that there was as it was,
and makes the machine lighter.  So the evaluation of a pure expression ends, with a value or
with a failure, and disturbs nothing: `Expr.isPure_settles`.
-/
import Lox.Proofs.Refused
import Mathlib.Algebra.Ring.Nat

namespace Lox

/-! ## Expressions that change nothing -/

mutual

/-- The expression calls nothing and changes nothing before a function in it is called. -/
def Expr.isPure : Expr → Bool
  | .literal _ | .variable .. | .receiver .. | .superMethod .. | .function _ => true
  | .grouping e | .unary _ e | .get e _ => e.isPure
  | .binary l _ r | .logical l _ r | .index l _ r => l.isPure && r.isPure
  | .array _ size es => optionPure size && allPure es
  | .call .. | .assign .. | .set .. | .setIndex .. => false

def optionPure : Option Expr → Bool
  | some e => e.isPure
  | none => true

def allPure : List Expr → Bool
  | [] => true
  | e :: es => e.isPure && allPure es

end

/-! ## Stores with more in them -/

namespace Store

/-- All that there is in `s` is in `s'` as it was, and no instance was made. -/
structure Extends (s s' : Store) : Prop where
  contents : s.SameContents s'
  environments : s.environments.size ≤ s'.environments.size
  fields : s'.fields = s.fields
  arrays : s.arrays.size ≤ s'.arrays.size
  identities : s.identities ≤ s'.identities

variable {s s' s'' : Store}

theorem Extends.refl (s : Store) : s.Extends s :=
  ⟨.refl s, Nat.le_refl _, rfl, Nat.le_refl _, Nat.le_refl _⟩

theorem Extends.trans (h : s.Extends s') (h' : s'.Extends s'') : s.Extends s'' where
  contents :=
    { names := fun e he n => (h'.contents.names e (Nat.lt_of_lt_of_le he h.environments) n).trans
        (h.contents.names e he n)
      marks := fun e he n => (h'.contents.marks e (Nat.lt_of_lt_of_le he h.environments) n).trans
        (h.contents.marks e he n)
      links := fun e he => (h'.contents.links e (Nat.lt_of_lt_of_le he h.environments)).trans
        (h.contents.links e he)
      fields := fun i hi => (h'.contents.fields i (h.fields ▸ hi)).trans (h.contents.fields i hi)
      elements := fun a ha => (h'.contents.elements a (Nat.lt_of_lt_of_le ha h.arrays)).trans
        (h.contents.elements a ha) }
  environments := Nat.le_trans h.environments h'.environments
  fields := h'.fields.trans h.fields
  arrays := Nat.le_trans h.arrays h'.arrays
  identities := Nat.le_trans h.identities h'.identities

theorem extends_newEnvironment (s : Store) (env : Environment) :
    s.Extends (s.newEnvironment env).2 :=
  ⟨sameContents_newEnvironment s env, by simp, rfl, Nat.le_refl _, Nat.le_refl _⟩

theorem extends_newIdentity (s : Store) : s.Extends s.newIdentity.2 :=
  ⟨(SameContents.refl s).of_eq rfl rfl rfl, Nat.le_refl _, rfl, Nat.le_refl _, Nat.le_succ _⟩

theorem extends_newArray (s : Store) (es : Array Value) : s.Extends (s.newArray es).2 where
  contents :=
    { SameContents.refl s with
      elements := fun a ha => by
        simp [elements, newArray, Array.getElem?_push, Nat.ne_of_lt ha] }
  environments := Nat.le_refl _
  fields := rfl
  arrays := by simp [newArray]
  identities := Nat.le_refl _

theorem extends_bindMethod (s : Store) (m : Closure) (i : Instance) :
    s.Extends (s.bindMethod m i).2 :=
  (extends_newEnvironment s _).trans (extends_newIdentity _)

theorem extends_get {i : Instance} {name : Token} {v : Value}
    (h : s.get i name = .ok (v, s')) : s.Extends s' := by
  unfold get at h
  cases hp : s.property? i name.lexeme with
  | none => simp [hp] at h
  | some p =>
      rw [hp] at h
      cases p with
      | field u =>
          cases h
          exact .refl s
      | method m =>
          cases h
          exact extends_bindMethod s m i

/-- A name in an environment that was not there is no change. -/
theorem Extends.define {e : EnvironmentId} {name : Token} {v : Value} (h : s.Extends s')
    (he : s.environments.size ≤ e) (hs : s'.defineReadOnly e name v = .ok s'') :
    s.Extends s'' := by
  obtain ⟨-, rfl⟩ := defineReadOnly_eq_ok.mp hs
  have hne : ∀ f < s.environments.size, f ≠ e := fun f hf heq =>
    Nat.lt_irrefl _ (Nat.lt_of_lt_of_le (heq ▸ hf) he)
  refine ⟨⟨fun f hf n => ?_, fun f hf n => ?_, fun f hf => ?_, h.contents.fields,
    h.contents.elements⟩, by simpa using h.environments, h.fields, h.arrays, h.identities⟩
  · rw [getLocal?_protect, getLocal?_put, if_neg fun heq => hne f hf heq.1]
    exact h.contents.names f hf n
  · rw [isReadOnly_protect, decide_eq_false fun heq => hne f hf heq.1, Bool.false_or,
      isReadOnly_put]
    exact h.contents.marks f hf n
  · rw [enclosing?_protect, enclosing?_put]
    exact h.contents.links f hf

end Store

/-- All that there was in `s` is as it was, nothing was printed or noted, and no native
function was called. -/
structure State.Undisturbed (s s' : State) : Prop where
  store : s.store.Extends s'.store
  output : s'.output = s.output
  callDepth : s'.callDepth = s.callDepth
  events : s'.events = s.events
  clock : s'.clock = s.clock
  ticks : s'.ticks = s.ticks

namespace State.Undisturbed

variable {s s' s'' : State}

theorem refl (s : State) : s.Undisturbed s := ⟨.refl _, rfl, rfl, rfl, rfl, rfl⟩

theorem trans (h : s.Undisturbed s') (h' : s'.Undisturbed s'') : s.Undisturbed s'' :=
  ⟨h.store.trans h'.store, h'.output.trans h.output, h'.callDepth.trans h.callDepth,
    h'.events.trans h.events, h'.clock.trans h.clock, h'.ticks.trans h.ticks⟩

theorem withStore {u : Store} (h : s.store.Extends u) : s.Undisturbed { s with store := u } :=
  ⟨h, rfl, rfl, rfl, rfl, rfl⟩

end State.Undisturbed

/-! ## Pure machines -/

/-- What is evaluated is pure, and is evaluated in `env`. -/
def Control.Pure (env : EnvironmentId) : Control → Prop
  | .evaluate e f => f = env ∧ e.isPure = true
  | .value _ | .unwind (.failure _) => True
  | _ => False

/-- What the frame waits for is an operand in a pure expression, and so are the operands
that come later. -/
def Frame.Pure (env : EnvironmentId) : Frame → Prop
  | .unary _ | .binary .. | .get _ | .index .. => True
  | .binaryRight _ e f | .logical _ e f | .indexObject _ e f => f = env ∧ e.isPure = true
  | .arraySize _ es f | .arrayElement _ _ _ es f => f = env ∧ allPure es = true
  | _ => False

/-- The machine evaluates a pure expression in `env`. -/
structure Machine.Pure (env : EnvironmentId) (m : Machine) : Prop where
  control : m.control.Pure env
  stack : ∀ frame ∈ m.stack, frame.Pure env

/-- More than the number of moves before a value is there. -/
noncomputable def Control.weight : Control → Nat
  | .evaluate e _ => 2 * sizeOf e
  | _ => 1

/-- More than the number of moves for the operands that come later. -/
noncomputable def Frame.weight : Frame → Nat
  | .binaryRight _ e _ | .logical _ e _ | .indexObject _ e _ => 2 * sizeOf e + 1
  | .arraySize _ es _ | .arrayElement _ _ _ es _ => 2 * sizeOf es + 1
  | _ => 1

noncomputable def Machine.weight (m : Machine) : Nat :=
  m.control.weight + (m.stack.map Frame.weight).sum

theorem one_lt_weight (frame : Frame) : 1 < 1 + frame.weight := by
  cases frame <;> simp [Frame.weight]

namespace Machine

/-! ## One move -/

/-- The machine is pure and lighter than `w` and `stack` together, and what was there in
`s` is undisturbed. -/
structure Advances (env : EnvironmentId) (w : Nat) (stack : List Frame) (s : State)
    (m : Machine) : Prop where
  pure : m.Pure env
  weight : m.weight < w + (stack.map Frame.weight).sum
  state : s.Undisturbed m.state

section
variable {env : EnvironmentId} {w : Nat} {stack : List Frame} {s s' : State}
  (hk : ∀ frame ∈ stack, frame.Pure env)
include hk

/-- A value or a failure is as light as anything. -/
theorem advances_settled {control : Control} (hc : control.Pure env) (hone : control.weight = 1)
    (hw : 1 < w) (hs : s.Undisturbed s') : Advances env w stack s ⟨control, stack, s'⟩ := by
  refine ⟨⟨hc, hk⟩, ?_, hs⟩
  simp only [Machine.weight, hone]
  omega

theorem advances_value (v : Value) (hw : 1 < w) (hs : s.Undisturbed s') :
    Advances env w stack s ⟨.value v, stack, s'⟩ :=
  advances_settled hk trivial rfl hw hs

theorem advances_fail (e : RuntimeError) (hw : 1 < w) : Advances env w stack s (fail e stack s) :=
  advances_settled hk trivial rfl hw (.refl s)

theorem advances_yield (r : Except RuntimeError Value) (hw : 1 < w) :
    Advances env w stack s (yield r stack s) := by
  cases r with
  | ok v => exact advances_value hk v hw (.refl s)
  | error e => exact advances_fail hk e hw

/-- An operand is next. -/
theorem advances_operand {e : Expr} {frame : Frame} (he : e.isPure = true)
    (hframe : frame.Pure env) (hw : 2 * sizeOf e + frame.weight < w) :
    Advances env w stack s ⟨.evaluate e env, frame :: stack, s⟩ := by
  refine ⟨⟨⟨rfl, he⟩, List.forall_mem_cons.mpr ⟨hframe, hk⟩⟩, ?_, .refl s⟩
  simp only [Machine.weight, Control.weight, List.map_cons, List.sum_cons]
  omega

/-- Another expression is next in place of this one. -/
theorem advances_evaluate {e : Expr} (he : e.isPure = true) (hw : 2 * sizeOf e < w) :
    Advances env w stack s ⟨.evaluate e env, stack, s⟩ := by
  refine ⟨⟨⟨rfl, he⟩, hk⟩, ?_, .refl s⟩
  simp only [Machine.weight, Control.weight]
  omega

theorem advances_arrayNext (bracket : Token) (size : Option Nat) (earlier : List Value)
    {later : List Expr} (hlater : allPure later = true) (hw : 2 * sizeOf later + 1 < w) :
    Advances env w stack s (arrayNext bracket size earlier later env stack s) := by
  cases later with
  | cons e es =>
      rw [allPure, Bool.and_eq_true] at hlater
      refine advances_operand hk hlater.1 ⟨rfl, hlater.2⟩ ?_
      simp only [List.cons.sizeOf_spec] at hw
      simp only [Frame.weight]
      omega
  | nil =>
      have hw : 1 < w := by omega
      simp only [arrayNext]
      split
      · exact advances_value hk _ hw (.withStore (Store.extends_newArray ..))
      · exact advances_fail hk _ hw

/-- A function that knows itself by its name defines it in an environment of its own. -/
theorem advances_lambda (d : FunctionDecl) (hw : 1 < w) :
    Advances env w stack s (lambda d env stack s) := by
  unfold lambda
  split
  · have hmade := (Store.extends_newEnvironment s.store ⟨[], [], some env⟩).trans
      (Store.extends_newIdentity _)
    dsimp only
    cases hr : Store.defineReadOnly _ _ _ _ with
    | ok u => exact advances_value hk _ hw (.withStore (hmade.define (Nat.le_refl _) hr))
    | error e => exact advances_settled hk trivial rfl hw (.withStore hmade)
  · exact advances_value hk _ hw (.withStore (Store.extends_newIdentity _))

theorem advances_evaluated {e : Expr} (he : e.isPure = true) :
    Advances env (2 * sizeOf e) stack s (evaluate e env stack s) := by
  have hone : 1 < 2 * sizeOf e := by
    cases e <;> simp <;> omega
  cases e with
  | literal v => exact advances_value hk _ hone (.refl s)
  | «variable» | receiver => exact advances_yield hk _ hone
  | function d => exact advances_lambda hk d hone
  | superMethod keyword name depth =>
      simp only [evaluate]
      split
      · exact advances_value hk _ hone (.withStore (Store.extends_bindMethod ..))
      · exact advances_fail hk _ hone
  | grouping e => exact advances_evaluate hk he (by simp)
  | unary op e => exact advances_operand hk he trivial (by simp [Frame.weight]; omega)
  | get object name => exact advances_operand hk he trivial (by simp [Frame.weight]; omega)
  | binary l op r | logical l op r | index l op r =>
      rw [Expr.isPure, Bool.and_eq_true] at he
      exact advances_operand hk he.1 ⟨rfl, he.2⟩ (by simp [Frame.weight]; omega)
  | array bracket size es =>
      rw [Expr.isPure, Bool.and_eq_true] at he
      cases size with
      | none => exact advances_arrayNext hk bracket none [] he.2 (by simp; omega)
      | some e => exact advances_operand hk he.1 ⟨rfl, he.2⟩ (by simp [Frame.weight]; omega)
  | call | assign | set | setIndex => cases he

theorem advances_resume {frame : Frame} (h : frame.Pure env) (v : Value) :
    Advances env (1 + frame.weight) stack s (resume v frame stack s) := by
  have hone := one_lt_weight frame
  cases frame with
  | unary | binary => exact advances_yield hk _ hone
  | binaryRight op e f =>
      obtain ⟨rfl, he⟩ := h
      exact advances_operand hk he trivial (by simp only [Frame.weight]; omega)
  | logical op e f =>
      obtain ⟨rfl, he⟩ := h
      simp only [resume]
      split
      · exact advances_value hk _ hone (.refl s)
      · exact advances_evaluate hk he (by simp only [Frame.weight]; omega)
  | get name =>
      simp only [resume]
      split
      · split
        · exact advances_value hk _ hone (.withStore (Store.extends_get ‹_›))
        · exact advances_fail hk _ hone
      · split
        · exact advances_value hk _ hone (.refl s)
        · exact advances_fail hk _ hone
      · exact advances_fail hk _ hone
  | arraySize bracket es f =>
      obtain ⟨rfl, hes⟩ := h
      simp only [resume]
      split
      · exact advances_arrayNext hk bracket _ [] hes (by simp only [Frame.weight]; omega)
      · exact advances_fail hk _ hone
  | arrayElement bracket size earlier es f =>
      obtain ⟨rfl, hes⟩ := h
      exact advances_arrayNext hk bracket size _ hes (by simp only [Frame.weight]; omega)
  | indexObject bracket e f =>
      obtain ⟨rfl, he⟩ := h
      simp only [resume]
      split
      · exact advances_operand hk he trivial (by simp only [Frame.weight]; omega)
      · exact advances_fail hk _ hone
  | index a bracket =>
      simp only [resume]
      split
      · split
        · exact advances_value hk _ hone (.refl s)
        · exact advances_fail hk _ hone
      · exact advances_fail hk _ hone
  | _ => cases h

end

/-- Nothing in a pure expression catches a failure. -/
theorem unwind_pure_failure {env : EnvironmentId} {frame : Frame} (h : frame.Pure env)
    (e : RuntimeError) (stack : List Frame) (s : State) :
    unwind (.failure e) frame stack s = ⟨.unwind (.failure e), stack, s⟩ := by
  cases frame <;> first | rfl | cases h

variable {env : EnvironmentId} {m : Machine}

/-- A move keeps the machine pure, leaves what was there undisturbed, and makes the machine
lighter. -/
theorem Pure.step (h : m.Pure env) (hlive : m.hasHalted = false) :
    Advances env m.weight [] m.state m.step := by
  obtain ⟨control, stack, s⟩ := m
  obtain ⟨hc, hk⟩ := h
  cases control with
  | evaluate e f =>
      obtain ⟨rfl, he⟩ := hc
      have hadv := advances_evaluated (s := s) hk he
      exact ⟨hadv.pure, hadv.weight, hadv.state⟩
  | value v =>
      cases stack with
      | nil => cases hlive
      | cons frame stack =>
          obtain ⟨hframe, hk⟩ := List.forall_mem_cons.mp hk
          have hadv := advances_resume (s := s) hk hframe v
          refine ⟨hadv.pure, Nat.lt_of_lt_of_eq hadv.weight ?_, hadv.state⟩
          simp [Machine.weight, Control.weight, Nat.add_assoc]
  | unwind signal =>
      cases signal with
      | failure e =>
          cases stack with
          | nil => cases hlive
          | cons frame stack =>
              obtain ⟨hframe, hk⟩ := List.forall_mem_cons.mp hk
              have hadv := advances_fail (s := s) hk e (one_lt_weight frame)
              rw [step, unwind_pure_failure hframe]
              refine ⟨hadv.pure, Nat.lt_of_lt_of_eq hadv.weight ?_, hadv.state⟩
              simp [Machine.weight, Control.weight, Nat.add_assoc]
      | _ => cases hc
  | _ => cases hc

/-! ## Runs -/

/-- After any number of moves the machine is pure, and nothing is disturbed. -/
theorem Pure.run (h : m.Pure env) (n : Nat) :
    (run n m).Pure env ∧ m.state.Undisturbed (run n m).state := by
  induction n generalizing m with
  | zero => exact ⟨h, .refl _⟩
  | succ n ih =>
      cases hhalted : m.hasHalted with
      | true =>
          rw [run_of_hasHalted hhalted]
          exact ⟨h, .refl _⟩
      | false =>
          have hstep := h.step hhalted
          rw [run_succ]
          obtain ⟨hpure, hstate⟩ := ih hstep.pure
          exact ⟨hpure, hstep.state.trans hstate⟩

/-- A pure machine halts. -/
theorem Pure.halts (h : m.Pure env) : ∃ n, (Machine.run n m).hasHalted = true := by
  induction hw : m.weight using Nat.strongRecOn generalizing m with
  | ind w ih =>
      cases hhalted : m.hasHalted with
      | true => exact ⟨0, hhalted⟩
      | false =>
          have hstep := h.step hhalted
          have hlt : m.step.weight < w := by simpa [hw] using hstep.weight
          obtain ⟨n, hn⟩ := ih _ hlt hstep.pure rfl
          exact ⟨n + 1, by rwa [run_succ]⟩

/-- Where a pure machine has halted, there is a value or a failure and nothing else. -/
theorem Pure.settled (h : m.Pure env) (hhalted : m.hasHalted = true) :
    m.stack = [] ∧ ((∃ v, m.control = .value v) ∨ ∃ e, m.control = .unwind (.failure e)) := by
  obtain ⟨control, stack, s⟩ := m
  obtain ⟨hc, -⟩ := h
  cases control with
  | value v => exact ⟨by simpa [hasHalted] using hhalted, .inl ⟨v, rfl⟩⟩
  | unwind signal =>
      cases signal with
      | failure e => exact ⟨by simpa [hasHalted] using hhalted, .inr ⟨e, rfl⟩⟩
      | _ => cases hc
  | evaluate => cases hhalted
  | _ => cases hc

/-- The machine that is about to evaluate a pure expression. -/
theorem pure_evaluate {e : Expr} (he : e.isPure = true) (env : EnvironmentId) (s : State) :
    Pure env ⟨.evaluate e env, [], s⟩ :=
  ⟨⟨rfl, he⟩, List.forall_mem_nil _⟩

end Machine

end Lox
