/-
# Evaluating a pure expression again

A pure expression disturbs nothing, so when it is evaluated again at once it finds what it
found before, and what was made the first time besides, which nothing leads to.  The two
machines make the same moves: `Machine.Again` says that the second holds what the first
holds, with the numbers that were given out in between passed over.

So the second evaluation fails with the same error, or yields the same value but for the
numbers of functions and arrays that were made; and what these lead to is the same in the
same way.
-/
import Lox.Proofs.Gap

namespace Lox

/-- What a pure machine of the second run waits for. -/
def Frame.across (g : Gap) : Frame → Frame
  | .binary left op => .binary (left.across g) op
  | .arrayElement bracket size earlier later env =>
    .arrayElement bracket size (earlier.map (·.across g)) later env
  | .index a bracket => .index (g.array a) bracket
  | frame => frame

def Control.across (g : Gap) : Control → Control
  | .value v => .value (v.across g)
  | control => control

namespace Machine

/-- A function with a name is defined in an environment of its own. -/
theorem lambda_some {d : FunctionDecl} {name : Token} (h : d.name = some name)
    (env : EnvironmentId) (stack : List Frame) (s : State) :
    lambda d env stack s =
      let made := (s.store.child env).2.newClosure d s.store.environments.size false
      yieldWith (.callable (.function made.1))
        (made.2.defineReadOnly s.store.environments.size name (.callable (.function made.1))) stack
        { s with store := made.2 } := by
  simp only [lambda, h]
  rfl

/-- The machine `m'` does in a second run what `m` does in a first one. -/
structure Again (g : Gap) (m m' : Machine) : Prop where
  control : m'.control = m.control.across g
  stack : m'.stack = m.stack.map (·.across g)
  store : m.state.store.Across g m'.state.store
  holds : m.Holds (Value.Anchored g.base.environments)

section
variable {g : Gap} {stack : List Frame} {s t : State}
  (hk : ∀ frame ∈ stack, frame.Holds (Value.Anchored g.base.environments))
  (h : s.store.Across g t.store)
  (hs : s.store.Only (Value.Anchored g.base.environments))
include hk h hs

theorem again_value {v : Value} (hv : v.Anchored g.base.environments) :
    Again g ⟨.value v, stack, s⟩ ⟨.value (v.across g), stack.map (·.across g), t⟩ :=
  ⟨rfl, rfl, h, hv, hk, hs⟩

theorem again_fail (e : RuntimeError) :
    Again g (fail e stack s) (fail e (stack.map (·.across g)) t) :=
  ⟨rfl, rfl, h, trivial, hk, hs⟩

theorem again_evaluate (e : Expr) (env : EnvironmentId) :
    Again g ⟨.evaluate e env, stack, s⟩ ⟨.evaluate e env, stack.map (·.across g), t⟩ :=
  ⟨rfl, rfl, h, trivial, hk, hs⟩

theorem again_operand (e : Expr) (env : EnvironmentId) {frame : Frame}
    (hframe : frame.Holds (Value.Anchored g.base.environments)) :
    Again g ⟨.evaluate e env, frame :: stack, s⟩
      ⟨.evaluate e env, frame.across g :: stack.map (·.across g), t⟩ :=
  ⟨rfl, rfl, h, trivial, List.forall_mem_cons.mpr ⟨hframe, hk⟩, hs⟩

theorem again_yield {r r' : Except RuntimeError Value} (hr : r' = r.map (·.across g))
    (hv : ∀ v, r = .ok v → v.Anchored g.base.environments) :
    Again g (yield r stack s) (yield r' (stack.map (·.across g)) t) := by
  subst hr
  cases r with
  | ok v => exact again_value hk h hs (hv v rfl)
  | error e => exact again_fail hk h hs e

/-- An operator yields a scalar, which is the same in both runs. -/
theorem again_scalar {r r' : Except RuntimeError Value} (hr : r' = r)
    (hv : ∀ v, r = .ok v → v.Scalar) :
    Again g (yield r stack s) (yield r' (stack.map (·.across g)) t) := by
  refine again_yield hk h hs ?_ fun v hr => (hv v hr).anchored _
  rw [hr]
  cases r with
  | ok v => rw [Except.map, (hv v rfl).across]
  | error e => rfl

theorem again_arrayNext (bracket : Token) (size : Option Nat) {earlier : List Value}
    (hearlier : ∀ v ∈ earlier, v.Anchored g.base.environments) (later : List Expr)
    (env : EnvironmentId) :
    Again g (arrayNext bracket size earlier later env stack s)
      (arrayNext bracket size (earlier.map (·.across g)) later env (stack.map (·.across g)) t) := by
  cases later with
  | cons e es => exact again_operand hk h hs e env hearlier
  | nil =>
      have helements := usual_arrayElements size earlier.reverse bracket
      simp only [arrayNext, ← List.map_reverse, Value.arrayElements_across]
      cases hr : arrayElements size earlier.reverse bracket with
      | error e => exact again_fail hk h hs e
      | ok vs =>
          rw [hr] at helements
          have hvs : ∀ (i : Nat) v, vs[i]? = some v → v.Anchored g.base.environments := by
            intro i v hv
            rcases helements i v hv with hgiven | rfl
            · exact hearlier v (List.mem_reverse.mp hgiven)
            · trivial
          refine ⟨congrArg Control.value ?_, rfl, h.newArray vs, trivial, hk, hs.newArray hvs⟩
          exact congrArg Value.array h.nextArray.symm

theorem again_lambda (d : FunctionDecl) {env : EnvironmentId}
    (henv : env < g.base.environments) :
    Again g (lambda d env stack s) (lambda d env (stack.map (·.across g)) t) := by
  cases hname : d.name with
  | none =>
      obtain ⟨hf, hmade⟩ := h.newClosure d env false
      rw [g.environment_of_lt henv] at hf hmade
      simp only [lambda, hname]
      exact ⟨congrArg (Control.value ∘ Value.callable ∘ Callable.function) hf, rfl, hmade, trivial,
        hk, hs.newIdentity⟩
  | some name =>
      have hscope := h.child env
      rw [g.environment_of_lt henv] at hscope
      obtain ⟨hf, hmade⟩ := hscope.newClosure d s.store.environments.size false
      rw [h.nextEnvironment] at hf hmade
      have honly := (hs.child env).newIdentity
      have hdefined := hmade.defineReadOnly s.store.environments.size name
        (.callable (.function
          ((s.store.child env).2.newClosure d s.store.environments.size false).1))
      rw [h.nextEnvironment, Value.across, ← hf] at hdefined
      rw [lambda_some hname, lambda_some hname]
      obtain ⟨s', t', hs', ht', hacross⟩ | ⟨e, hs', ht'⟩ := hdefined
      · simp only [hs', ht']
        refine ⟨congrArg (Control.value ∘ Value.callable ∘ Callable.function) hf, rfl, hacross,
          trivial, hk, honly.defineReadOnly ?_ hs'⟩
        exact trivial
      · simp only [hs', ht']
        exact ⟨rfl, rfl, hmade, trivial, hk, honly⟩

/-- Methods are bound in environments that were there. -/
theorem again_bindMethod {m : Closure} (hm : m.environment < g.base.environments) {i : Instance}
    (hi : (Value.instance i).Anchored g.base.environments) :
    Again g
      ⟨.value (.callable (.function (s.store.bindMethod m i).1)), stack,
        { s with store := (s.store.bindMethod m i).2 }⟩
      ⟨.value (.callable (.function (t.store.bindMethod m i).1)), stack.map (·.across g),
        { t with store := (t.store.bindMethod m i).2 }⟩ := by
  obtain ⟨hf, hmade⟩ := h.bindMethod hm i
  exact ⟨congrArg (Control.value ∘ Value.callable ∘ Callable.function) hf, rfl, hmade, trivial, hk,
    hs.bindMethod hi m⟩

theorem again_evaluated (e : Expr) (he : e.isPure = true) {env : EnvironmentId}
    (henv : env < g.base.environments) :
    Again g (evaluate e env stack s) (evaluate e env (stack.map (·.across g)) t) := by
  have hlook : ∀ name depth, Again g (yield (lookUp s.store name depth env) stack s)
      (yield (lookUp t.store name depth env) (stack.map (·.across g)) t) := fun name depth =>
    again_yield hk h hs (h.lookUp henv name depth) fun v hv => hs.lookUp hv
  cases e with
  | literal v =>
      have hvalue := again_value hk h hs (v := .ofLiteral v) (by cases v <;> trivial)
      rwa [Value.across_ofLiteral] at hvalue
  | «variable» | receiver => exact hlook _ _
  | superMethod keyword name depth =>
      simp only [evaluate, h.superMethod henv]
      split
      · rename_i m i hfound
        obtain ⟨d, c, -, hclass, hreceiver, hm⟩ := superMethod_eq_ok hfound
        exact again_bindMethod hk h hs (hs.accessAt hclass _ m hm) (hs.accessAt hreceiver)
      · exact again_fail hk h hs _
  | function d => exact again_lambda hk h hs d henv
  | array bracket size es =>
      cases size with
      | none => exact again_arrayNext hk h hs bracket none (List.forall_mem_nil _) es env
      | some e => exact again_operand hk h hs e env trivial
  | grouping e => exact again_evaluate hk h hs e env
  | unary | binary | logical | get | index => exact again_operand hk h hs _ env trivial
  | call | assign | set | setIndex => cases he

/-- A property is a field or a bound method of an instance, or a member of a module. -/
theorem again_get (name : Token) {v : Value} (hv : v.Anchored g.base.environments) :
    Again g (resume v (.get name) stack s)
      (resume (v.across g) (.get name) (stack.map (·.across g)) t) := by
  cases v with
  | «instance» i =>
      simp only [resume, Value.across, Store.get, Store.property?, h.fields]
      cases hfield : (s.store.fieldsOf i).get? name.lexeme with
      | some u => exact again_value hk h hs (hs.fields hfield)
      | none =>
          cases hmethod : i.ofClass.findMethod? name.lexeme with
          | some m => exact again_bindMethod hk h hs (hv name.lexeme m hmethod) hv
          | none => exact again_fail hk h hs _
  | module m =>
      have hmember := h.names m.environment name.lexeme
      rw [g.environment_of_lt hv] at hmember
      simp only [resume, Value.across, hmember]
      cases hu : s.store.getLocal? m.environment name.lexeme with
      | some u => exact again_value hk h hs (hs.bindings hu)
      | none => exact again_fail hk h hs _
  | callable c => cases c <;> exact again_fail hk h hs _
  | _ => exact again_fail hk h hs _

theorem again_resume {frame : Frame} {env : EnvironmentId} (hpure : frame.Pure env) {v : Value}
    (hframe : frame.Holds (Value.Anchored g.base.environments))
    (hv : v.Anchored g.base.environments) :
    Again g (resume v frame stack s)
      (resume (v.across g) (frame.across g) (stack.map (·.across g)) t) := by
  cases frame with
  | unary op =>
      exact again_scalar hk h hs (Value.applyUnary_across op) fun _ hr => scalar_applyUnary hr
  | binary left op =>
      exact again_scalar hk h hs (Value.applyBinary_across op) fun _ hr => scalar_applyBinary hr
  | binaryRight op e f => exact again_operand hk h hs e f hv
  | logical op e f =>
      simp only [resume, Frame.across, Value.decidedBy_across]
      split
      · exact again_value hk h hs hv
      · exact again_evaluate hk h hs e f
  | get name => exact again_get hk h hs name hv
  | arraySize bracket es f =>
      simp only [resume, Frame.across, Value.arraySize_across]
      split
      · exact again_arrayNext hk h hs bracket _ (List.forall_mem_nil _) es f
      · exact again_fail hk h hs _
  | arrayElement bracket size earlier es f =>
      exact again_arrayNext hk h hs bracket size (List.forall_mem_cons.mpr ⟨hv, hframe⟩) es f
  | indexObject bracket e f =>
      simp only [resume, Frame.across, Value.asArray_across]
      cases asArray v bracket with
      | ok a => exact again_operand hk h hs e f trivial
      | error err => exact again_fail hk h hs err
  | index a bracket =>
      simp only [resume, Frame.across, h.length, Value.asIndex_across]
      cases asIndex v (s.store.length a) bracket with
      | ok i =>
          simp only [h.element?]
          cases hu : s.store.element? a i with
          | none => exact again_fail hk h hs _
          | some u => exact again_value hk h hs (hs.arrays hu)
      | error err => exact again_fail hk h hs err
  | _ => cases hpure

end

variable {g : Gap} {env : EnvironmentId} {m m' : Machine}

/-- The second machine moves as the first does. -/
theorem Again.step (h : Again g m m') (hpure : m.Pure env) (henv : env < g.base.environments) :
    Again g m.step m'.step := by
  obtain ⟨control, stack, s⟩ := m
  obtain ⟨control', stack', t⟩ := m'
  obtain ⟨rfl, rfl, hstore, hc, hk, hs⟩ := h
  cases control with
  | evaluate e f =>
      obtain ⟨rfl, he⟩ := hpure.control
      exact again_evaluated hk hstore hs e he henv
  | value v =>
      cases stack with
      | nil => exact again_value hk hstore hs hc
      | cons frame stack =>
          obtain ⟨hframe, hk⟩ := List.forall_mem_cons.mp hk
          obtain ⟨hwaits, -⟩ := List.forall_mem_cons.mp hpure.stack
          exact again_resume hk hstore hs hwaits hframe hc
  | unwind signal =>
      cases signal with
      | failure e =>
          cases stack with
          | nil => exact again_fail hk hstore hs e
          | cons frame stack =>
              obtain ⟨-, hk⟩ := List.forall_mem_cons.mp hk
              obtain ⟨hwaits, -⟩ := List.forall_mem_cons.mp hpure.stack
              have hacross : unwind (.failure e) (frame.across g) (stack.map (·.across g)) t =
                  ⟨.unwind (.failure e), stack.map (·.across g), t⟩ := by
                cases frame <;> first | rfl | cases hwaits
              show Again g (unwind (.failure e) frame stack s)
                (unwind (.failure e) (frame.across g) (stack.map (·.across g)) t)
              rw [unwind_pure_failure hwaits, hacross]
              exact again_fail hk hstore hs e
      | _ => cases hpure.control
  | _ => cases hpure.control

/-- The second machine runs as the first does. -/
theorem Again.run (h : Again g m m') (hpure : m.Pure env) (henv : env < g.base.environments)
    (n : Nat) : Again g (run n m) (run n m') := by
  induction n generalizing m m' with
  | zero => exact h
  | succ n ih =>
      rw [run_succ, run_succ]
      cases hhalted : m.hasHalted with
      | true =>
          have hstep := step_of_hasHalted hhalted
          exact ih (h.step hpure henv) (hstep.symm ▸ hpure)
      | false => exact ih (h.step hpure henv) (hpure.step hhalted).pure

/-- In a store that leads to nothing that was not made, a machine is followed by the one that
begins with more in its store. -/
theorem again_of_closed {e : Expr} {env : EnvironmentId} {s t : State} (h : s.store.Closed)
    (ht : s.store.Extends t.store) :
    Again (s.store.gap t.store) ⟨.evaluate e env, [], s⟩ ⟨.evaluate e env, [], t⟩ :=
  ⟨rfl, rfl, h.across ht, trivial, List.forall_mem_nil _, h.known.imp fun _ hv => hv.anchored⟩

end Machine

/-- The same ending, its value across the gap. -/
def Ending.across (g : Gap) : Ending Value → Ending Value
  | .answer v => .answer (v.across g)
  | r => r

theorem Machine.Again.valueEnding {g : Gap} {m m' : Machine} (h : m.Again g m') :
    m'.valueEnding = m.valueEnding.across g := by
  obtain ⟨control, stack, s⟩ := m
  obtain ⟨control', stack', t⟩ := m'
  obtain ⟨rfl, rfl, -⟩ := h
  cases control <;> cases stack <;> rfl

theorem Machine.Again.hasHalted {g : Gap} {m m' : Machine} (h : m.Again g m') :
    m'.hasHalted = m.hasHalted := by
  obtain ⟨control, stack, s⟩ := m
  obtain ⟨control', stack', t⟩ := m'
  obtain ⟨rfl, rfl, -⟩ := h
  cases control <;> cases stack <;> rfl

/-- An evaluation that has ended is not changed by further moves. -/
theorem State.evaluate_of_le {n k : Nat} {e : Expr} {env : EnvironmentId} {s : State}
    (h : (Machine.run n ⟨.evaluate e env, [], s⟩).hasHalted = true) (hle : n ≤ k) :
    State.evaluate k e env s = State.evaluate n e env s := by
  unfold State.evaluate
  rw [Machine.run_of_le h hle]

/-! ## The theorem -/

/-- The evaluation of a pure expression ends, with a value or with a failure.  It prints
nothing, makes no call, and leaves all that there was as it was, at every move.  Evaluated
again in the state that it left, where nothing leads to what was never made, the expression
fails with the same error or has the same value, as far as functions and arrays that were
made have new numbers; and so has the store.  At every moment of a session the store leads
to nothing that was never made. -/
theorem pure_evaluates_again :
    (∀ {limit now texts t m}, Session.Moment limit now texts t m → m.state.store.Closed) ∧
    ∀ {e : Expr}, e.isPure = true → ∀ (env : EnvironmentId) (s : State),
      (∀ k, s.Undisturbed (State.evaluate k e env s).2) ∧
      ∃ n r s', (∀ k, n ≤ k → State.evaluate k e env s = (r, s')) ∧
        ((∃ v, r = .answer v) ∨ ∃ err, r = .stopped (.failure err)) ∧
        (s.store.Closed → env < s.store.environments.size →
          ∃ s'', (∀ k, n ≤ k →
              State.evaluate k e env s' = (r.across (s.store.gap s'.store), s'')) ∧
            s'.store.Across (s.store.gap s'.store) s''.store) := by
  refine ⟨fun h => h.closed, fun {e} he env s => ?_⟩
  have hpure := Machine.pure_evaluate he env s
  refine ⟨fun k => (hpure.run k).2, ?_⟩
  obtain ⟨n, hhalted⟩ := hpure.halts
  obtain ⟨hpure', hstate⟩ := hpure.run n
  refine ⟨n, _, _, fun k hk => State.evaluate_of_le hhalted hk, ?_, fun hclosed henv => ?_⟩
  · obtain ⟨hstack, ⟨v, hv⟩ | ⟨err, herr⟩⟩ := hpure'.settled hhalted
    · exact .inl ⟨v, Machine.valueEnding_eq_answer.mpr ⟨hv, hstack⟩⟩
    · exact .inr ⟨err, by simp only [Machine.valueEnding, hstack, herr]⟩
  · -- the two machines make the same moves, and so halt after the same number of them
    have hagain := (Machine.again_of_closed hclosed hstate.store).run hpure henv n
    have hhalted' := hagain.hasHalted.trans hhalted
    refine ⟨_, fun k hk => ?_, hagain.store⟩
    rw [← hagain.valueEnding]
    exact State.evaluate_of_le hhalted' hk

/-- The expression `[fun () {}]`. -/
def listedFunction : Expr :=
  .array (.implicitAt "[" default) none [.function (.mk (.implicitAt "fun" default) none [] [])]

/-- At the beginning of a session, `[fun () {}]` makes the first array, and the second one when it
is evaluated again. -/
theorem pure_evaluates_again_listedFunction : listedFunction.isPure = true ∧
    (State.initial none 0).store.Closed ∧
    ∃ n s' s'', State.evaluate n listedFunction State.globals (.initial none 0) =
        (.answer (.array 0), s') ∧
      State.evaluate n listedFunction State.globals s' = (.answer (.array 1), s'') := by
  obtain ⟨hclosed, hagain⟩ := pure_evaluates_again
  have hfirst := hclosed (@Session.Moment.first none 0)
  obtain ⟨-, n, r, s', hruns, -, hsecond⟩ :=
    hagain (e := listedFunction) rfl State.globals (.initial none 0)
  obtain ⟨s'', hruns', -⟩ := hsecond hfirst (by decide)
  have hvalue : State.evaluate 4 listedFunction State.globals (.initial none 0) =
      (.answer (.array 0), _) := rfl
  have hle : State.evaluate (max n 4) listedFunction State.globals (.initial none 0) =
      State.evaluate 4 listedFunction State.globals (.initial none 0) :=
    State.evaluate_of_le rfl (Nat.le_max_right n 4)
  have hboth := ((hruns _ (Nat.le_max_left n 4)).symm.trans hle).trans hvalue
  obtain ⟨rfl, rfl⟩ := Prod.mk.inj hboth
  exact ⟨rfl, hfirst, n, _, s'', hruns n (Nat.le_refl n), hruns' n (Nat.le_refl n)⟩

end Lox
