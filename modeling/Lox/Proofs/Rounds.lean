/-
# Rounds of a loop

A loop with a step goes round and round:

    condition   false                     the loop is done
                true                      the body is next
                a failure                 the loop is left with it
    body        done, or `continue`       the step is next
                `break`                   the loop is done
                `return` or a failure     the loop is left with it
    step        a value                   the condition is next
                a failure                 the loop is left with it

Each part makes the moves that it makes alone, on top of the loop and of whatever is below,
and then the machine hands over to what is next: `HandsOver`.  So the step is evaluated
once after each body that is done or goes on, and after no other one, whatever the loop
stands in and whether it ever ends: `roundsOf`.  What a loop comes to follows from its
rounds one after the other: `Rounds.executes`.
-/
import Lox.Proofs.Onto

namespace Lox

/-- The control with which a run ends, if it does. -/
def Ending.control? {α : Type} (answer : α → Control) : Ending α → Option Control
  | .answer a => some (answer a)
  | .stopped g => some (.unwind g)
  | .unfinished => none

namespace Machine

/-! ## Parts of a run -/

/-- On top of a stack the machine makes the moves that it makes alone until it halts, and
with the next move it comes to another machine. -/
def HandsOver (m : Machine) (base : List Frame) (next : Machine) : Prop :=
  ∃ k, (run k m).hasHalted = true ∧ (∀ j ≤ k, run j (m.onto base) = (run j m).onto base) ∧
    run (k + 1) (m.onto base) = next

theorem handsOver {m : Machine} {n : Nat} (h : (run n m).hasHalted = true) (base : List Frame) :
    m.HandsOver base ((run n m).onto base).step := by
  induction n generalizing m with
  | zero =>
      refine ⟨0, h, fun j hj => ?_, run_succ 0 _⟩
      obtain rfl := Nat.le_zero.mp hj
      rfl
  | succ n ih =>
      cases hm : m.hasHalted with
      | true =>
          refine ⟨0, hm, fun j hj => ?_, ?_⟩
          · obtain rfl := Nat.le_zero.mp hj
            rfl
          · rw [run_of_hasHalted hm, run_succ, run_zero]
      | false =>
          rw [run_succ] at h ⊢
          obtain ⟨k, hk, hmoves, hnext⟩ := ih h
          refine ⟨k + 1, by rwa [run_succ], fun j hj => ?_, ?_⟩
          · cases j with
            | zero => rfl
            | succ j =>
                rw [run_succ, run_succ, step_onto hm]
                exact hmoves j (Nat.le_of_succ_le_succ hj)
          · rwa [run_succ, step_onto hm]

theorem run_of_execute {moves : Nat} {st : Stmt} {env : EnvironmentId} {s s' : State}
    {r : Ending Unit} (h : State.execute moves st env s = (r, s')) {control : Control}
    (hr : r.control? (fun _ => .done) = some control) :
    run moves ⟨.execute st env, [], s⟩ = ⟨control, [], s'⟩ := by
  simp only [State.execute, Prod.mk.injEq] at h
  generalize run moves ⟨.execute st env, [], s⟩ = m at h ⊢
  obtain ⟨control', stack, t⟩ := m
  obtain ⟨hending, rfl⟩ := h
  subst hending
  unfold doneEnding at hr
  split at hr <;> cases hr
  all_goals
    rename_i hcontrol hstack
    cases hcontrol
    cases hstack
    rfl

theorem run_of_evaluate {moves : Nat} {e : Expr} {env : EnvironmentId} {s s' : State}
    {r : Ending Value} (h : State.evaluate moves e env s = (r, s')) {control : Control}
    (hr : r.control? .value = some control) :
    run moves ⟨.evaluate e env, [], s⟩ = ⟨control, [], s'⟩ := by
  simp only [State.evaluate, Prod.mk.injEq] at h
  generalize run moves ⟨.evaluate e env, [], s⟩ = m at h ⊢
  obtain ⟨control', stack, t⟩ := m
  obtain ⟨hending, rfl⟩ := h
  subst hending
  unfold valueEnding at hr
  split at hr <;> cases hr
  all_goals
    rename_i hcontrol hstack
    cases hcontrol
    cases hstack
    rfl

theorem hasHalted_of_control? {α : Type} {answer : α → Control} {r : Ending α}
    {control : Control} (hanswer : ∀ a s, (⟨answer a, [], s⟩ : Machine).hasHalted = true)
    (hr : r.control? answer = some control) (s : State) :
    (⟨control, [], s⟩ : Machine).hasHalted = true := by
  cases r <;> cases hr
  · exact hanswer _ s
  · rfl

/-- A statement on top of a stack ends as it ends alone, and then the top frame is asked. -/
theorem handsOver_execute {moves : Nat} {st : Stmt} {env : EnvironmentId} {s s' : State}
    {r : Ending Unit} (h : State.execute moves st env s = (r, s')) {control : Control}
    (hr : r.control? (fun _ => .done) = some control) (base : List Frame) :
    HandsOver ⟨.execute st env, [], s⟩ base (step ⟨control, base, s'⟩) := by
  have hrun := run_of_execute h hr
  have hhalted : (run moves ⟨.execute st env, [], s⟩).hasHalted = true :=
    hrun ▸ hasHalted_of_control? (fun _ _ => rfl) hr s'
  have hover := handsOver hhalted base
  rwa [hrun] at hover

theorem handsOver_evaluate {moves : Nat} {e : Expr} {env : EnvironmentId} {s s' : State}
    {r : Ending Value} (h : State.evaluate moves e env s = (r, s')) {control : Control}
    (hr : r.control? .value = some control) (base : List Frame) :
    HandsOver ⟨.evaluate e env, [], s⟩ base (step ⟨control, base, s'⟩) := by
  have hrun := run_of_evaluate h hr
  have hhalted : (run moves ⟨.evaluate e env, [], s⟩).hasHalted = true :=
    hrun ▸ hasHalted_of_control? (fun _ _ => rfl) hr s'
  have hover := handsOver hhalted base
  rwa [hrun] at hover

/-- The machine comes to another one. -/
def Comes (m m' : Machine) : Prop := ∃ k, run k m = m'

theorem Comes.trans {m m' m'' : Machine} (h : m.Comes m') (h' : m'.Comes m'') : m.Comes m'' := by
  obtain ⟨k, rfl⟩ := h
  obtain ⟨j, rfl⟩ := h'
  exact ⟨k + j, run_add k j m⟩

theorem HandsOver.comes {m next : Machine} {base : List Frame} (h : m.HandsOver base next) :
    (m.onto base).Comes next := by
  obtain ⟨k, -, -, hnext⟩ := h
  exact ⟨k + 1, hnext⟩

/-! ## One round -/

/-- What follows each part of a loop, on top of any stack.  The step is next after a body
that is done or goes on, and after no other one; once it has a value, the condition is
next. -/
structure RoundsOf (condition : Expr) (body : Stmt) (step : Expr) : Prop where
  tested : ∀ {moves env s v s'} (stack : List Frame),
    State.evaluate moves condition env s = (.answer v, s') →
    HandsOver ⟨.evaluate condition env, [], s⟩ (.loopTest condition body (some step) env :: stack)
      (if v.isTruthy then
        ⟨.execute body env, .loopBody condition body (some step) env :: stack, s'⟩
      else ⟨.done, stack, s'⟩)
  testFailed : ∀ {moves env s g s'} (stack : List Frame),
    State.evaluate moves condition env s = (.stopped g, s') →
    HandsOver ⟨.evaluate condition env, [], s⟩ (.loopTest condition body (some step) env :: stack)
      ⟨.unwind g, stack, s'⟩
  completed : ∀ {moves env s r s'} (stack : List Frame),
    State.execute moves body env s = (r, s') → r = .answer () ∨ r = .stopped .continuing →
    HandsOver ⟨.execute body env, [], s⟩ (.loopBody condition body (some step) env :: stack)
      ⟨.evaluate step env, .loopStep condition body (some step) env :: stack, s'⟩
  broken : ∀ {moves env s s'} (stack : List Frame),
    State.execute moves body env s = (.stopped .breaking, s') →
    HandsOver ⟨.execute body env, [], s⟩ (.loopBody condition body (some step) env :: stack)
      ⟨.done, stack, s'⟩
  left : ∀ {moves env s g s'} (stack : List Frame),
    State.execute moves body env s = (.stopped g, s') → g ≠ .breaking → g ≠ .continuing →
    HandsOver ⟨.execute body env, [], s⟩ (.loopBody condition body (some step) env :: stack)
      ⟨.unwind g, stack, s'⟩
  stepped : ∀ {moves env s v s'} (stack : List Frame),
    State.evaluate moves step env s = (.answer v, s') →
    HandsOver ⟨.evaluate step env, [], s⟩ (.loopStep condition body (some step) env :: stack)
      ⟨.evaluate condition env, .loopTest condition body (some step) env :: stack, s'⟩
  stepFailed : ∀ {moves env s g s'} (stack : List Frame),
    State.evaluate moves step env s = (.stopped g, s') →
    HandsOver ⟨.evaluate step env, [], s⟩ (.loopStep condition body (some step) env :: stack)
      ⟨.unwind g, stack, s'⟩

theorem roundsOf (condition : Expr) (body : Stmt) (step : Expr) :
    RoundsOf condition body step where
  tested _ h := handsOver_evaluate h rfl _
  testFailed _ h := handsOver_evaluate h rfl _
  completed _ h hr := by
    rcases hr with rfl | rfl
    · exact handsOver_execute h rfl _
    · exact handsOver_execute h rfl _
  broken _ h := handsOver_execute h rfl _
  left := by
    intro moves env s g s' stack h hbreaking hcontinuing
    have hover := handsOver_execute h rfl (.loopBody condition body (some step) env :: stack)
    cases g with
    | failure | returning => exact hover
    | breaking => exact absurd rfl hbreaking
    | continuing => exact absurd rfl hcontinuing
  stepped _ h := handsOver_evaluate h rfl _
  stepFailed _ h := handsOver_evaluate h rfl _

/-! ## A loop -/

/-- Rounds of a loop from one state to the end of the loop in another. -/
inductive Rounds (condition : Expr) (body : Stmt) (step : Expr) (env : EnvironmentId) :
    State → Ending Unit → State → Prop
  | testFailed {moves s g s₁} : State.evaluate moves condition env s = (.stopped g, s₁) →
      Rounds condition body step env s (.stopped g) s₁
  | «over» {moves s v s₁} : State.evaluate moves condition env s = (.answer v, s₁) →
      v.isTruthy = false → Rounds condition body step env s (.answer ()) s₁
  | broken {moves moves' s v s₁ s₂} : State.evaluate moves condition env s = (.answer v, s₁) →
      v.isTruthy = true → State.execute moves' body env s₁ = (.stopped .breaking, s₂) →
      Rounds condition body step env s (.answer ()) s₂
  | left {moves moves' s v s₁ g s₂} : State.evaluate moves condition env s = (.answer v, s₁) →
      v.isTruthy = true → State.execute moves' body env s₁ = (.stopped g, s₂) →
      g ≠ .breaking → g ≠ .continuing → Rounds condition body step env s (.stopped g) s₂
  | stepFailed {moves moves' moves'' s v s₁ r s₂ g s₃} :
      State.evaluate moves condition env s = (.answer v, s₁) → v.isTruthy = true →
      State.execute moves' body env s₁ = (r, s₂) → r = .answer () ∨ r = .stopped .continuing →
      State.evaluate moves'' step env s₂ = (.stopped g, s₃) →
      Rounds condition body step env s (.stopped g) s₃
  | again {moves moves' moves'' s v s₁ r s₂ w s₃ r' s₄} :
      State.evaluate moves condition env s = (.answer v, s₁) → v.isTruthy = true →
      State.execute moves' body env s₁ = (r, s₂) → r = .answer () ∨ r = .stopped .continuing →
      State.evaluate moves'' step env s₂ = (.answer w, s₃) →
      Rounds condition body step env s₃ r' s₄ → Rounds condition body step env s r' s₄

section
variable {condition : Expr} {body : Stmt} {step : Expr} {env : EnvironmentId} {s s' : State}

theorem RoundsOf.enter (h : RoundsOf condition body step) {moves : Nat} {v : Value}
    (heval : State.evaluate moves condition env s = (.answer v, s')) (hv : v.isTruthy = true)
    (stack : List Frame) : (loop condition body (some step) env stack s).Comes
      ⟨.execute body env, .loopBody condition body (some step) env :: stack, s'⟩ := by
  have hcomes := (h.tested stack heval).comes
  rwa [if_pos hv] at hcomes

/-- A loop in a stack leaves the stack as its rounds end. -/
theorem Rounds.comes {r : Ending Unit} (h : Rounds condition body step env s r s')
    (stack : List Frame) : ∃ control, r.control? (fun _ => .done) = some control ∧
      (loop condition body (some step) env stack s).Comes ⟨control, stack, s'⟩ := by
  have hof := roundsOf condition body step
  induction h with
  | testFailed h => exact ⟨_, rfl, (hof.testFailed stack h).comes⟩
  | «over» h hv =>
      have hcomes := (hof.tested stack h).comes
      rw [hv] at hcomes
      exact ⟨_, rfl, hcomes⟩
  | broken h hv hbody => exact ⟨_, rfl, (hof.enter h hv stack).trans (hof.broken stack hbody).comes⟩
  | left h hv hbody hbreaking hcontinuing =>
      exact ⟨_, rfl,
        (hof.enter h hv stack).trans (hof.left stack hbody hbreaking hcontinuing).comes⟩
  | stepFailed h hv hbody hr hstep =>
      have hbody := (hof.enter h hv stack).trans (hof.completed stack hbody hr).comes
      exact ⟨_, rfl, hbody.trans (hof.stepFailed stack hstep).comes⟩
  | again h hv hbody hr hstep _ ih =>
      have hbody := (hof.enter h hv stack).trans (hof.completed stack hbody hr).comes
      obtain ⟨control, hcontrol, hcomes⟩ := ih
      exact ⟨control, hcontrol, (hbody.trans (hof.stepped stack hstep).comes).trans hcomes⟩

/-- What a loop comes to is what its rounds come to. -/
theorem Rounds.executes {r : Ending Unit} (h : Rounds condition body step env s r s') :
    ∃ moves, State.execute moves (.whileLoop condition body (some step)) env s = (r, s') := by
  obtain ⟨control, hcontrol, k, hk⟩ := h.comes []
  refine ⟨k + 1, ?_⟩
  have hrun : Machine.run (k + 1) ⟨.execute (.whileLoop condition body (some step)) env, [], s⟩ =
      ⟨control, [], s'⟩ := by
    rw [run_succ]
    exact hk
  unfold State.execute
  rw [hrun]
  cases r <;> cases hcontrol <;> rfl

end

end Machine

end Lox
