/-
# A machine on top of a stack

A machine never looks at more than the top frame.  So with frames put under its
stack, `onto`, it makes the moves that it makes without them, until it halts;
only then does the topmost of them get its turn.  `run_onto` cuts a run there.

This is how a run of a declaration, a call or a loop is taken apart: what stands
on the frame that the construct pushed runs as it would alone.
-/
import Lox.Proofs.Machine

namespace Lox.Machine

/-- The machine with more frames under its stack. -/
def onto (m : Machine) (base : List Frame) : Machine := { m with stack := m.stack ++ base }

@[simp] theorem onto_mk (control : Control) (stack : List Frame) (s : State)
    (base : List Frame) : (⟨control, stack, s⟩ : Machine).onto base = ⟨control, stack ++ base, s⟩ :=
  rfl

@[simp] theorem onto_nil (m : Machine) : m.onto [] = m := by
  obtain ⟨control, stack, s⟩ := m
  simp

@[simp] theorem state_onto (m : Machine) (base : List Frame) : (m.onto base).state = m.state := rfl

@[simp] theorem control_onto (m : Machine) (base : List Frame) :
    (m.onto base).control = m.control := rfl

/-- With a frame under its stack, a machine has something left to do. -/
theorem hasHalted_onto (m : Machine) {base : List Frame} (h : base ≠ []) :
    (m.onto base).hasHalted = false := by
  obtain ⟨control, stack, s⟩ := m
  cases control <;> simp [hasHalted, h]

/-! ## Answers -/

/-- A run of an expression has an answer where its value is all that there is. -/
theorem valueEnding_eq_answer {m : Machine} {v : Value} :
    m.valueEnding = .answer v ↔ m.control = .value v ∧ m.stack = [] := by
  obtain ⟨control, stack, s⟩ := m
  cases control <;> cases stack <;> simp [valueEnding]

/-- A run of statements has an answer where it is done with all. -/
theorem doneEnding_eq_answer {m : Machine} :
    m.doneEnding = .answer () ↔ m.control = .done ∧ m.stack = [] := by
  obtain ⟨control, stack, s⟩ := m
  cases control <;> cases stack <;> simp [doneEnding]

/-! ## Moves -/

section
variable (stack base : List Frame) (s : State)

theorem yield_onto (r : Except RuntimeError Value) :
    yield r (stack ++ base) s = (yield r stack s).onto base := by
  cases r <;> rfl

theorem yieldWith_onto (v : Value) (r : Except RuntimeError Store) :
    yieldWith v r (stack ++ base) s = (yieldWith v r stack s).onto base := by
  cases r <;> rfl

theorem doneWith_onto (r : Except RuntimeError Store) :
    doneWith r (stack ++ base) s = (doneWith r stack s).onto base := by
  cases r <;> rfl

theorem enter_onto (f : Closure) (arguments : List Value) :
    enter f arguments (stack ++ base) s = (enter f arguments stack s).onto base := by
  unfold enter
  dsimp only
  split <;> rfl

theorem construct_onto (c : Class) (arguments : List Value) :
    construct c arguments (stack ++ base) s = (construct c arguments stack s).onto base := by
  unfold construct
  cases c.findMethod? FunctionDecl.initializerName with
  | some init =>
      exact enter_onto (.constructed (s.store.newInstance c).1 :: stack) base _ _ arguments
  | none => rfl

theorem invoke_onto (c : Callable) (arguments : List Value) :
    invoke c arguments (stack ++ base) s = (invoke c arguments stack s).onto base := by
  cases c with
  | function f => exact enter_onto stack base _ f arguments
  | «class» c => exact construct_onto stack base _ c arguments
  | native n => exact yield_onto stack base _ _

theorem apply_onto (callee : Value) (arguments : List Value) (paren : Token) :
    apply callee arguments paren (stack ++ base) s =
      (apply callee arguments paren stack s).onto base := by
  unfold apply
  split
  · split
    · rfl
    · split
      · rfl
      · exact invoke_onto (.activeCall paren :: stack) base _ _ arguments
  · rfl

theorem applyNext_onto (callee : Value) (earlier : List Value) (paren : Token)
    (later : List Expr) (env : EnvironmentId) :
    applyNext callee earlier paren later env (stack ++ base) s =
      (applyNext callee earlier paren later env stack s).onto base := by
  cases later with
  | nil => exact apply_onto stack base s callee _ paren
  | cons e es => rfl

theorem arrayNext_onto (bracket : Token) (size : Option Nat) (earlier : List Value)
    (later : List Expr) (env : EnvironmentId) :
    arrayNext bracket size earlier later env (stack ++ base) s =
      (arrayNext bracket size earlier later env stack s).onto base := by
  cases later with
  | nil =>
      unfold arrayNext
      dsimp only
      split <;> rfl
  | cons e es => rfl

theorem lambda_onto (d : FunctionDecl) (env : EnvironmentId) :
    lambda d env (stack ++ base) s = (lambda d env stack s).onto base := by
  unfold lambda
  split
  · exact yieldWith_onto ..
  · rfl

theorem evaluate_onto (e : Expr) (env : EnvironmentId) :
    evaluate e env (stack ++ base) s = (evaluate e env stack s).onto base := by
  cases e with
  | «variable» | receiver => exact yield_onto ..
  | superMethod =>
      simp only [evaluate]
      split <;> rfl
  | function => exact lambda_onto ..
  | array bracket size es =>
      cases size with
      | none => exact arrayNext_onto ..
      | some => rfl
  | _ => rfl

theorem loopNext_onto (condition : Expr) (body : Stmt) (step : Option Expr)
    (env : EnvironmentId) :
    loopNext condition body step env (stack ++ base) s =
      (loopNext condition body step env stack s).onto base := by
  cases step <;> rfl

theorem defineClass_onto (name : Token) (superclass : Option Class) (ms : List FunctionDecl)
    (env : EnvironmentId) :
    defineClass name superclass ms env (stack ++ base) s =
      (defineClass name superclass ms env stack s).onto base := by
  cases superclass <;> exact doneWith_onto ..

theorem printValue_onto (v : Value) :
    printValue v (stack ++ base) s = (printValue v stack s).onto base := by
  unfold printValue
  split <;> rfl

theorem execute_onto (st : Stmt) (env : EnvironmentId) :
    execute st env (stack ++ base) s = (execute st env stack s).onto base := by
  cases st with
  | varDecl name e =>
      cases e with
      | none => exact doneWith_onto ..
      | some => rfl
  | functionDecl d =>
      simp only [execute]
      split
      · exact doneWith_onto ..
      · rfl
  | classDecl name e ms =>
      cases e with
      | none =>
          simp only [execute]
          exact defineClass_onto ..
      | some => rfl
  | returnWith keyword e => cases e <;> rfl
  | _ => rfl

theorem resume_onto (v : Value) (frame : Frame) :
    resume v frame (stack ++ base) s = (resume v frame stack s).onto base := by
  cases frame with
  | unary | binary => exact yield_onto ..
  | assign => exact yieldWith_onto ..
  | callee | argument => exact applyNext_onto ..
  | arrayElement => exact arrayNext_onto ..
  | print => exact printValue_onto ..
  | varDecl | letDecl => exact doneWith_onto ..
  | get =>
      simp only [resume]
      split
      · split <;> rfl
      · split <;> rfl
      · rfl
  | index =>
      simp only [resume]
      split
      · split <;> rfl
      · rfl
  | setMember | branch =>
      simp only [resume]
      split
      · rfl
      · split <;> rfl
  | arraySize =>
      simp only [resume]
      split
      · exact arrayNext_onto ..
      · rfl
  | superclass =>
      simp only [resume]
      split
      · exact defineClass_onto ..
      · rfl
  | logical | setObject | indexObject | setIndexObject | setIndexAt | setIndex | loopTest =>
      simp only [resume]
      split <;> rfl
  | _ => rfl

theorem proceed_onto (frame : Frame) :
    proceed frame (stack ++ base) s = (proceed frame stack s).onto base := by
  cases frame with
  | sequence later => cases later <;> rfl
  | loopBody => exact loopNext_onto ..
  | moduleBody => exact doneWith_onto ..
  | functionBody => exact yield_onto ..
  | _ => rfl

theorem unwind_onto (signal : Signal) (frame : Frame) :
    unwind signal frame (stack ++ base) s = (unwind signal frame stack s).onto base := by
  cases frame with
  | loopBody =>
      cases signal with
      | continuing => exact loopNext_onto ..
      | _ => rfl
  | functionBody =>
      cases signal with
      | returning => exact yield_onto ..
      | _ => rfl
  | activeCall => cases signal <;> rfl
  | _ => rfl

end

/-- A machine that has not halted moves as if nothing were under its stack. -/
theorem step_onto {m : Machine} (h : m.hasHalted = false) (base : List Frame) :
    (m.onto base).step = m.step.onto base := by
  obtain ⟨control, stack, s⟩ := m
  cases control with
  | evaluate e env => exact evaluate_onto stack base s e env
  | execute st env => exact execute_onto stack base s st env
  | value v =>
      cases stack with
      | nil => cases h
      | cons frame stack => exact resume_onto stack base s v frame
  | done =>
      cases stack with
      | nil => cases h
      | cons frame stack => exact proceed_onto stack base s frame
  | unwind signal =>
      cases stack with
      | nil => cases h
      | cons frame stack => exact unwind_onto stack base s signal frame

/-! ## Runs -/

/-- A run on top of a stack is the run alone, until that one halts. -/
theorem run_onto_of_not_hasHalted {n : Nat} {m : Machine} (h : (run n m).hasHalted = false)
    (base : List Frame) : run n (m.onto base) = (run n m).onto base := by
  induction n generalizing m with
  | zero => rfl
  | succ n ih =>
      have hm : m.hasHalted = false := by
        cases hm : m.hasHalted with
        | false => rfl
        | true => rw [run_of_hasHalted hm, hm] at h; exact h
      rw [run_succ, step_onto hm, ih (run_succ n m ▸ h), run_succ]

/-- A machine that halts does so on top of a stack after as many moves, and no
sooner than it halts alone. -/
theorem run_onto_of_hasHalted {n : Nat} {m : Machine} (h : (run n m).hasHalted = true)
    (base : List Frame) :
    ∃ k ≤ n, (run k m).hasHalted = true ∧ run k (m.onto base) = (run n m).onto base := by
  induction n generalizing m with
  | zero => exact ⟨0, Nat.le_refl 0, h, rfl⟩
  | succ n ih =>
      cases hm : m.hasHalted with
      | true => exact ⟨0, Nat.zero_le _, hm, by rw [run_of_hasHalted hm]; rfl⟩
      | false =>
          rw [run_succ] at h
          obtain ⟨k, hk, hhalt, hrun⟩ := ih h
          refine ⟨k + 1, Nat.succ_le_succ hk, by rw [run_succ]; exact hhalt, ?_⟩
          rw [run_succ, step_onto hm, hrun, run_succ]

/-- A run on top of a stack either is still on top of it or has come to where the
machine halts alone, and goes on from there. -/
theorem run_onto (n : Nat) (m : Machine) (base : List Frame) :
    (run n m).hasHalted = false ∧ run n (m.onto base) = (run n m).onto base ∨
      (run n m).hasHalted = true ∧
        ∃ k j, n = k + j ∧ run k (m.onto base) = (run n m).onto base := by
  cases h : (run n m).hasHalted with
  | false => exact .inl ⟨rfl, run_onto_of_not_hasHalted h base⟩
  | true =>
      obtain ⟨k, hk, -, hrun⟩ := run_onto_of_hasHalted h base
      exact .inr ⟨rfl, k, n - k, (Nat.add_sub_cancel' hk).symm, hrun⟩

end Lox.Machine
