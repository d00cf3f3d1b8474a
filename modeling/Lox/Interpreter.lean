/-
# Running pieces of a program

`State.evaluate`, `State.execute`, `State.call` and `State.interpret` start a
machine on an expression, a statement, a call or a program, let it make at most
so many moves, and say how it ended.  A machine that has not halted by then has
no answer; `run_add` says that an answer does not depend on the number of moves
that were allowed.
-/
import Lox.Machine

namespace Lox

/-- How a run ended: with an answer, by a signal that nothing caught, or not
within the moves it was allowed. -/
inductive Ending (α : Type) where
  | answer (a : α)
  | stopped (signal : Signal)
  | unfinished

/-- What an uncaught signal is reported as. -/
def Signal.text : Signal → String
  | failure e => e.text
  | returning _ => "'return' escaped its function"
  | breaking => "'break' escaped its loop"
  | continuing => "'continue' escaped its loop"

namespace Machine

/-! ## Runs -/

theorem step_of_hasHalted {m : Machine} (h : m.hasHalted) : m.step = m := by
  obtain ⟨control, stack, s⟩ := m
  cases control <;> cases stack <;> simp_all [hasHalted, step]

@[simp] theorem run_zero (m : Machine) : run 0 m = m := rfl

theorem run_of_hasHalted {m : Machine} (h : m.hasHalted) (n : Nat) : run n m = m := by
  cases n <;> simp [run, h]

theorem run_succ (n : Nat) (m : Machine) : run (n + 1) m = run n m.step := by
  show (if m.hasHalted then m else run n m.step) = run n m.step
  split
  · rename_i h
    rw [step_of_hasHalted h]
    exact (run_of_hasHalted h n).symm
  · rfl

theorem run_add (n k : Nat) (m : Machine) : run (n + k) m = run k (run n m) := by
  induction n generalizing m with
  | zero => simp
  | succ n ih => rw [Nat.add_right_comm, run_succ, run_succ, ih]

/-- A machine that has halted after `n` moves makes no difference of further
ones. -/
theorem run_of_le {n k : Nat} {m : Machine} (h : (run n m).hasHalted) (le : n ≤ k) :
    run k m = run n m := by
  obtain ⟨d, rfl⟩ := Nat.exists_eq_add_of_le le
  rw [run_add, run_of_hasHalted h]

/-- How a run of an expression ended. -/
def valueEnding (m : Machine) : Ending Value :=
  match m.control, m.stack with
  | .value v, [] => .answer v
  | .unwind signal, [] => .stopped signal
  | _, _ => .unfinished

/-- How a run of statements ended. -/
def doneEnding (m : Machine) : Ending Unit :=
  match m.control, m.stack with
  | .done, [] => .answer ()
  | .unwind signal, [] => .stopped signal
  | _, _ => .unfinished

end Machine

namespace State

/-- Defines the native functions among the globals. -/
def withNatives (s : Store) (natives : List Native) : Store :=
  natives.foldl (fun s n => s.put globals n.name (.callable (.native n))) s

/-- The state in which nothing has run yet.  The output closes after `limit`
lines, and the clock stands at `now`. -/
def initial (limit : Option Nat) (now : ClockReading) : State where
  store := withNatives (Store.empty.newEnvironment default).2 Native.all
  callDepth := 0
  output := ⟨"", 0, 0, .closing limit⟩
  events := []
  clock := fun _ => now
  ticks := 0

/-- What was written since the last time, and the state without it. -/
def takeWritten (s : State) : String × State :=
  (s.output.written, { s with output := { s.output with written := "" } })

/-- The events since the last time, in order, and the state without them. -/
def takeEvents (s : State) : List Event × State :=
  (s.events.reverse, { s with events := [] })

/-- Evaluates an expression in an environment. -/
def evaluate (moves : Nat) (e : Expr) (env : EnvironmentId) (s : State) : Ending Value × State :=
  let m := Machine.run moves ⟨.evaluate e env, [], s⟩
  (m.valueEnding, m.state)

/-- Executes a statement in an environment. -/
def execute (moves : Nat) (st : Stmt) (env : EnvironmentId) (s : State) : Ending Unit × State :=
  let m := Machine.run moves ⟨.execute st env, [], s⟩
  (m.doneEnding, m.state)

/-- Calls what can be called, from outside of any program. -/
def call (moves : Nat) (c : Callable) (arguments : List Value) (s : State) :
    Ending Value × State :=
  let m := Machine.run moves (Machine.invoke c arguments [] s)
  (m.valueEnding, m.state)

/-- What a program that a signal leaves is reported to have failed with. -/
def surface (signal : Signal) (s : State) : RuntimeError × State :=
  match signal with
  | .failure e => (e, s)
  | _ => (.unplaced (.escaped signal.text), s.note (.escapedTopLevel signal.text))

/-- How a program ended: well, with an error, or not yet. -/
inductive Outcome where
  | success
  | error (e : RuntimeError)
  | unfinished

/-- The machine that is about to run a program among the globals. -/
def starting (program : List Stmt) (s : State) : Machine :=
  ⟨.done, [.sequence program globals], s⟩

/-- How the program of a machine ended, and the state that it left. -/
def concluded (m : Machine) : Outcome × State :=
  match m.doneEnding with
  | .answer () => (.success, m.state)
  | .stopped signal =>
    let (e, s) := surface signal m.state
    (.error e, s)
  | .unfinished => (.unfinished, m.state)

/-- Runs a program among the globals. -/
def interpret (moves : Nat) (program : List Stmt) (s : State) : Outcome × State :=
  concluded (Machine.run moves (starting program s))

end State

end Lox
