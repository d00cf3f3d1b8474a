/-
# Where failures are located

A failure that is raised without a token gets one from the innermost call that is active,
and a failure that has a token keeps it on its whole way: `Machine.run_failure`.

Failures without a token are raised in two places.  A native function fails inside its own
call.  A print is a statement, and statements that an expression executes are in the body
of a function, which is in a call: `Housed`.  So an expression never fails without a token,
and a statement does so only by a print that is in no call: `failures_located`.
-/
import Lox.Proofs.Blame
import Lox.Proofs.CallDepth

namespace Lox

namespace RuntimeError

theorem fault_orAt (e : RuntimeError) (token : Token) : (e.orAt token).fault = e.fault := by
  unfold orAt
  split <;> rfl

theorem token_orAt (e : RuntimeError) (token : Token) :
    (e.orAt token).token = e.token.or (some token) := by
  unfold orAt
  split
  · rename_i h
    rw [h]
    rfl
  · rename_i h
    rw [h]
    rfl

end RuntimeError

namespace Machine

/-! ## Failures on their way -/

/-- A failure drops the top frame.  If that is an active call, and nothing is blamed yet,
its closing parenthesis is. -/
theorem step_failure (e : RuntimeError) (frame : Frame) (stack : List Frame) (s : State) :
    ∃ e' s', step ⟨.unwind (.failure e), frame :: stack, s⟩ = ⟨.unwind (.failure e'), stack, s'⟩ ∧
      e'.fault = e.fault ∧ e'.token = e.token.or frame.paren? ∧ s'.store = s.store := by
  cases hactive : frame.paren? with
  | some paren =>
      obtain rfl := Frame.eq_of_paren? hactive
      exact ⟨e.orAt paren, _, rfl, e.fault_orAt paren, e.token_orAt paren, rfl⟩
  | none =>
      refine ⟨e, s, ?_, rfl, (Option.or_none).symm, rfl⟩
      cases frame <;> first | rfl | cases hactive

/-- At the end of its way a failure blames what it blamed, or else the innermost call. -/
theorem run_failure (e : RuntimeError) (stack : List Frame) (s : State) :
    ∃ e' s', run stack.length ⟨.unwind (.failure e), stack, s⟩ = ⟨.unwind (.failure e'), [], s'⟩ ∧
      e'.fault = e.fault ∧ e'.token = e.token.or (activeCalls stack).head? ∧
      s'.store = s.store := by
  induction stack generalizing e s with
  | nil => exact ⟨e, s, rfl, rfl, Option.or_none.symm, rfl⟩
  | cons frame stack ih =>
      obtain ⟨e₁, s₁, hstep, hfault₁, htoken₁, hstore₁⟩ := step_failure e frame stack s
      obtain ⟨e', s', hrun, hfault, htoken, hstore⟩ := ih e₁ s₁
      refine ⟨e', s', ?_, hfault.trans hfault₁, ?_, hstore.trans hstore₁⟩
      · rw [List.length_cons, run_succ, hstep, hrun]
      · rw [htoken, htoken₁, Option.or_assoc]
        congr 1
        cases hactive : frame.paren? with
        | none => rw [activeCalls_cons hactive, Option.none_or]
        | some paren =>
            obtain rfl := Frame.eq_of_paren? hactive
            rfl

variable {m : Machine} {e : RuntimeError}

/-- A run of an expression has stopped where a signal is all that there is. -/
theorem valueEnding_eq_stopped {g : Signal} :
    m.valueEnding = .stopped g ↔ m.control = .unwind g ∧ m.stack = [] := by
  obtain ⟨control, stack, s⟩ := m
  cases control <;> cases stack <;> simp [valueEnding]

theorem doneEnding_eq_stopped {g : Signal} :
    m.doneEnding = .stopped g ↔ m.control = .unwind g ∧ m.stack = [] := by
  obtain ⟨control, stack, s⟩ := m
  cases control <;> cases stack <;> simp [doneEnding]

/-- A failure that still blames nothing after a move has not passed a call. -/
theorem before_failure {e' : RuntimeError} (hcontrol : m.control = .unwind (.failure e'))
    (hstep : m.step.control = .unwind (.failure e)) (he : e.token = none) :
    e = e' ∧ activeCalls m.step.stack = activeCalls m.stack := by
  obtain ⟨control, stack, s⟩ := m
  cases hcontrol
  cases stack with
  | nil =>
      cases hstep
      exact ⟨rfl, rfl⟩
  | cons frame stack =>
      obtain ⟨e₁, s₁, hmove, hfault, htoken, -⟩ := step_failure e' frame stack s
      rw [hmove] at hstep ⊢
      cases hstep
      obtain ⟨hnone, hactive⟩ := Option.or_eq_none_iff.mp (htoken.symm.trans he)
      refine ⟨?_, (activeCalls_cons hactive stack).symm⟩
      cases e
      cases e'
      cases hfault
      cases he
      cases hnone
      rfl

theorem stack_printValue (v : Value) (stack : List Frame) (s : State) :
    (printValue v stack s).stack = stack := by
  unfold printValue
  split <;> rfl

/-- The machine prints, in no call, a value at which the writer fails. -/
def PrintsInVain (m : Machine) (reason : String) : Prop :=
  ∃ v stack s, m = ⟨.value v, .print :: stack, s⟩ ∧ activeCalls stack = [] ∧
    (s.output.writeAll (s.store.pieces v ++ ["\n"])).2 = some reason

/-- A failure that is in no call and blames nothing was raised by a print in no call. -/
theorem printsInVain_of_run (h : ∀ e, m.control ≠ .unwind (.failure e)) {n : Nat}
    (hrun : (run n m).control = .unwind (.failure e)) (he : e.token = none)
    (hcalls : activeCalls (run n m).stack = []) :
    ∃ k < n, ∃ reason, (run k m).PrintsInVain reason ∧ e = .unplaced (.notWritten reason) := by
  induction n generalizing e with
  | zero => exact absurd hrun (h e)
  | succ n ih =>
      have hlater : ∀ {e'}, (run n m).control = .unwind (.failure e') → e'.token = none →
          activeCalls (run n m).stack = [] →
          ∃ k < n + 1, ∃ reason,
            (run k m).PrintsInVain reason ∧ e' = .unplaced (.notWritten reason) :=
        fun hc ht ha => (ih hc ht ha).imp fun _ ⟨hk, hprints⟩ => ⟨Nat.lt_succ_of_lt hk, hprints⟩
      rw [run_succ_right] at hrun hcalls
      by_cases hfailing : ∃ e', (run n m).control = .unwind (.failure e')
      · -- the failure was on its way already
        obtain ⟨e', hcontrol⟩ := hfailing
        have hbefore := before_failure hcontrol hrun he
        rw [hbefore.1]
        exact hlater hcontrol (hbefore.1 ▸ he) (hbefore.2.symm.trans hcalls)
      · have hraises := raises (fun e' he' => hfailing ⟨e', he'⟩) hrun he
        refine ⟨n, Nat.lt_succ_self n, ?_⟩
        generalize run n m = m' at hraises hcalls
        cases hraises with
        | native hnative _ =>
            rw [hnative.activeCalls_step] at hcalls
            cases hcalls
        | @print v stack s reason hfailed =>
            rw [show step ⟨.value v, .print :: stack, s⟩ = printValue v stack s from rfl,
              stack_printValue] at hcalls
            exact ⟨reason, ⟨v, stack, s, rfl, hcalls, hfailed⟩, rfl⟩

end Machine

/-! ## Statements that an expression executes -/

/-- Every body of a function on the stack is in a call. -/
def Housed : List Frame → Prop
  | [] => True
  | frame :: stack => (∀ f, frame = .functionBody f → activeCalls stack ≠ []) ∧ Housed stack

theorem housed_append {pushed stack : List Frame} (h : Housed stack)
    (hpushed : activeCalls stack ≠ [] ∨ ∀ frame ∈ pushed, ∀ f, frame ≠ .functionBody f) :
    Housed (pushed ++ stack) := by
  induction pushed with
  | nil => exact h
  | cons frame pushed ih =>
      refine ⟨fun f hf => ?_, ih (hpushed.imp_right fun hnone => (List.forall_mem_cons.mp hnone).2)⟩
      rcases hpushed with hcalls | hnone
      · show (pushed ++ stack).filterMap Frame.paren? ≠ []
        rw [List.filterMap_append]
        exact fun hnil => hcalls (List.append_eq_nil_iff.mp hnil).2
      · exact absurd hf (hnone frame List.mem_cons_self f)

namespace Machine

variable {m : Machine}

theorem housed_below (h : Housed m.stack) : Housed m.below := by
  have htail : Housed m.stack.tail := by
    cases hstack : m.stack with
    | nil => trivial
    | cons frame stack =>
        rw [hstack] at h
        exact h.2
  unfold below
  split
  · exact h
  · exact h
  · exact htail

theorem housed_step (h : Housed m.stack) (hfits : m.control.Fits m.stack) :
    Housed m.step.stack := by
  have hbelow := housed_below h
  cases shift hfits with
  | @call c arguments paren stack hcalls habove =>
      obtain ⟨⟨pushed, hstack, -⟩, -⟩ := habove
      rw [hstack]
      obtain ⟨frame, hm⟩ := hcalls.waiting
      rw [hm] at h
      have hcall : Housed (.activeCall paren :: stack) := ⟨fun _ hf => (nomatch hf), h.2⟩
      exact housed_append hcall (.inl (List.cons_ne_nil _ _))
  | leave _ hstack hstep => rwa [hstep, ← hstack]
  | «open» hcontrol =>
      obtain ⟨control, stack, s⟩ := m
      cases hcontrol
      exact ⟨fun _ hf => (nomatch hf), fun _ hf => (nomatch hf), h⟩
  | stay _ habove =>
      obtain ⟨⟨pushed, hstack, hpushed⟩, -⟩ := habove
      rw [hstack]
      refine housed_append hbelow (.inr fun frame hframe f hf => ?_)
      have hlocal := hpushed frame hframe
      rw [hf] at hlocal
      exact hlocal

theorem housed_run (h : Housed m.stack) (hm : m.Stacked) (n : Nat) :
    Housed (run n m).stack := by
  induction n generalizing m with
  | zero => exact h
  | succ n ih =>
      rw [run_succ]
      exact ih (housed_step h hm.control) hm.step

/-- What waits for the end of a statement, where a value is wanted in the end, is in a
call. -/
theorem activeCalls_of_takes {stack : List Frame} (htakes : Takes false (stack ++ [.discard]))
    (hstack : Lox.Stacked (stack ++ [.discard])) (h : Housed stack) : activeCalls stack ≠ [] := by
  induction stack with
  | nil => cases htakes
  | cons frame stack ih =>
      have hframe : frame.takesValue = false := htakes
      cases frame with
      | functionBody f => exact h.1 f rfl
      | sequence | loopBody | moduleBody => exact ih hstack.1 hstack.2 h.2
      | _ => cases hframe

/-- An expression executes no print that is in no call. -/
theorem not_printsInVain_evaluate (e : Expr) (env : EnvironmentId) (s : State) (k : Nat)
    (reason : String) :
    ¬ (run k ⟨.evaluate e env, [], s⟩).PrintsInVain reason := by
  rintro ⟨v, stack, s', hrun, hcalls, -⟩
  have hstart : Stacked ⟨.evaluate e env, [], s⟩ := ⟨trivial, trivial⟩
  have honto : Stacked (onto ⟨.evaluate e env, [], s⟩ [.discard]) := ⟨rfl, trivial, trivial⟩
  have hhalted : (run k ⟨.evaluate e env, [], s⟩).hasHalted = false := by
    rw [hrun]
    rfl
  have hprint := honto.run k
  have hhoused := housed_run (m := ⟨.evaluate e env, [], s⟩) trivial hstart k
  rw [run_onto_of_not_hasHalted hhalted, hrun] at hprint
  rw [hrun] at hhoused
  exact activeCalls_of_takes hprint.stack.1 hprint.stack.2 hhoused.2 hcalls

end Machine

/-! ## The theorem -/

/-- An expression that fails blames a token.  A statement that fails without one has, in no
call, printed a value at which the writer failed.  A move of any machine that raises a
failure without one calls a native function that fails or prints a value at which the
writer fails; and every failure,
however many frames it passes, comes out with the token that it had, or if it had none, with
the closing parenthesis of the innermost call that was active when it was raised. -/
theorem failures_located (moves : Nat) (s : State) (env : EnvironmentId) :
    (∀ e err s', State.evaluate moves e env s = (.stopped (.failure err), s') →
      err.token ≠ none) ∧
    (∀ st err s', State.execute moves st env s = (.stopped (.failure err), s') →
      err.token = none →
      ∃ k < moves, ∃ reason, (Machine.run k ⟨.execute st env, [], s⟩).PrintsInVain reason ∧
        err = .unplaced (.notWritten reason)) ∧
    ∀ m : Machine, (∀ err, m.control ≠ .unwind (.failure err)) →
      ∀ err, m.step.control = .unwind (.failure err) →
        (err.token = none → m.Raises err) ∧
        ∃ err' s', Machine.run m.step.stack.length m.step = ⟨.unwind (.failure err'), [], s'⟩ ∧
          err'.fault = err.fault ∧
          (∀ token, err.token = some token → err'.token = some token) ∧
          (err.token = none → err'.token = (activeCalls m.step.stack).head?) ∧
          (∀ c arguments paren stack, m.Calls c arguments paren stack → err.token = none →
            err'.token = some paren) := by
  refine ⟨fun e err s' hrun hnone => ?_, fun st err s' hrun hnone => ?_, fun m hm err hstep => ?_⟩
  · have hstart : ∀ err', (⟨.evaluate e env, [], s⟩ : Machine).control ≠
        .unwind (.failure err') := fun _ h => nomatch h
    obtain ⟨hcontrol, hstack⟩ := Machine.valueEnding_eq_stopped.mp (congrArg Prod.fst hrun)
    obtain ⟨k, -, reason, hprints, -⟩ :=
      Machine.printsInVain_of_run hstart hcontrol hnone (congrArg activeCalls hstack)
    exact Machine.not_printsInVain_evaluate e env s k reason hprints
  · have hstart : ∀ err', (⟨.execute st env, [], s⟩ : Machine).control ≠
        .unwind (.failure err') := fun _ h => nomatch h
    obtain ⟨hcontrol, hstack⟩ := Machine.doneEnding_eq_stopped.mp (congrArg Prod.fst hrun)
    exact Machine.printsInVain_of_run hstart hcontrol hnone (congrArg activeCalls hstack)
  · refine ⟨Machine.raises hm hstep, ?_⟩
    obtain ⟨err', s', hrun, hfault, htoken, -⟩ :=
      Machine.run_failure err m.step.stack m.step.state
    have hmachine : m.step = ⟨.unwind (.failure err), m.step.stack, m.step.state⟩ := by rw [← hstep]
    rw [← hmachine] at hrun
    have hinnermost : err.token = none → err'.token = (activeCalls m.step.stack).head? := by
      intro hnone
      rw [htoken, hnone, Option.none_or]
    refine ⟨err', s', hrun, hfault, fun token ht => ?_, hinnermost, ?_⟩
    · rw [htoken, ht, Option.some_or]
    · intro c arguments paren stack hcalls hnone
      rw [hinnermost hnone, hcalls.activeCalls_step]
      rfl

/-! ### A native function that fails, and a print that fails -/

namespace Session

/-- The expression `len(nil)`. -/
def lenOfNil : Expr :=
  .call (.variable (nameAt "len" 1) none) ⟨.rightParen, ")", ⟨1, 8⟩⟩ [.literal .nil]

/-- The failure of `len` is raised without a token and comes out with the closing
parenthesis of its call.  That of a print which is in no call comes out without one. -/
theorem failures_located_len :
    (∃ err s', State.evaluate 6 lenOfNil State.globals (State.initial none 0) =
        (.stopped (.failure err), s') ∧ err.fault = .lengthOf "nil" ∧ err.token ≠ none ∧
      err.token = some ⟨.rightParen, ")", ⟨1, 8⟩⟩) ∧
    ∃ err s', State.execute 3 (.print (.literal .nil)) State.globals (State.initial (some 0) 0) =
        (.stopped (.failure err), s') ∧ err.token = none ∧
      ∃ k < 3, (Machine.run k ⟨.execute (.print (.literal .nil)) State.globals, [],
        State.initial (some 0) 0⟩).PrintsInVain "output closed" := by
  have hlen : ∃ s', State.evaluate 6 lenOfNil State.globals (State.initial none 0) =
      (.stopped (.failure ⟨.lengthOf "nil", some ⟨.rightParen, ")", ⟨1, 8⟩⟩⟩), s') :=
    ⟨_, by with_unfolding_all rfl⟩
  have hprint : ∃ s', State.execute 3 (.print (.literal .nil)) State.globals
      (State.initial (some 0) 0) =
        (.stopped (.failure (.unplaced (.notWritten "output closed"))), s') :=
    ⟨_, rfl⟩
  obtain ⟨s', hlen⟩ := hlen
  obtain ⟨s'', hprint⟩ := hprint
  have hplaced := (failures_located 6 (State.initial none 0) State.globals).1 _ _ _ hlen
  obtain ⟨k, hk, reason, hprints, herror⟩ :=
    (failures_located 3 (State.initial (some 0) 0) State.globals).2.1 _ _ _ hprint rfl
  cases herror
  exact ⟨⟨_, s', hlen, rfl, hplaced, rfl⟩, _, s'', hprint, rfl, k, hk, hprints⟩

end Session

end Lox
