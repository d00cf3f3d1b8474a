/-
# Calls

`Calls` says that a machine is about to call: what is called and the arguments are
there, and the call will be made.  Whatever happens then stands on the frames of the
caller, and `Yields` says what comes of it: as long as the machine is above these frames
the call is going on, and when it gets down to them it leaves the value there, or a
failure.

The frame of a function that runs is the bottom one of its call.  It is left with the
result of the function, since no other signal gets there: `Moment.functionBody_step`.
-/
import Lox.Proofs.After
import Lox.Proofs.Onto

namespace Lox

namespace Machine

/-- The machine is about to call `c` from a call expression. -/
inductive Calls : Machine → Callable → List Value → Token → List Frame → Prop
  | alone {c : Callable} {paren : Token} {env : EnvironmentId} {stack : List Frame} {s : State} :
      c.arity = 0 → s.callDepth < maxCallDepth →
      Calls ⟨.value (.callable c), .callee paren [] env :: stack, s⟩ c [] paren stack
  | last {c : Callable} {v : Value} {earlier : List Value} {paren : Token} {env : EnvironmentId}
      {stack : List Frame} {s : State} :
      c.arity = (v :: earlier).length → s.callDepth < maxCallDepth →
      Calls ⟨.value v, .argument (.callable c) earlier paren [] env :: stack, s⟩ c
        (v :: earlier).reverse paren stack

variable {m : Machine} {c : Callable} {arguments : List Value} {paren : Token}
  {stack base : List Frame} {v : Value}

/-- The state in which a call starts. -/
def deeper (s : State) : State := { s with callDepth := s.callDepth + 1 }

/-- The call is made. -/
theorem Calls.step (h : m.Calls c arguments paren stack) :
    m.step = invoke c arguments (.activeCall paren :: stack) (deeper m.state) := by
  cases h with
  | alone harity hdepth =>
      show apply (.callable c) [] paren stack _ = _
      simp only [apply, List.length_nil, harity, ne_eq, not_true_eq_false, if_false,
        Nat.not_le_of_lt hdepth, deeper]
  | @last _ v earlier _ _ _ _ harity hdepth =>
      show apply (.callable c) (v :: earlier).reverse paren stack _ = _
      simp only [apply, List.length_reverse, harity, ne_eq, not_true_eq_false, if_false,
        Nat.not_le_of_lt hdepth, deeper]

/-- What called stands on the frames of the caller. -/
theorem Calls.waiting (h : m.Calls c arguments paren stack) :
    ∃ frame, m.stack = frame :: [] ++ stack := by
  cases h <;> exact ⟨_, rfl⟩

/-- What the machine leaves on the frames `base`, if it ever gets down to them, is the
value `v` or a failure. -/
def Yields (m : Machine) (base : List Frame) (v : Value) : Prop :=
  ∀ n, (∃ frame above, (run n m).stack = frame :: above ++ base) ∨
    ∃ k ≤ n, (run k m).stack = base ∧
      ((run k m).control = .value v ∨ ∃ e, (run k m).control = .unwind (.failure e))

/-- A call that is over. -/
theorem yields_of_stack (hstack : m.stack = base)
    (h : m.control = .value v ∨ ∃ e, m.control = .unwind (.failure e)) : m.Yields base v :=
  fun n => .inr ⟨0, Nat.zero_le n, hstack, h⟩

/-- What is true of a call after its first move is true of the call. -/
theorem Yields.of_step {frame : Frame} {above : List Frame}
    (hstack : m.stack = frame :: above ++ base) (h : m.step.Yields base v) : m.Yields base v := by
  intro n
  cases n with
  | zero => exact .inl ⟨frame, above, hstack⟩
  | succ n =>
      rw [run_succ]
      refine (h n).imp_right ?_
      rintro ⟨k, hk, hend⟩
      exact ⟨k + 1, Nat.succ_le_succ hk, by rwa [run_succ]⟩

/-- A frame that waits for the call hands on a value or a failure. -/
theorem Yields.through {frame : Frame} {u : Value} (h : m.Yields (frame :: base) v)
    (hvalue : ∀ s, (resume v frame base s).stack = base ∧
      (resume v frame base s).control = .value u)
    (hfailure : ∀ e s, (unwind (.failure e) frame base s).stack = base ∧
      ∃ e', (unwind (.failure e) frame base s).control = .unwind (.failure e')) :
    m.Yields base u := by
  intro n
  rcases h n with ⟨frame', above, hgoing⟩ | ⟨k, hk, hstack, hend⟩
  · exact .inl ⟨frame', above ++ [frame], by simp [hgoing]⟩
  · rcases Nat.lt_or_eq_of_le hk with hlt | rfl
    · refine .inr ⟨k + 1, hlt, ?_⟩
      rw [run_succ_right]
      generalize run k m = m' at hstack hend
      obtain ⟨control, stack, s⟩ := m'
      cases hstack
      rcases hend with hcontrol | ⟨e, hcontrol⟩
      · cases hcontrol
        exact ⟨(hvalue s).1, .inl (hvalue s).2⟩
      · cases hcontrol
        exact ⟨(hfailure e s).1, .inr (hfailure e s).2⟩
    · exact .inl ⟨frame, [], hstack⟩

theorem Yields.constructed {i : Instance} (h : m.Yields (.constructed i :: base) v) :
    m.Yields base (.instance i) :=
  h.through (fun _ => ⟨rfl, rfl⟩) fun e _ => ⟨rfl, e, rfl⟩

theorem Yields.activeCall (h : m.Yields (.activeCall paren :: stack) v) : m.Yields stack v :=
  h.through (fun _ => ⟨rfl, rfl⟩) fun e _ => ⟨rfl, e.orAt paren, rfl⟩

/-- The function `f` has been left with its result, as the store `z` had it, or a failure. -/
def Leaves (f : Closure) (z : Store) (base : List Frame) (m : Machine) : Prop :=
  m.stack = base ∧ ((∃ u v, result f u z = .ok v ∧ m.control = .value v) ∨
    ∃ e, m.control = .unwind (.failure e))

theorem leaves_yield (f : Closure) (u : Value) (s : State) :
    (yield (result f u s.store) base s).Leaves f s.store base := by
  cases hr : result f u s.store with
  | ok v => exact ⟨rfl, .inl ⟨u, v, hr, rfl⟩⟩
  | error e => exact ⟨rfl, .inr ⟨e, rfl⟩⟩

end Machine

namespace Session

variable {limit : Option Nat} {now : ClockReading} {texts : List (List Stmt)} {t : Trail}
  {m : Machine} {f : Closure} {base above : List Frame}

/-- A function that runs goes on, or is left with its result or a failure. -/
theorem Moment.functionBody_step (h : Moment limit now texts t m)
    (hm : m.stack = above ++ .functionBody f :: base) :
    (∃ above', m.step.stack = above' ++ .functionBody f :: base) ∨
      m.step.Leaves f m.state.store base := by
  have hstacked := h.stacked.control
  have hsignal := h.coherent.control
  obtain ⟨control, stack, s⟩ := m
  cases hm
  cases hhalted : Machine.hasHalted ⟨control, above, s⟩ with
  | false =>
      have hstep := Machine.step_onto hhalted (.functionBody f :: base)
      exact .inl ⟨_, congrArg Machine.stack hstep⟩
  | true =>
      obtain rfl : above = [] := by
        cases control <;> simp_all [Machine.hasHalted]
      refine .inr ?_
      -- of the signals only `return` and failures get as far as this
      cases control with
      | evaluate | execute => cases hhalted
      | value => cases hstacked
      | done => exact Machine.leaves_yield f .nil s
      | unwind signal =>
          cases signal with
          | failure e => exact ⟨rfl, .inr ⟨e, rfl⟩⟩
          | returning u => exact Machine.leaves_yield f u s
          | breaking | continuing => cases hsignal

/-- If from now on the function has no other result than `v`, then this is what comes of
its call. -/
theorem Moment.yields_of_functionBody (h : Moment limit now texts t m)
    (hm : m.stack = above ++ .functionBody f :: base) {v : Value}
    (hresult : ∀ {texts' t' m'}, After texts t m texts' t' m' →
      ∀ u u', Machine.result f u m'.state.store = .ok u' → u' = v) :
    m.Yields base v := by
  have hrun : ∀ n, (∃ above', (Machine.run n m).stack = above' ++ .functionBody f :: base) ∨
      ∃ k ≤ n, (Machine.run k m).stack = base ∧
        ((Machine.run k m).control = .value v ∨
          ∃ e, (Machine.run k m).control = .unwind (.failure e)) := by
    intro n
    induction n with
    | zero => exact .inl ⟨above, hm⟩
    | succ n ih =>
        rcases ih with ⟨above', hgoing⟩ | ⟨k, hk, hend⟩
        · have hafter := After.run texts t m n
          rw [Machine.run_succ_right]
          refine ((h.after hafter).functionBody_step hgoing).imp_right ?_
          rintro ⟨hstack, hcontrol⟩
          refine ⟨n + 1, Nat.le_refl _, ?_⟩
          rw [Machine.run_succ_right]
          refine ⟨hstack, hcontrol.imp_left ?_⟩
          rintro ⟨u, u', hu, hvalue⟩
          exact hresult hafter u u' hu ▸ hvalue
        · exact .inr ⟨k, Nat.le_succ_of_le hk, hend⟩
  intro n
  refine (hrun n).imp_left ?_
  rintro ⟨above', hgoing⟩
  cases above' with
  | nil => exact ⟨_, [], hgoing⟩
  | cons frame above' => exact ⟨frame, above' ++ [.functionBody f], by simp [hgoing]⟩

/-- The same from the beginning of the call. -/
theorem Moment.yields_of_enter {arguments : List Value} {s : State}
    (h : Moment limit now texts t (Machine.enter f arguments base s)) {v : Value}
    (hresult : ∀ {texts' t' m'}, After texts t (Machine.enter f arguments base s) texts' t' m' →
      ∀ u u', Machine.result f u m'.state.store = .ok u' → u' = v) :
    (Machine.enter f arguments base s).Yields base v := by
  have hstack : (∃ env, (Machine.enter f arguments base s).stack =
      [.sequence f.declaration.body env] ++ .functionBody f :: base) ∨
        ∃ e store, Machine.enter f arguments base s =
          Machine.fail e base { s with store := store } := by
    unfold Machine.enter
    dsimp only
    split
    · exact .inl ⟨_, rfl⟩
    · exact .inr ⟨_, _, rfl⟩
  rcases hstack with ⟨env, hstack⟩ | ⟨e, store, hfails⟩
  · exact h.yields_of_functionBody hstack hresult
  · rw [hfails]
    exact Machine.yields_of_stack rfl (.inr ⟨e, rfl⟩)

end Session

end Lox
