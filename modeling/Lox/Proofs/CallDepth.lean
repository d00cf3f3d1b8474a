/-
# How deep calls nest

The state says how many calls are active.  It is right at every move of every run, and it
never passes `maxCallDepth`: `Counted`.  As a run that has come to its end has an empty
stack, however it ended, the number is then what it was at the beginning:
`call_depth_exact`.

A call expression whose callee can be called with the arguments that are there makes the
call if fewer than `maxCallDepth` calls are active.  If not, it fails at its closing
parenthesis, in the state that it was in.
-/
import Lox.Proofs.Growth
import Lox.Proofs.Shift

namespace Lox

namespace Machine

variable {m : Machine} {k : Nat}

/-! ## Calls that are made and calls that are refused -/

/-- The machine has a value that can be called and as many arguments as it takes. -/
inductive Applies : Machine → Callable → List Value → Token → List Frame → Prop
  | alone {c : Callable} {paren : Token} {env : EnvironmentId} {stack : List Frame} {s : State} :
      c.arity = 0 →
      Applies ⟨.value (.callable c), .callee paren [] env :: stack, s⟩ c [] paren stack
  | last {c : Callable} {v : Value} {earlier : List Value} {paren : Token} {env : EnvironmentId}
      {stack : List Frame} {s : State} : c.arity = (v :: earlier).length →
      Applies ⟨.value v, .argument (.callable c) earlier paren [] env :: stack, s⟩ c
        (v :: earlier).reverse paren stack

section
variable {c : Callable} {arguments : List Value} {paren : Token} {stack : List Frame}

theorem calls_iff : m.Calls c arguments paren stack ↔
    m.Applies c arguments paren stack ∧ m.state.callDepth < maxCallDepth := by
  constructor
  · intro h
    cases h with
    | alone harity hdepth => exact ⟨.alone harity, hdepth⟩
    | last harity hdepth => exact ⟨.last harity, hdepth⟩
  · rintro ⟨h, hdepth⟩
    cases h with
    | alone harity => exact .alone harity hdepth
    | last harity => exact .last harity hdepth

/-- One call too deep: the call is refused, and nothing else happens. -/
theorem Applies.overflows (h : m.Applies c arguments paren stack)
    (hdepth : maxCallDepth ≤ m.state.callDepth) :
    m.step = fail (.blaming paren .stackOverflow) stack m.state := by
  cases h with
  | @alone c paren env stack s harity =>
      show apply (.callable c) [] paren stack s = _
      simp only [apply, List.length_nil, harity, ne_eq, not_true_eq_false, if_false, if_pos hdepth]
  | @last c v earlier paren env stack s harity =>
      show apply (.callable c) (v :: earlier).reverse paren stack s = _
      simp only [apply, List.length_reverse, harity, ne_eq, not_true_eq_false, if_false,
        if_pos hdepth]

/-- The call that is made is the innermost one then. -/
theorem Calls.activeCalls_step (h : m.Calls c arguments paren stack) :
    activeCalls m.step.stack = paren :: activeCalls m.stack := by
  have hbefore : activeCalls m.stack = activeCalls stack := by cases h <;> rfl
  have habove : (invoke c arguments (.activeCall paren :: stack) (deeper m.state)).Above
      Frame.Called _ _ := above_invoke c arguments
  obtain ⟨pushed, hstack, hpushed⟩ := habove.stack
  rw [h.step, hstack, activeCalls_append fun frame hframe => (hpushed frame hframe).paren?_eq_none,
    activeCalls_activeCall, hbefore]

end

/-! ## Moves and runs -/

/-- How a move changes which calls are active: one is made, one is over, or they stay. -/
inductive Turn (m : Machine) : Prop
  | made {c arguments paren stack} : m.Calls c arguments paren stack →
      activeCalls m.step.stack = paren :: activeCalls m.stack →
      m.step.state.callDepth = m.state.callDepth + 1 → Turn m
  | ended {paren} : activeCalls m.stack = paren :: activeCalls m.step.stack →
      m.step.state.callDepth = m.state.callDepth - 1 → Turn m
  | stay : activeCalls m.step.stack = activeCalls m.stack →
      m.step.state.callDepth = m.state.callDepth → Turn m

theorem turn (h : m.control.Fits m.stack) : m.Turn := by
  cases shift h with
  | call hcalls habove => exact .made hcalls hcalls.activeCalls_step habove.depth
  | @leave paren stack hstack _ hstep hdepth =>
      exact .ended (by rw [hstack, hstep, activeCalls_activeCall]) hdepth
  | «open» hcontrol =>
      obtain ⟨control, stack, s⟩ := m
      cases hcontrol
      exact .stay rfl rfl
  | stay hcalls habove =>
      obtain ⟨⟨pushed, hstack, hpushed⟩, hdepth⟩ := habove
      refine .stay ?_ hdepth
      rw [hstack, activeCalls_append fun frame hframe => (hpushed frame hframe).paren?_eq_none,
        hcalls]

/-- So many calls are active as the state says, beside `k` outside of the machine, and
not too many. -/
structure Counted (k : Nat) (m : Machine) : Prop where
  depth : m.state.callDepth = k + (activeCalls m.stack).length
  bound : m.state.callDepth ≤ maxCallDepth

theorem Counted.step (h : m.Counted k) (hfits : m.control.Fits m.stack) : m.step.Counted k := by
  obtain ⟨hdepth, hbound⟩ := h
  cases turn hfits with
  | made hcalls hactive hmore =>
      have hless := (calls_iff.mp hcalls).2
      refine ⟨?_, by omega⟩
      rw [hactive, hmore, hdepth, List.length_cons, Nat.add_assoc]
  | ended hactive hless =>
      rw [hactive, List.length_cons] at hdepth
      exact ⟨by omega, by omega⟩
  | stay hactive hsame => exact ⟨by rw [hactive, hsame, hdepth], hsame ▸ hbound⟩

theorem Counted.run (h : m.Counted k) (hm : m.Stacked) (n : Nat) : (run n m).Counted k := by
  induction n generalizing m with
  | zero => exact h
  | succ n ih =>
      rw [run_succ]
      exact ih (h.step hm.control) hm.step

/-- With an empty stack no calls are active but those outside. -/
theorem Counted.restored (h : m.Counted k) (hstack : m.stack = []) : m.state.callDepth = k := by
  rw [h.depth, hstack]
  rfl

/-- Whether a call is made is decided by how many calls are active, and by nothing else. -/
theorem Applies.decided {c : Callable} {arguments : List Value} {paren : Token}
    {stack : List Frame} (h : m.Applies c arguments paren stack) :
    m.step = if m.state.callDepth < maxCallDepth
      then invoke c arguments (.activeCall paren :: stack) (deeper m.state)
      else fail (.blaming paren .stackOverflow) stack m.state := by
  split
  · exact (calls_iff.mpr ⟨h, ‹_›⟩).step
  · exact h.overflows (Nat.le_of_not_lt ‹_›)

/-- All that is said of calls at one move, if `k` are active outside of the machine. -/
structure CountsCalls (k : Nat) (m : Machine) : Prop where
  counted : m.Counted k
  turn : m.Turn
  decided : ∀ c arguments paren stack, m.Applies c arguments paren stack →
    m.step = if k + (activeCalls m.stack).length < maxCallDepth
      then invoke c arguments (.activeCall paren :: stack) (deeper m.state)
      else fail (.blaming paren .stackOverflow) stack m.state

theorem Counted.countsCalls (h : m.Counted k) (hfits : m.control.Fits m.stack) :
    m.CountsCalls k :=
  ⟨h, turn hfits, fun _ _ _ _ happlies => h.depth ▸ happlies.decided⟩

end Machine

/-! ## Ends of runs -/

/-- A run that ended with a value or by a signal has left nothing on the stack. -/
theorem stack_of_valueEnding {m : Machine} (h : m.valueEnding ≠ .unfinished) : m.stack = [] := by
  obtain ⟨control, stack, s⟩ := m
  cases stack with
  | nil => rfl
  | cons frame stack => cases control <;> exact absurd rfl h

theorem stack_of_doneEnding {m : Machine} (h : m.doneEnding ≠ .unfinished) : m.stack = [] := by
  obtain ⟨control, stack, s⟩ := m
  cases stack with
  | nil => rfl
  | cons frame stack => cases control <;> exact absurd rfl h

theorem Machine.stack_of_hasHalted {m : Machine} (h : m.hasHalted = true) : m.stack = [] := by
  obtain ⟨control, stack, s⟩ := m
  cases stack with
  | nil => rfl
  | cons frame stack => cases control <;> cases h

namespace Session

variable {limit : Option Nat} {now : ClockReading} {texts : List (List Stmt)} {t : Trail}
  {m : Machine}

/-- A text starts with no more calls active than the one before left. -/
theorem callDepth_start {source : String} {m m' : Machine}
    (h : start source (conclude m).2 = .ok m') : m'.state.callDepth = m.state.callDepth := by
  obtain ⟨body, events, -, -, rfl⟩ := start_eq_ok h
  show (events.foldl State.note (conclude m).2).callDepth = _
  rw [State.foldl_note, state_conclude]
  unfold State.concluded
  split
  · rfl
  · rename_i signal _
    cases signal <;> rfl
  · rfl

/-- In a session no calls are active but those on the stack. -/
theorem Moment.counted (h : Moment limit now texts t m) : m.Counted 0 := by
  induction h with
  | first => exact ⟨rfl, Nat.zero_le _⟩
  | move hm ih => exact ih.step hm.stacked.control
  | aside _ _ _ _ ih => exact ⟨ih.depth, ih.bound⟩
  | next _ hhalted _ hstart ih =>
      have hdepth := (callDepth_start hstart).trans
        (ih.restored (Machine.stack_of_hasHalted hhalted))
      obtain ⟨body, events, -, -, rfl⟩ := start_eq_ok hstart
      exact ⟨hdepth, hdepth ▸ Nat.zero_le _⟩

end Session

/-! ## The theorem -/

/-- The number of active calls is right at every move of an expression, of a statement and
of a session, it is never more than `maxCallDepth`, and it decides whether a call is made.
When a run has come to its end, with an answer or by any signal, the number is what it was
at the beginning, which for the texts of a session is nothing. -/
theorem call_depth_exact (s : State) (hs : s.callDepth ≤ maxCallDepth) (env : EnvironmentId)
    (moves : Nat) :
    (∀ e, (Machine.run moves ⟨.evaluate e env, [], s⟩).CountsCalls s.callDepth ∧
      ∀ ending s', State.evaluate moves e env s = (ending, s') → ending ≠ .unfinished →
        s'.callDepth = s.callDepth) ∧
    (∀ st, (Machine.run moves ⟨.execute st env, [], s⟩).CountsCalls s.callDepth ∧
      ∀ ending s', State.execute moves st env s = (ending, s') → ending ≠ .unfinished →
        s'.callDepth = s.callDepth) ∧
    ∀ limit now texts t m, Session.Moment limit now texts t m →
      m.CountsCalls 0 ∧ (m.hasHalted = true → m.state.callDepth = 0) := by
  have hcounted : ∀ control : Control, Machine.Stacked ⟨control, [], s⟩ →
      (Machine.run moves ⟨control, [], s⟩).Counted s.callDepth :=
    fun control hstacked => Machine.Counted.run ⟨rfl, hs⟩ hstacked moves
  refine ⟨fun e => ?_, fun st => ?_, fun limit now texts t m h => ?_⟩
  · have hstacked : Machine.Stacked ⟨.evaluate e env, [], s⟩ := ⟨trivial, trivial⟩
    have h := hcounted _ hstacked
    refine ⟨h.countsCalls (hstacked.run moves).control, fun ending s' hrun hending => ?_⟩
    cases hrun
    exact h.restored (stack_of_valueEnding hending)
  · have hstacked : Machine.Stacked ⟨.execute st env, [], s⟩ := ⟨trivial, trivial⟩
    have h := hcounted _ hstacked
    refine ⟨h.countsCalls (hstacked.run moves).control, fun ending s' hrun hending => ?_⟩
    cases hrun
    exact h.restored (stack_of_doneEnding hending)
  · refine ⟨h.counted.countsCalls h.stacked.control, fun hhalted => ?_⟩
    exact h.counted.restored (Machine.stack_of_hasHalted hhalted)

/-! ### One call at the limit -/

namespace Session

/-- The expression `clock()`. -/
def clockCall : Expr := .call (.variable (nameAt "clock" 1) none) ⟨.rightParen, ")", ⟨1, 7⟩⟩ []

/-- The first state of a session, but inside of `k` calls. -/
def nested (k : Nat) : State := { State.initial none 0 with callDepth := k }

/-- The last call that can be made is made, and the next one is refused; both leave as many
calls active as there were. -/
theorem call_depth_exact_clock :
    (∃ v s', State.evaluate 4 clockCall State.globals (nested 4999) = (.answer v, s') ∧
      s'.callDepth = 4999) ∧
    ∃ s', State.evaluate 3 clockCall State.globals (nested 5000) =
        (.stopped (.failure (.blaming ⟨.rightParen, ")", ⟨1, 7⟩⟩ .stackOverflow)), s') ∧
      s'.callDepth = 5000 := by
  have hmade : ∃ v s', State.evaluate 4 clockCall State.globals (nested 4999) = (.answer v, s') :=
    ⟨_, _, by with_unfolding_all rfl⟩
  have hrefused : ∃ s', State.evaluate 3 clockCall State.globals (nested 5000) =
      (.stopped (.failure (.blaming ⟨.rightParen, ")", ⟨1, 7⟩⟩ .stackOverflow)), s') :=
    ⟨_, by with_unfolding_all rfl⟩
  obtain ⟨v, s', hmade⟩ := hmade
  obtain ⟨s'', hrefused⟩ := hrefused
  have hlast := (call_depth_exact (nested 4999) (by decide) State.globals 4).1 clockCall
  have hnext := (call_depth_exact (nested 5000) (by decide) State.globals 3).1 clockCall
  exact ⟨⟨v, s', hmade, hlast.2 _ s' hmade (by simp)⟩, s'', hrefused,
    hnext.2 _ s'' hrefused (by simp)⟩

end Session

end Lox
