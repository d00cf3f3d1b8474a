/-
# Runs of a program with a step moved

Every state that a session can reach belongs together with itself, whatever earlier texts
left in it (`Reached.moved`), since a text in which nothing is moved runs like itself.
From such a state a program and the program with a step moved come to the same ends.  The
second one makes more moves on the way, for it enters a block in every round, so ends are
compared in two directions: whatever the one has come to, the other one comes to
(`moved_interpret`, `moved_interpret_back`).
-/
import Lox.Proofs.Reached
import Lox.Proofs.Moving.Resolve
import Lox.Proofs.Moving.Step

namespace Lox

/-- Ends of runs: the same outcome, as much written and the same globals, and states from
which the same can be said of whatever runs next. -/
structure MovedEnding (c c' : State.Outcome × State) : Prop where
  outcome : c'.1 = c.1
  output : c'.2.output = c.2.output
  state : ∃ T, MovedState T c.2 c'.2 ∧ ∀ n,
    Option.Rel (MovedValue T) (c.2.store.getLocal? State.globals n)
      (c'.2.store.getLocal? State.globals n) ∧
    c'.2.store.isReadOnly State.globals n = c.2.store.isReadOnly State.globals n

/-- What states have in common that belong together. -/
theorem MovedState.ending {T : Twins} {s s' : State} (hs : MovedState T s s')
    (o : State.Outcome) : MovedEnding (o, s) (o, s') :=
  have hglobals := hs.store.twinned.globals
  ⟨rfl, hs.output, T, hs, fun n =>
    ⟨hs.store.getLocal? hglobals n, hs.store.isReadOnly hglobals n⟩⟩

namespace State

/-- A machine that has not come to its end has no outcome. -/
theorem concluded_of_not_hasHalted {m : Machine} (h : m.hasHalted = false) :
    concluded m = (.unfinished, m.state) := by
  obtain ⟨control, stack, s⟩ := m
  cases stack <;> cases control <;> first | rfl | cases h

theorem moved_concluded {m m' : Machine} (h : MovedMachine m m') :
    MovedEnding (concluded m) (concluded m') := by
  obtain ⟨control, stack, s⟩ := m
  obtain ⟨control', stack', s'⟩ := m'
  obtain ⟨T, a, hcontrol, hstack, hs⟩ := h
  dsimp only at hcontrol hstack hs
  cases stack with
  | cons frame stack =>
      cases stack' with
      | nil => cases hstack
      | cons frame' stack' => cases hcontrol <;> exact hs.ending .unfinished
  | nil =>
      cases hstack
      cases hcontrol with
      | evaluate | execute | value => exact hs.ending .unfinished
      | done => exact hs.ending .success
      | failure e => exact hs.ending (.error e)
      | returning | breaking | continuing => exact (hs.note _ _).ending (.error _)

theorem moved_starting {T : Twins} {s s' : State} (hs : MovedState T s s')
    {program program' : List Stmt} (h : MovedStmts [.own] .none program program') :
    MovedMachine (starting program s) (starting program' s') :=
  ⟨T, _, .done, .cons (.sequence hs.store.twinned.globals h) (.nil (.done .none)), hs⟩

section
variable {T : Twins} {s s' : State} (hs : MovedState T s s') {program program' : List Stmt}
  (h : MovedStmts [.own] .none program program')
include hs h

/-- Whatever the first program comes to, the second one comes to. -/
theorem moved_interpret (moves : Nat) : ∃ moves', moves ≤ moves' ∧
    MovedEnding (interpret moves program s) (interpret moves' program' s') := by
  obtain ⟨moves', hle, hm⟩ := moved_run (moved_starting hs h) moves
  exact ⟨moves', hle, moved_concluded hm⟩

/-- Whatever the second program comes to, the first one comes to. -/
theorem moved_interpret_back (moves' : Nat) : ∃ moves,
    MovedEnding (interpret moves program s) (interpret moves' program' s') := by
  obtain ⟨moves, ⟨T', hs'⟩, hended, hgoes⟩ := moved_run_back (moved_starting hs h) moves'
  refine ⟨moves, ?_⟩
  unfold interpret
  cases hhalted : (Machine.run moves' (starting program' s')).hasHalted with
  | true => exact moved_concluded (hended hhalted)
  | false =>
      rw [concluded_of_not_hasHalted hhalted, concluded_of_not_hasHalted (hgoes hhalted)]
      exact hs'.ending .unfinished

end

end State

namespace Session

/-- At the beginning there are the native functions, and one environment. -/
theorem moved_initial (limit : Option Nat) (now : ClockReading) :
    ∃ T, MovedState T (.initial limit now) (.initial limit now) := by
  let T : Twins := fun e e' Δ => e = State.globals ∧ e' = State.globals ∧ Δ = [.own]
  have hglobals : T State.globals State.globals [.own] := ⟨rfl, rfl, rfl⟩
  have htwinned : Twinned T (Store.empty.newEnvironment default).2
      (Store.empty.newEnvironment default).2 := by
    refine ⟨?_, ?_, ?_, ?_, hglobals, rfl, rfl⟩
    · rintro e e' Δ ⟨rfl, rfl, -⟩
      exact ⟨Nat.zero_lt_one, Nat.zero_lt_one⟩
    · rintro e e' f f' Δ Δ' ⟨rfl, rfl, -⟩ ⟨rfl, rfl, -⟩
      exact iff_of_true rfl rfl
    · rintro e e' l Δ ⟨-, -, heq⟩
      cases heq
    · rintro e x Δ ⟨-, -, heq⟩
      cases heq
  have hbase : MovedStore T (Store.empty.newEnvironment default).2
      (Store.empty.newEnvironment default).2 := by
    refine ⟨?_, .nil, .nil, rfl, htwinned⟩
    rintro e e' Δ ⟨rfl, rfl, -⟩
    exact ⟨.nil, rfl⟩
  have hclock := hbase.put hglobals Native.clock.name (.callable (.native .clock))
  have hlen := hclock.put hglobals Native.len.name (.callable (.native .len))
  exact ⟨T, hlen, rfl, rfl, rfl, rfl⟩

/-- A run of a text that came to its end leaves a state that belongs together with itself. -/
theorem moved_finished {m : Machine} (hm : MovedMachine m m) {moves : Nat}
    (hfinished : (conclude (Machine.run moves m)).1 ≠ .unfinished) :
    ∃ T, MovedState T (conclude (Machine.run moves m)).2 (conclude (Machine.run moves m)).2 := by
  obtain ⟨moves', hle, hrun⟩ := moved_run hm moves
  rw [Machine.run_of_le (hasHalted_of_conclude hfinished) hle] at hrun
  obtain ⟨T, hs, -⟩ := (State.moved_concluded hrun).state
  rw [conclude_state]
  exact ⟨T, hs⟩

/-- A state of a session belongs together with itself. -/
theorem Reached.moved {sources : List String} {s : State} (h : Reached sources s) :
    ∃ T, MovedState T s s := by
  induction h with
  | first limit now => exact moved_initial limit now
  | @ran sources s moves source h hfinished ih =>
      obtain ⟨T, hs⟩ := ih
      unfold run at hfinished ⊢
      cases hstart : start source s with
      | error failed =>
          obtain ⟨f, s'⟩ := failed
          obtain ⟨events, rfl⟩ := start_eq_error hstart
          exact ⟨T, hs.notes events events⟩
      | ok m =>
          obtain ⟨body, events, hread, haccepted, rfl⟩ := start_eq_ok hstart
          have hself := moved_self ⟨source, hread⟩ haccepted
          rw [hstart] at hfinished
          exact moved_finished (State.moved_starting (hs.notes events events) hself) hfinished
  | aside output events clock h ih =>
      obtain ⟨T, hs⟩ := ih
      exact ⟨T, hs.store, rfl, rfl, rfl, rfl⟩

end Session

end Lox
