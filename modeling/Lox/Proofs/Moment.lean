/-
# Moments of sessions

A moment is a machine at some move of some run: a session starts with nothing,
makes moves, and starts the next text once its machine has halted.  Between two
moves time passes, and what was printed and noted may be taken away.  Beside the
machine stand the programs of the texts so far, as they were read, and the
trail.  Texts that are rejected do not run and leave no moments.

At every moment the machine is coherent with its trail: `Moment.coherent`.
-/
import Lox.Proofs.Coherent.Step
import Lox.Proofs.Due
import Lox.Proofs.Fresh

namespace Lox

/-! ## What happens beside a run -/

/-- The state with anything else as its output, its events and its clock. -/
def State.aside (output : Output) (events : List Event) (clock : Nat → ClockReading)
    (s : State) : State :=
  { s with output := output, events := events, clock := clock }

/-- The machine at the same move, after something has happened beside the run. -/
def Machine.aside (output : Output) (events : List Event) (clock : Nat → ClockReading)
    (m : Machine) : Machine :=
  { m with state := m.state.aside output events clock }

/-- Only the store decides what is coherent. -/
theorem Coherent.aside {texts : List (List Stmt)} {t : Trail} {m : Machine}
    (h : Coherent texts t m) (output : Output) (events : List Event) (clock : Nat → ClockReading) :
    Coherent texts t (m.aside output events clock) :=
  ⟨h.control, h.stack, h.store⟩

/-! ## The beginning of a run -/

/-- A program that is added says nothing about the others. -/
theorem StoreOk.append {texts : List (List Stmt)} {t : Trail} {s : Store}
    (h : StoreOk texts t s) (more : List (List Stmt)) : StoreOk (texts ++ more) t s where
  linked := h.linked
  rooted := h.rooted
  origins := h.origins
  code := h.code
  outermost := h.outermost
  bindings hu := (h.bindings hu).mono (Trail.world_append more t s)
  fields hu := (h.fields hu).mono (Trail.world_append more t s)
  arrays hu := (h.arrays hu).mono (Trail.world_append more t s)

/-- At the beginning the globals hold the native functions. -/
theorem storeOk_initial (limit : Option Nat) (now : ClockReading) :
    StoreOk [] .initial (State.initial limit now).store := by
  have hnone := State.enclosing?_initial limit now
  have hsize := State.size_initial limit now
  have honly : (State.initial limit now).store.Only
      (ValueOk (Trail.initial.world [] (State.initial limit now).store)) :=
    State.only_initial limit now fun _ => trivial
  refine ⟨?_, ?_, hsize.symm, rfl, ?_, honly.bindings, honly.fields, honly.arrays⟩
  · intro e p h
    rw [hnone] at h
    cases h
  · intro e he _
    omega
  · simp only [Trail.world, State.globals, Store.chain_eq, hnone]
    rfl

/-- A machine that is about to run a program among the globals. -/
theorem coherent_starting {texts : List (List Stmt)} {t : Trail} {s : State}
    (hs : StoreOk texts t s.store) (body : List Stmt) :
    Coherent (texts ++ [body]) (t.starting texts.length)
      (s.starting (Resolve.program body).1) := by
  refine ⟨trivial, ⟨?_, trivial⟩, (hs.append [body]).moved⟩
  exact stmtsAt_children (c := .program) (visitAt_last texts body) rfl hs.outermost ⟨nofun, nofun⟩

namespace Session

/-- Noting events leaves the store alone. -/
theorem store_note (events : List Event) (s : State) :
    (events.foldl State.note s).store = s.store := by
  rw [State.foldl_note]

/-- A text that starts is one that was read and accepted. -/
theorem start_eq_ok {source : String} {s : State} {m : Machine} (h : start source s = .ok m) :
    ∃ body, ∃ events : List Event, (read source).2 = .ok body ∧ Accepted body ∧
      m = (events.foldl State.note s).starting (Resolve.program body).1 := by
  unfold start prepare at h
  cases hread : read source with
  | mk events r =>
      rw [hread] at h
      cases r with
      | error f => cases h
      | ok body =>
          simp only [settle] at h
          split at h
          · rename_i program hprogram
            split at hprogram
            · rename_i hnone
              cases hprogram
              cases h
              exact ⟨body, _, rfl, hnone, rfl⟩
            · cases hprogram
          · cases h

theorem settle_of_accepted {body : List Stmt} (h : Accepted body) :
    (settle body).2 = .ok (Resolve.program body).1 := by
  unfold settle
  dsimp only
  rw [h]

theorem prepare_of_accepted {source : String} {body : List Stmt}
    (hread : (read source).2 = .ok body) (haccepted : Accepted body) :
    (prepare source).2 = .ok (Resolve.program body).1 := by
  unfold prepare
  cases hr : read source with
  | mk events r =>
      rw [hr] at hread
      cases hread
      exact settle_of_accepted haccepted

/-- A text that was read and accepted starts. -/
theorem start_of_accepted {source : String} {body : List Stmt}
    (hread : (read source).2 = .ok body) (haccepted : Accepted body) (s : State) :
    ∃ events : List Event, start source s =
      .ok ((events.foldl State.note s).starting (Resolve.program body).1) := by
  have hprepare := prepare_of_accepted hread haccepted
  unfold start
  cases hp : prepare source with
  | mk events r =>
      rw [hp] at hprepare
      cases hprepare
      exact ⟨events, rfl⟩

/-- A text that does not start leaves the state as it is, events apart. -/
theorem start_eq_error {source : String} {s s' : State} {f : Failure}
    (h : start source s = .error (f, s')) :
    ∃ events : List Event, s' = events.foldl State.note s := by
  unfold start at h
  dsimp only at h
  split at h
  · cases h
  · cases h
    exact ⟨_, rfl⟩

theorem state_conclude (m : Machine) : (conclude m).2 = (State.concluded m).2 := by
  unfold conclude
  split <;> simp_all

/-- A conclusion leaves the store alone. -/
theorem store_concluded (m : Machine) : (State.concluded m).2.store = m.state.store := by
  unfold State.concluded
  split
  · rfl
  · rename_i signal _
    cases signal <;> rfl
  · rfl

/-- A text starts with the store that the one before left. -/
theorem store_start {source : String} {m m' : Machine}
    (h : start source (conclude m).2 = .ok m') : m'.state.store = m.state.store := by
  obtain ⟨body, events, -, -, rfl⟩ := start_eq_ok h
  show (events.foldl State.note (conclude m).2).store = _
  rw [store_note, state_conclude, store_concluded]

/-- A moment of a session whose clock begins by saying `now`: the programs so far as they
were read, the trail, and the machine. -/
inductive Moment (limit : Option Nat) (now : ClockReading) :
    List (List Stmt) → Trail → Machine → Prop
  | first : Moment limit now [] .initial ⟨.done, [], .initial limit now⟩
  | move {texts t m} : Moment limit now texts t m → Moment limit now texts (t.step m) m.step
  | aside {texts t m} (output : Output) (events : List Event) (clock : Nat → ClockReading) :
      Moment limit now texts t m → Moment limit now texts t (m.aside output events clock)
  | next {texts t m source body m'} : Moment limit now texts t m → m.hasHalted = true →
      (read source).2 = .ok body → start source (conclude m).2 = .ok m' →
      Moment limit now (texts ++ [body]) (t.starting texts.length) m'

/-- A text that was read and accepted can come next, as if nothing were noted of it. -/
theorem Moment.next_of_accepted {limit : Option Nat} {now : ClockReading}
    {texts : List (List Stmt)} {t : Trail} {m : Machine} (h : Moment limit now texts t m)
    (hhalted : m.hasHalted = true) {source : String} {body : List Stmt}
    (hread : (read source).2 = .ok body) (haccepted : Accepted body) :
    Moment limit now (texts ++ [body]) (t.starting texts.length)
      ((conclude m).2.starting (Resolve.program body).1) := by
  obtain ⟨events, hstart⟩ := start_of_accepted hread haccepted (conclude m).2
  rw [State.foldl_note] at hstart
  exact (h.next hhalted hread hstart).aside (conclude m).2.output (conclude m).2.events
    (conclude m).2.clock

/-- What is the case at every moment of a session. -/
structure Sound (texts : List (List Stmt)) (t : Trail) (m : Machine) : Prop where
  accepted : ∀ body ∈ texts, Accepted body
  read : ∀ body ∈ texts, WasRead body
  coherent : Coherent texts t m

variable {limit : Option Nat} {now : ClockReading} {texts : List (List Stmt)} {t : Trail}
  {m : Machine}

theorem Moment.sound (h : Moment limit now texts t m) : Sound texts t m := by
  induction h with
  | first => exact ⟨List.forall_mem_nil _, List.forall_mem_nil _, trivial, trivial,
      storeOk_initial limit now⟩
  | move _ ih => exact ⟨ih.accepted, ih.read, ih.coherent.step ih.accepted⟩
  | aside output events clock _ ih =>
      exact ⟨ih.accepted, ih.read, ih.coherent.aside output events clock⟩
  | @next texts t m source body m' _ _ hread hstart ih =>
      obtain ⟨body', events, hread', haccepted, rfl⟩ := start_eq_ok hstart
      cases hread.symm.trans hread'
      refine ⟨?_, ?_, ?_⟩
      · intro b hb
        rcases List.mem_append.mp hb with hb | hb
        · exact ih.accepted b hb
        · cases List.mem_singleton.mp hb
          exact haccepted
      · intro b hb
        rcases List.mem_append.mp hb with hb | hb
        · exact ih.read b hb
        · cases List.mem_singleton.mp hb
          exact ⟨source, hread⟩
      · refine coherent_starting ?_ body
        rw [store_note, state_conclude, store_concluded]
        exact ih.coherent.store

theorem Moment.coherent (h : Moment limit now texts t m) : Coherent texts t m :=
  h.sound.coherent

/-- At every moment what is waited for is what will be there. -/
theorem Moment.stacked (h : Moment limit now texts t m) : m.Stacked := by
  induction h with
  | first => exact ⟨trivial, trivial⟩
  | move _ ih => exact ih.step
  | aside _ _ _ _ ih => exact ⟨ih.control, ih.stack⟩
  | next _ _ _ hstart _ =>
      obtain ⟨body, events, -, -, rfl⟩ := start_eq_ok hstart
      exact ⟨rfl, trivial, trivial⟩

/-- No program of a session came with depths. -/
theorem Moment.fresh (h : Moment limit now texts t m) :
    (t.world texts m.state.store).Fresh :=
  fun _ _ hv => visitAt_fresh h.sound.read hv

/-- However many moves are allowed, a run is at a moment. -/
theorem Moment.run (h : Moment limit now texts t m) (n : Nat) :
    ∃ t', Moment limit now texts t' (Machine.run n m) := by
  induction n generalizing t m with
  | zero => exact ⟨t, h⟩
  | succ n ih =>
      rw [Machine.run_succ]
      exact ih h.move

end Session

end Lox
