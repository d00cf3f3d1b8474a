/-
# Interpreters that a host uses

A host uses an interpreter directly.  It gives it statement lists, read or
hand-built, that the resolver accepts, and between runs it interprets one of
them, executes one of their statements among the globals, or calls a value with
others, all of them values that the interpreter showed it.  It makes no functions,
classes, instances or modules of its own: what a function holds that was put together
by hand no resolver has accepted, and nothing is said of its calls.

However it does so, `return`, `break` and `continue` stay where they belong: no
call ends with one, no statement at the top level does, and no program is
reported to have failed with one.
-/
import Lox.Proofs.Kept
import Lox.Proofs.Moment

namespace Lox

/-! ## Coherence with more programs -/

theorem ControlOk.mono {w w' : World} (h : w ≤ w') {p : Place} {stack : List Frame}
    {control : Control} (hc : ControlOk w p stack control) : ControlOk w' p stack control := by
  cases control with
  | evaluate e env => exact ExprAt.mono h hc
  | execute st env => exact StmtAt.mono h hc
  | value v => exact ValueOk.mono h hc
  | done => trivial
  | unwind signal =>
      cases signal with
      | failure e => exact Fault.Ordinary.mono h hc
      | returning v => exact ⟨ValueOk.mono h hc.1, hc.2⟩
      | breaking | continuing => exact hc

theorem Coherent.append {texts : List (List Stmt)} {t : Trail} {m : Machine}
    (h : Coherent texts t m) (more : List (List Stmt)) : Coherent (texts ++ more) t m where
  control := h.control.mono (Trail.world_append more t _)
  stack := h.stack.mono (Trail.world_append more t _)
  store := h.store.append more

/-- Each resolved statement is one that was visited in the same scopes. -/
theorem visit_of_mem {c : Context} {sts : List Stmt} {st : Stmt} (h : st ∈ c.stmts sts) :
    ∃ i c' st₀, Visit.statement c sts i = some ⟨c', .stmt st₀⟩ ∧ c'.stmt st₀ = st := by
  induction sts generalizing c with
  | nil => cases h
  | cons st₀ sts ih =>
      rcases List.mem_cons.mp h with rfl | h
      · exact ⟨sts.length, c, st₀, Visit.statement_head c st₀ sts, rfl⟩
      · obtain ⟨i, c', st₁, hi, hst⟩ := ih (c := c.after st₀) h
        exact ⟨i, c', st₁, statement_tail hi, hst⟩

/-- What surrounds the statements of a program. -/
theorem visitAt_top {texts : List (List Stmt)} {i r : Nat} {v : Visit}
    (h : visitAt texts [i, r] = some v) :
    v.context.sites = [.program] ∧ v.context.surroundings = .program := by
  have hbody : ∀ (c : Context) sts, Visit.statement c sts i = some v →
      v.context.sites = c.sites ∧ v.context.surroundings = c.surroundings := by
    intro c sts hi
    induction sts generalizing c with
    | nil => cases hi
    | cons st sts ih =>
        simp only [Visit.statement] at hi
        split at hi
        · cases hi
          exact ⟨rfl, rfl⟩
        · exact ih (c.after st) hi
  obtain ⟨u, hu, hv⟩ := Option.bind_eq_some_iff.mp h
  obtain ⟨body, -, rfl⟩ := Option.map_eq_some_iff.mp hu
  exact hbody .program body hv

namespace Host

/-- A value that a host can get hold of while a machine rests: its own scalars
and the native functions, an answer, and what a name, a field or an element
stands for. -/
inductive Shows (m : Machine) : Value → Prop
  | nil : Shows m .nil
  | boolean (b : Bool) : Shows m (.boolean b)
  | number (x : Float) : Shows m (.number x)
  | string (s : String) : Shows m (.string s)
  | native (n : Native) : Shows m (.callable (.native n))
  | answer {v} : m.control = .value v → Shows m v
  | binding {e n v} : m.state.store.getLocal? e n = some v → Shows m v
  | field {i n v} : (m.state.store.fieldsOf i).get? n = some v → Shows m v
  | element {a i v} : m.state.store.element? a i = some v → Shows m v

/-- A moment of an interpreter whose clock begins by saying `now`: the values that the host has
got hold of, the statement lists that the resolver accepted, the trail, and the
machine. -/
inductive Moment (limit : Option Nat) (now : ClockReading) :
    List Value → List (List Stmt) → Trail → Machine → Prop
  | first : Moment limit now [] [] .initial ⟨.done, [], .initial limit now⟩
  | move {vs texts t m} : Moment limit now vs texts t m →
      Moment limit now vs texts (t.step m) m.step
  | aside {vs texts t m} (output : Output) (events : List Event) (clock : Nat → ClockReading) :
      Moment limit now vs texts t m →
      Moment limit now vs texts t (m.aside output events clock)
  | see {vs texts t m v} : Moment limit now vs texts t m → m.hasHalted = true → Shows m v →
      Moment limit now (v :: vs) texts t m
  | accept {vs texts t m body} : Moment limit now vs texts t m → Accepted body →
      Moment limit now vs (texts ++ [body]) t m
  | interpret {vs texts t m r body} : Moment limit now vs texts t m → m.hasHalted = true →
      texts[r]? = some body →
      Moment limit now vs texts (t.starting r)
        ((State.concluded m).2.starting (Resolve.program body).1)
  | execute {vs texts t m i r c st} : Moment limit now vs texts t m → m.hasHalted = true →
      visitAt texts [i, r] = some ⟨c, .stmt st⟩ →
      Moment limit now vs texts { t with here := [i, r], frames := [] }
        ⟨.execute (c.stmt st) State.globals, [], (State.concluded m).2⟩
  | call {vs texts t m c arguments} : Moment limit now vs texts t m → m.hasHalted = true →
      .callable c ∈ vs → (∀ v ∈ arguments, v ∈ vs) →
      Moment limit now vs texts
        (Trail.invoke c arguments (State.concluded m).2.store { t with frames := [] })
        (Machine.invoke c arguments [] (State.concluded m).2)

variable {limit : Option Nat} {now : ClockReading} {vs : List Value} {texts : List (List Stmt)}
  {t : Trail} {m : Machine}

/-- What is the case at every moment. -/
structure Sound (vs : List Value) (texts : List (List Stmt)) (t : Trail) (m : Machine) :
    Prop where
  accepted : ∀ body ∈ texts, Accepted body
  coherent : Coherent texts t m
  values : ∀ v ∈ vs, ValueOk (t.world texts m.state.store) v

theorem Shows.valueOk {v : Value} (h : Shows m v) (hc : Coherent texts t m) :
    ValueOk (t.world texts m.state.store) v := by
  cases h with
  | nil | boolean | number | string | native => trivial
  | answer hv =>
      have hcontrol := hc.control
      rw [hv] at hcontrol
      exact hcontrol
  | binding hb => exact hc.store.bindings hb
  | field hf => exact hc.store.fields hf
  | element he => exact hc.store.arrays he

/-- A visited statement stands at a place of its text. -/
theorem visitAt_of_mem {body : List Stmt} {st : Stmt} (hb : body ∈ texts)
    (hst : st ∈ (Resolve.program body).1) :
    ∃ i r c st₀, visitAt texts [i, r] = some ⟨c, .stmt st₀⟩ ∧ c.stmt st₀ = st := by
  obtain ⟨r, hr⟩ := List.getElem?_of_mem hb
  obtain ⟨i, c, st₀, hi, hst⟩ := visit_of_mem (c := .program) hst
  have hroot : visitAt texts [r] = some ⟨.program, .text body⟩ := by
    simp only [visitAt, hr, Option.map_some]
  exact ⟨i, r, c, st₀, (visitAt_cons hroot i).trans hi, hst⟩

theorem Moment.sound (h : Moment limit now vs texts t m) : Sound vs texts t m := by
  induction h with
  | first =>
      exact ⟨List.forall_mem_nil _, ⟨trivial, trivial, storeOk_initial limit now⟩,
        List.forall_mem_nil _⟩
  | move _ ih =>
      exact ⟨ih.accepted, ih.coherent.step ih.accepted,
        fun v hv => (ih.values v hv).mono (Trail.world_le_step ih.coherent.store)⟩
  | aside output events clock _ ih =>
      exact ⟨ih.accepted, ih.coherent.aside output events clock, ih.values⟩
  | see _ _ hshows ih =>
      refine ⟨ih.accepted, ih.coherent, fun v hv => ?_⟩
      rcases List.mem_cons.mp hv with rfl | hv
      · exact hshows.valueOk ih.coherent
      · exact ih.values v hv
  | @accept vs texts t m body _ hbody ih =>
      refine ⟨fun b hb => ?_, ih.coherent.append [body],
        fun v hv => (ih.values v hv).mono (Trail.world_append [body] t _)⟩
      rcases List.mem_append.mp hb with hb | hb
      · exact ih.accepted b hb
      · cases List.mem_singleton.mp hb
        exact hbody
  | @interpret vs texts t m r body _ _ hbody ih =>
      have hs : StoreOk texts (t.starting r) (State.concluded m).2.store := by
        rw [Session.store_concluded]
        exact ih.coherent.store.moved
      have hroot : visitAt texts [r] = some ⟨.program, .text body⟩ := by
        simp only [visitAt, hbody, Option.map_some]
      refine ⟨ih.accepted, ⟨trivial, ⟨?_, trivial⟩, hs⟩, fun v hv => ?_⟩
      · exact stmtsAt_children (c := .program) hroot rfl hs.outermost
          ⟨fun h => absurd rfl h, fun h => by cases h⟩
      · have hv := ih.values v hv
        rw [← Session.store_concluded] at hv
        exact hv
  | @execute vs texts t m i r c st _ _ hvisit ih =>
      obtain ⟨hsites, hsur⟩ := visitAt_top hvisit
      have hs : StoreOk texts { t with here := [i, r], frames := [] }
          (State.concluded m).2.store := by
        rw [Session.store_concluded]
        exact ih.coherent.store.moved
      refine ⟨ih.accepted, ⟨⟨c, st, hvisit, rfl, ?_, ?_⟩, trivial, hs⟩, fun v hv => ?_⟩
      · exact hsites ▸ hs.outermost
      · replace hsur : c.surroundings = .program := hsur
        rw [hsur]
        exact ⟨fun h => absurd rfl h, fun h => by cases h⟩
      · have hv := ih.values v hv
        rw [← Session.store_concluded] at hv
        exact hv
  | @call vs texts t m c arguments _ _ hc hargs ih =>
      have hs : StoreOk texts { t with frames := [] } (State.concluded m).2.store := by
        rw [Session.store_concluded]
        exact ih.coherent.store.moved
      have hvs : ∀ v ∈ vs, ValueOk (t.world texts (State.concluded m).2.store) v := by
        rw [Session.store_concluded]
        exact ih.values
      have hnotes : t.Extends { t with frames := [] } := .of_eq rfl rfl
      have hkept : Store.Kept (fun _ _ => False) (fun _ _ => False) (State.concluded m).2.store _ :=
        Machine.kept_invoke [] (State.concluded m).2 c arguments
      have hk : StackOk (Trail.world texts { t with frames := [] } (State.concluded m).2.store)
          [] [] := trivial
      refine ⟨ih.accepted, coherent_invoke hs hk (hvs _ hc) fun v hv => hvs v (hargs v hv),
        fun v hv => (hvs v hv).mono ?_⟩
      exact Trail.world_le (hnotes.trans (Trail.extends_invoke ..)) hkept.links
        (Nat.le_of_eq hs.origins)

/-- However many moves are allowed, a run is at a moment. -/
theorem Moment.run (h : Moment limit now vs texts t m) (n : Nat) :
    ∃ t', Moment limit now vs texts t' (Machine.run n m) := by
  induction n generalizing t m with
  | zero => exact ⟨t, h⟩
  | succ n ih =>
      rw [Machine.run_succ]
      exact ih h.move

/-! ## Signals -/

/-- The frames of a call, or of a program, that is about to be left. -/
def Outside : List Frame → Prop
  | [] | .activeCall _ :: _ | .constructed _ :: _ => True
  | _ => False

theorem outside_of_nil {stack : List Frame} (h : stack = []) : Outside stack := by
  subst h
  trivial

/-- A failure, and none that says that a signal escaped. -/
def Stays : Signal → Prop
  | .failure e => ∀ what, e.fault ≠ .escaped what
  | _ => False

theorem stays_of_signalOk {w : World} {stack : List Frame} {signal : Signal}
    (h : SignalOk w stack signal) (hs : Outside stack) : Stays signal := by
  have hreturn : catchesReturn stack = false := by
    unfold Outside at hs
    split at hs
    · rfl
    · rfl
    · rfl
    · cases hs
  have hloop : catchesLoop stack = false := by
    unfold Outside at hs
    split at hs
    · rfl
    · rfl
    · rfl
    · cases hs
  cases signal with
  | failure e =>
      intro what he
      have hordinary : e.fault.Ordinary w := h
      rw [he] at hordinary
      exact hordinary
  | returning v => exact absurd (hreturn.symm.trans h.2) nofun
  | breaking | continuing => exact absurd (hloop.symm.trans h) nofun

theorem Moment.stays (h : Moment limit now vs texts t m) {signal : Signal}
    (hm : m.control = .unwind signal) (hs : Outside m.stack) : Stays signal := by
  have hcontrol := h.sound.coherent.control
  rw [hm] at hcontrol
  exact stays_of_signalOk hcontrol hs

/-- A conclusion does not change the state of a moment. -/
theorem Moment.state_concluded (h : Moment limit now vs texts t m) :
    (State.concluded m).2 = m.state := by
  obtain ⟨control, stack, s⟩ := m
  cases control with
  | unwind signal =>
      cases stack with
      | cons frame stack => rfl
      | nil =>
          have hstays := h.stays rfl trivial
          cases signal with
          | failure e => rfl
          | returning | breaking | continuing => exact hstays.elim
  | _ => cases stack <;> rfl

theorem of_valueEnding {signal : Signal} (h : m.valueEnding = .stopped signal) :
    m.control = .unwind signal ∧ m.stack = [] := by
  unfold Machine.valueEnding at h
  split at h <;> cases h
  exact ⟨‹_›, ‹_›⟩

theorem of_doneEnding {signal : Signal} (h : m.doneEnding = .stopped signal) :
    m.control = .unwind signal ∧ m.stack = [] := by
  unfold Machine.doneEnding at h
  split at h <;> cases h
  exact ⟨‹_›, ‹_›⟩

/-- Whatever a host does with statement lists that the resolver accepts: no
signal but a failure leaves a call or a program at any moment; and once the
machine has halted, no call of a value, no statement at the top level and no
program ends, within any number of moves, with anything but an answer or a
failure, which does not say that a signal escaped. -/
theorem signals_caught (h : Moment limit now vs texts t m) :
    (∀ signal, m.control = .unwind signal → Outside m.stack → Stays signal) ∧
    (m.hasHalted = true →
      (∀ n c arguments signal, .callable c ∈ vs → (∀ v ∈ arguments, v ∈ vs) →
        (State.call n c arguments m.state).1 = .stopped signal → Stays signal) ∧
      (∀ n body st signal, body ∈ texts → st ∈ (Resolve.program body).1 →
        (State.execute n st State.globals m.state).1 = .stopped signal → Stays signal) ∧
      (∀ n body e what, body ∈ texts →
        (State.interpret n (Resolve.program body).1 m.state).1 = .error e →
          e.fault ≠ .escaped what)) := by
  have hstate := h.state_concluded
  refine ⟨fun signal => h.stays, fun hhalted => ⟨?_, ?_, ?_⟩⟩
  · intro n c arguments signal hc hargs hend
    have hcall := h.call hhalted hc hargs
    rw [hstate] at hcall
    obtain ⟨t', hrun⟩ := hcall.run n
    obtain ⟨hcontrol, hstack⟩ := of_valueEnding hend
    exact hrun.stays hcontrol (outside_of_nil hstack)
  · intro n body st signal hb hst hend
    obtain ⟨i, r, c, st₀, hv, rfl⟩ := visitAt_of_mem hb hst
    have hexecute := h.execute hhalted hv
    rw [hstate] at hexecute
    obtain ⟨t', hrun⟩ := hexecute.run n
    obtain ⟨hcontrol, hstack⟩ := of_doneEnding hend
    exact hrun.stays hcontrol (outside_of_nil hstack)
  · intro n body e what hb hend
    obtain ⟨r, hr⟩ := List.getElem?_of_mem hb
    have hinterpret := h.interpret hhalted hr
    rw [hstate] at hinterpret
    obtain ⟨t', hrun⟩ := hinterpret.run n
    unfold State.interpret State.concluded at hend
    split at hend
    · cases hend
    · rename_i signal hsignal
      obtain ⟨hcontrol, hstack⟩ := of_doneEnding hsignal
      have hstays := hrun.stays hcontrol (outside_of_nil hstack)
      cases signal with
      | failure e' =>
          cases hend
          exact hstays what
      | returning | breaking | continuing => exact hstays.elim
    · cases hend

/-! ### One statement list -/

/-- A token of a list that nobody has written. -/
def made (kind : TokenKind) (lexeme : String) : Token := ⟨kind, lexeme, .start⟩

/-- A function that returns out of its loop, and a call of it inside a module. -/
def returning : List Stmt :=
  [.functionDecl (.mk (made .kwFun "fun") (some (made .identifier "f")) []
    [.whileLoop (.literal (.boolean true)) (.returnWith (made .kwReturn "return") none) none]),
   .moduleDecl (made .identifier "m")
    [.expression (.call (.variable (made .identifier "f") none) (made .rightParen ")") [])]]

theorem accepted_returning : Accepted returning := rfl

/-- A host accepts the list and interprets it. -/
theorem signals_caught_returning :
    Moment none 0 [] [returning] .initial ⟨.done, [], .initial none 0⟩ ∧
      ∀ n e what, (State.interpret n (Resolve.program returning).1 (.initial none 0)).1 =
        .error e → e.fault ≠ .escaped what := by
  have hmoment : Moment none 0 [] [returning] .initial ⟨.done, [], .initial none 0⟩ :=
    .accept .first accepted_returning
  obtain ⟨-, hhalted⟩ := signals_caught hmoment
  obtain ⟨-, -, hinterpret⟩ := hhalted rfl
  exact ⟨hmoment, fun n e what => hinterpret n returning e what (List.mem_singleton_self _)⟩

end Host

end Lox
