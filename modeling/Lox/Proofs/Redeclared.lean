/-
# Names that are already defined

The resolver finds every name that one text declares twice in one scope.  What is left
are the globals, which go on from text to text: a run can fail because a name is already
defined only if the globals had that name when the run began, and only at a declaration
of that name at the top of a text.  No other declaration fails, nor does a parameter or
the own name of a lambda, in any round of a loop and in any call:
`Session.redefined_before`.
-/
import Lox.Proofs.Clear.Step
import Lox.Proofs.Lexical

namespace Lox

/-! ## Where declarations stand -/

/-- Only texts stand at the place of a text. -/
theorem place_of_text {texts : List (List Stmt)} {p : Place} {c : Context} {body : List Stmt}
    (h : visitAt texts p = some ⟨c, .text body⟩) : ∃ r, p = [r] := by
  match p with
  | [r] => exact ⟨r, rfl⟩
  | i :: j :: p =>
      obtain ⟨v, -, hchild⟩ := Option.bind_eq_some_iff.mp h
      cases Visit.enters_child hchild

/-- Where a declaration stands, seen from the constructs around it: at the top of a text, in a
block, among the statements of a module, or in the body of a function. -/
inductive Stands (texts : List (List Stmt)) (st : Stmt) : Place → List Site → Prop
  | top {i r} : Stands texts st [i, r] [.program]
  | block {p q outer} : Stands texts st p (.block q :: outer)
  | module {p q c name body outer} :
      visitAt texts q = some ⟨c, .stmt (.moduleDecl name body)⟩ → st ∈ body →
      Stands texts st p (.members q :: outer)
  | function {p q outer} : Stands texts st p (.call q :: outer)

section
variable {texts : List (List Stmt)} (hread : ∀ body ∈ texts, WasRead body) {p : Place}
  {c : Context} {st : Stmt} {x : Token} (h : visitAt texts p = some ⟨c, .stmt st⟩)
  (hx : st.declares = some x)
include hread h hx

/-- A declaration stands in a list of statements, as neither a branch nor the body of a loop
is one. -/
theorem stands_of_declares : Stands texts st p c.sites := by
  match p with
  | [r] =>
      obtain ⟨body, -, hbody⟩ := Option.map_eq_some_iff.mp h
      cases hbody
  | i :: j :: p =>
      obtain ⟨v, hv, hchild⟩ := Option.bind_eq_some_iff.mp h
      have hworded := visitAt_worded hread hv
      have henters := Visit.enters_child hchild
      generalize hw : (⟨c, .stmt st⟩ : Visit) = w at henters
      cases henters with
      | text =>
          cases hw
          obtain ⟨r, hr⟩ := place_of_text hv
          cases hr
          obtain ⟨body, -, hbody⟩ := Option.map_eq_some_iff.mp hv
          cases hbody
          rw [Context.sites_through]
          exact .top
      | onTrue =>
          cases hw
          cases hworded with
          | branch _ _ hnone _ _ => cases hnone.symm.trans hx
      | onFalse =>
          cases hw
          cases hworded with
          | branch _ _ _ _ hnone => cases (hnone _ rfl).symm.trans hx
      | loopBody =>
          cases hw
          cases hworded with
          | whileLoop _ _ hnone _ => cases hnone.symm.trans hx
      | block =>
          cases hw
          rw [Context.sites_through]
          exact .block
      | members =>
          cases hw
          rw [Context.sites_through]
          exact .module hv (List.mem_append_right _ List.mem_cons_self)
      | body =>
          cases hw
          rw [Context.sites_through]
          exact .function
      | _ => cases hw

/-- What a statement in the scope of the program declares, it declares at the top of a
text. -/
theorem place_of_declares (hsites : c.sites = [.program]) : ∃ i r, p = [i, r] := by
  have hstands := stands_of_declares hread h hx
  rw [hsites] at hstands
  cases hstands with
  | top => exact ⟨_, _, rfl⟩

/-- What a statement declares in the scope of a module, the body of the module declares. -/
theorem mem_of_declares {q : Place} {outer : List Site} (hsites : c.sites = .members q :: outer)
    {c' : Context} {name : Token} {body : List Stmt}
    (hq : visitAt texts q = some ⟨c', .stmt (.moduleDecl name body)⟩) : st ∈ body := by
  have hstands := stands_of_declares hread h hx
  rw [hsites] at hstands
  cases hstands with
  | module hq' hmem =>
      cases hq.symm.trans hq'
      exact hmem

end

/-! ## Failing declarations -/

namespace Machine

variable {base : EnvironmentId → String → Prop} {blames : String → Prop} {m : Machine}

/-- What a clear machine is to define is not there, or was there before. -/
theorem Clear.before (h : m.Clear base blames) {env : EnvironmentId} {x : Token}
    (hdue : m.due = some (env, x)) (hbinds : m.state.store.binds env x.lexeme = true) :
    base env x.lexeme := by
  obtain ⟨control, stack, s⟩ := m
  obtain ⟨-, hcontrol, hstack⟩ := h
  have hclear : DueClear base s.store (some (env, x)) stack ∨
      ∃ frame rest, stack = frame :: rest ∧ DueClear base s.store (some (env, x)) rest := by
    cases control with
    | evaluate | unwind => cases hdue
    | execute st e => exact .inl (hdue ▸ hcontrol)
    | value | done =>
        cases stack with
        | nil => cases hdue
        | cons frame rest => exact .inr ⟨frame, rest, rfl, hdue ▸ hstack.2.1⟩
  rcases hclear with hclear | ⟨_, _, -, hclear⟩
  all_goals
    obtain ⟨-, -, -, -, -, -, hbase⟩ := hclear env x rfl
    exact hbase hbinds

/-- A move at which a name is already defined is the end of a declaration of that name,
which was there before. -/
theorem Clear.raises {texts : List (List Stmt)} {t : Trail} (h : m.Clear base blames)
    (accepted : ∀ body ∈ texts, Accepted body) (hread : ∀ body ∈ texts, WasRead body)
    (hm : Coherent texts t m) (hstacked : m.Stacked) {e : RuntimeError} {n : String}
    (hrunning : ∀ signal, m.control ≠ .unwind signal)
    (hstep : m.step.control = .unwind (.failure e)) (he : e.fault = .alreadyDefined n) :
    ∃ env x, m.due = some (env, x) ∧ x.lexeme = n ∧ base env n := by
  have hnow : m.Clear base fun n => ∃ env x, m.due = some (env, x) ∧ x.lexeme = n ∧ base env n :=
    ⟨fun e _ he => absurd he (hrunning (.failure e)), h.due, h.stack⟩
  refine (hnow.step accepted hread hm hstacked fun env x hdue hb => ?_).fault e n hstep he
  exact ⟨env, x, hdue, rfl, h.before hdue hb⟩

end Machine

namespace Session

/-- A moment of a session in the run of its last text, which began with the store `s₀`. -/
inductive Running (limit : Option Nat) (now : ClockReading) :
    List (List Stmt) → Store → Trail → Machine → Prop
  | start {texts t m source body m'} : Moment limit now texts t m → m.hasHalted = true →
      (read source).2 = .ok body → start source (conclude m).2 = .ok m' →
      Running limit now (texts ++ [body]) m'.state.store (t.starting texts.length) m'
  | move {texts s₀ t m} : Running limit now texts s₀ t m →
      Running limit now texts s₀ (t.step m) m.step
  | aside {texts s₀ t m} (output : Output) (events : List Event) (clock : Nat → ClockReading) :
      Running limit now texts s₀ t m → Running limit now texts s₀ t (m.aside output events clock)

variable {limit : Option Nat} {now : ClockReading} {texts : List (List Stmt)} {s₀ : Store}
  {t : Trail} {m : Machine}

theorem Running.moment (h : Running limit now texts s₀ t m) : Moment limit now texts t m := by
  induction h with
  | start hm hhalted hread hstart => exact .next hm hhalted hread hstart
  | move _ ih => exact .move ih
  | aside output events clock _ ih => exact .aside output events clock ih

/-- Every moment is in the run of the last text, if there is one. -/
theorem Moment.running (h : Moment limit now texts t m) :
    texts = [] ∨ ∃ s₀, Running limit now texts s₀ t m := by
  induction h with
  | first => exact .inl rfl
  | move _ ih => exact ih.imp_right fun ⟨s₀, h⟩ => ⟨s₀, .move h⟩
  | aside output events clock _ ih =>
      exact ih.imp_right fun ⟨s₀, h⟩ => ⟨s₀, .aside output events clock h⟩
  | next hm hhalted hread hstart _ => exact .inr ⟨_, .start hm hhalted hread hstart⟩

/-- In the run of a text, declarations meet only names that the globals had before. -/
theorem Running.clear (h : Running limit now texts s₀ t m) :
    m.Clear (fun env n => env = State.globals ∧ s₀.binds env n = true)
      (fun n => s₀.binds State.globals n = true) := by
  induction h with
  | @start texts t m source body m' hm hhalted hread hstart =>
      have hok := (Moment.next hm hhalted hread hstart).coherent.store
      have hglobals : State.globals < m'.state.store.environments.size :=
        hok.origins ▸ Trail.sites_lt hok.outermost
      obtain ⟨body', events, hread', haccepted, rfl⟩ := start_eq_ok hstart
      cases hread.symm.trans hread'
      refine ⟨fun _ _ he => (nomatch he), .none, ⟨hglobals, [[]], ?_⟩, .none, trivial⟩
      have hworded : WasRead body := ⟨source, hread⟩
      exact ⟨⟨.program, body, rfl, haccepted, hworded.worded⟩, nofun, fun n hn => .inr ⟨rfl, hn⟩⟩
  | move hm ih =>
      have hsound := hm.moment.sound
      refine ih.step hsound.accepted hsound.read hsound.coherent hm.moment.stacked ?_
      intro env x hdue hb
      obtain ⟨rfl, hbefore⟩ := ih.before hdue hb
      exact hbefore
  | aside _ _ _ _ ih => exact ⟨ih.fault, ih.due, ih.stack⟩

/-- In a session a run that fails because `n` is already defined began with `n` among the
globals.  What fails is a declaration of `n` at the top of a text, in the globals. -/
theorem redefined_before (h : Running limit now texts s₀ t m) :
    (∀ e n, m.control = .unwind (.failure e) → e.fault = .alreadyDefined n →
      s₀.binds State.globals n = true) ∧
    ∀ e n, (∀ signal, m.control ≠ .unwind signal) →
      m.step.control = .unwind (.failure e) → e.fault = .alreadyDefined n →
        ∃ x i r c st, m.due = some (State.globals, x) ∧ x.lexeme = n ∧
          t.declaring m = [i, r] ∧ visitAt texts [i, r] = some ⟨c, .stmt st⟩ ∧
          st.declares = some x ∧ s₀.binds State.globals n = true := by
  have hmoment := h.moment
  have hsound := hmoment.sound
  refine ⟨h.clear.fault, fun e n hrunning hstep he => ?_⟩
  obtain ⟨env, x, hdue, hx, rfl, hbefore⟩ := h.clear.raises hsound.accepted hsound.read
    hsound.coherent hmoment.stacked hrunning hstep he
  obtain ⟨c, st, hv, hst, hsites⟩ := hsound.coherent.declares hdue
  have houtermost : c.sites = [.program] :=
    Option.some.inj (hsites.symm.trans hsound.coherent.store.outermost)
  obtain ⟨i, r, hplace⟩ := place_of_declares hsound.read hv hst houtermost
  exact ⟨x, i, r, c, st, hdue, hx, hplace, hplace ▸ hv, hst, hbefore⟩

/-! ### The name of a native function -/

/-- The program of `var clock;`. -/
def clockDeclared : List Stmt := [.varDecl (nameAt "clock" 5) none]

theorem read_clockDeclared : (read "var clock;").2 = .ok clockDeclared := by
  with_unfolding_all rfl

/-- `clock` is there before anything has run. -/
theorem redefined_before_clock :
    ∃ s₀ t m e, Running none 0 [clockDeclared] s₀ t m ∧
      m.step.control = .unwind (.failure e) ∧ e.fault = .alreadyDefined "clock" ∧
      t.declaring m = [0, 0] ∧ s₀.binds State.globals "clock" = true := by
  obtain ⟨events, hstart⟩ := start_of_accepted read_clockDeclared rfl (.initial none 0)
  rw [State.foldl_note] at hstart
  have hfirst : Running none 0 [clockDeclared] _ _ _ := .start .first rfl read_clockDeclared hstart
  have hrunning := hfirst.move
  obtain ⟨x, i, r, c, st, -, -, -, -, -, hbefore⟩ :=
    (redefined_before hrunning).2 _ "clock" (fun _ he => nomatch he) rfl rfl
  exact ⟨_, _, _, _, hrunning, rfl, rfl, rfl, hbefore⟩

end Session

end Lox
