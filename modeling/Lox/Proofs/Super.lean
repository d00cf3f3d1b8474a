/-
# Where `super` leads

The methods of a class with a superclass are made in an environment that holds the
superclass, and that environment is made once, when the class is declared:
`Moment.superclass_made`.  What a `super` in these methods stands for is settled then,
whatever the class of the instance that the method was called on.  The instance comes
from the environment right inside of it, in which the method was bound: it is the one
that `this` denotes there.  So much says `super_dispatch`.
-/
import Lox.Proofs.After
import Lox.Proofs.Enclosing
import Lox.Proofs.Placement
import Lox.Proofs.Reached

namespace Lox

/-! ## What environments are made for -/

namespace Trail

/-- Environments are made for constructs with the property `P` only. -/
def Makes (P : Site → Prop) (t t' : Trail) : Prop :=
  ∃ sites, t'.origins = t.origins ++ sites ∧ ∀ s ∈ sites, P s

variable {P : Site → Prop} {t t' t'' : Trail}

theorem Makes.of_eq (h : t'.origins = t.origins) : Makes P t t' :=
  ⟨[], by rw [h, List.append_nil], List.forall_mem_nil P⟩

theorem Makes.trans (h : Makes P t t') (h' : Makes P t' t'') : Makes P t t'' := by
  obtain ⟨sites, ho, hs⟩ := h
  obtain ⟨sites', ho', hs'⟩ := h'
  exact ⟨sites ++ sites', by rw [ho', ho, List.append_assoc],
    List.forall_mem_append.mpr ⟨hs, hs'⟩⟩

theorem makes_make {site : Site} (h : P site) (t : Trail) : Makes P t (t.make site) :=
  ⟨[site], rfl, List.forall_mem_singleton.mpr h⟩

/-- What is there later and was not there before has the property. -/
theorem Makes.of_getElem? (h : Makes P t t') {e : EnvironmentId} {s : Site}
    (hs : t'.origins[e]? = some s) : t.origins[e]? = some s ∨ P s := by
  obtain ⟨sites, ho, hP⟩ := h
  rw [ho] at hs
  rcases Nat.lt_or_ge e t.origins.length with hlt | hge
  · rw [List.getElem?_append_left hlt] at hs
    exact .inl hs
  · rw [List.getElem?_append_right hge] at hs
    exact .inr (hP s (List.mem_of_getElem? hs))

/-- The construct is no superclass. -/
def Other (s : Site) : Prop := ∀ q, s ≠ .superclass q

theorem makes_bind (t : Trail) (m : Closure) : Makes Other t (t.bind m) := by
  have hmake : Makes Other t (t.make (.receiver (t.codeOf m).tail)) :=
    makes_make (fun _ h => by cases h) t
  exact hmake.trans (.of_eq rfl)

theorem makes_enter (f : Closure) (arguments : List Value) (s : Store) (t : Trail) :
    Makes Other t (t.enter f arguments s) := by
  have hmake : Makes Other t (t.make (.call (t.codeOf f))) :=
    makes_make (fun _ h => by cases h) t
  unfold enter
  dsimp only
  split
  · exact hmake.trans (.of_eq rfl)
  · exact hmake

theorem makes_invoke (c : Callable) (arguments : List Value) (s : Store) (t : Trail) :
    Makes Other t (t.invoke c arguments s) := by
  cases c with
  | function f => exact makes_enter f arguments s t
  | native n => exact .of_eq rfl
  | «class» c =>
      unfold invoke construct
      dsimp only
      split
      · rename_i init _
        have hpush : Makes Other (t.bind init) ((t.bind init).push t.here) := .of_eq rfl
        exact ((makes_bind t init).trans hpush).trans (makes_enter ..)
      · exact .of_eq rfl

theorem makes_applyNext (callee : Value) (earlier : List Value) (later : List Expr) (s : State)
    (t : Trail) : Makes Other t (t.applyNext callee earlier later s) := by
  cases later with
  | cons e es => exact .of_eq rfl
  | nil =>
      unfold applyNext apply
      dsimp only
      split
      · split
        · exact .of_eq rfl
        · split
          · exact .of_eq rfl
          · have hpush : Makes Other t (t.push t.here) := .of_eq rfl
            exact hpush.trans (makes_invoke ..)
      · exact .of_eq rfl

theorem makes_arrayNext (later : List Expr) (t : Trail) : Makes Other t (t.arrayNext later) := by
  cases later <;> exact .of_eq rfl

theorem makes_evaluate (e : Expr) (env : EnvironmentId) (s : State) (t : Trail) :
    Makes Other t (t.evaluate e env s) := by
  cases e with
  | array bracket size es =>
      cases size with
      | none => exact makes_arrayNext ..
      | some => exact .of_eq rfl
  | superMethod =>
      simp only [evaluate]
      split
      · exact makes_bind ..
      · exact .of_eq rfl
  | function d =>
      simp only [evaluate, lambda]
      split
      · have hmake : Makes Other t (t.make (.selfName t.here)) :=
          makes_make (fun _ h => by cases h) t
        exact hmake.trans (.of_eq rfl)
      · exact .of_eq rfl
  | _ => exact .of_eq rfl

theorem origins_makeMethods (ms : List FunctionDecl) (t : Trail) :
    (makeMethods ms t).origins = t.origins := by
  induction ms generalizing t with
  | nil => rfl
  | cons d ds ih =>
      unfold makeMethods
      split
      · exact ih _
      · exact ih t

theorem makes_execute (st : Stmt) (t : Trail) : Makes Other t (t.execute st) := by
  cases st with
  | block =>
      have hmake : Makes Other t (t.make (.block t.here)) :=
        makes_make (fun _ h => by cases h) t
      exact hmake.trans (.of_eq rfl)
  | classDecl name e ms =>
      cases e with
      | none => exact .of_eq (origins_makeMethods ms t)
      | some => exact .of_eq rfl
  | moduleDecl =>
      have hmake : Makes Other t (t.make (.members t.here)) :=
        makes_make (fun _ h => by cases h) t
      exact hmake.trans (.of_eq rfl)
  | varDecl name e | returnWith keyword e => cases e <;> exact .of_eq rfl
  | _ => exact .of_eq rfl

theorem makes_loopNext (step : Option Expr) (t : Trail) : Makes Other t (t.loopNext step) := by
  cases step <;> exact .of_eq rfl

/-- Of the frames only that of a superclass makes an environment for one. -/
theorem makes_resume (v : Value) (frame : Frame) (s : State) (t : Trail)
    (hframe : ∀ name site ms env, frame ≠ .superclass name site ms env) :
    Makes Other t (t.resume v frame s) := by
  cases frame with
  | superclass name site ms env => exact absurd rfl (hframe name site ms env)
  | callee | argument => exact makes_applyNext ..
  | arrayElement => exact makes_arrayNext ..
  | get name =>
      unfold resume
      dsimp only
      split
      · split
        · exact makes_bind ..
        · exact .of_eq rfl
      · exact .of_eq rfl
  | arraySize =>
      unfold resume
      dsimp only
      split
      · exact makes_arrayNext ..
      · exact .of_eq rfl
  | logical | setObject | indexObject | setIndexObject | setIndexAt | loopTest =>
      simp only [resume]
      split <;> exact .of_eq rfl
  | branch =>
      simp only [resume]
      split
      · exact .of_eq rfl
      · split <;> exact .of_eq rfl
  | _ => exact .of_eq rfl

theorem makes_proceed (frame : Frame) (t : Trail) : Makes Other t (t.proceed frame) := by
  cases frame with
  | sequence later => cases later <;> exact .of_eq rfl
  | loopBody => exact makes_loopNext ..
  | _ => exact .of_eq rfl

theorem makes_unwind (signal : Signal) (frame : Frame) (t : Trail) :
    Makes Other t (t.unwind signal frame) := by
  unfold unwind
  split
  · exact makes_loopNext ..
  · exact .of_eq rfl

end Trail

/-! ## Classes that are declared with a superclass -/

/-- The machine has the value of a superclass, the class `u`, and is about to make the class
that is declared at `q`. -/
structure Extending (t : Trail) (m : Machine) (q : Place) (u : Class) : Prop where
  control : m.control = .value (.callable (.class u))
  frame : ∃ name site ms env stack, m.stack = .superclass name site ms env :: stack
  place : t.frames.headD [] = q

/-- Only then an environment is made for a superclass. -/
theorem Trail.superclass_made {t : Trail} {m : Machine} {f : EnvironmentId} {q : Place}
    (h : (t.step m).origins[f]? = some (.superclass q)) :
    t.origins[f]? = some (.superclass q) ∨
      f = t.origins.length ∧ ∃ u, Extending t m q u := by
  obtain ⟨control, stack, s⟩ := m
  have hold : Makes Other t (t.step ⟨control, stack, s⟩) →
      t.origins[f]? = some (.superclass q) := by
    intro hmakes
    exact (hmakes.of_getElem? h).resolve_right fun hother => hother q rfl
  have hpop : Makes Other t t.pop := .of_eq rfl
  cases control with
  | evaluate e env => exact .inl (hold (makes_evaluate e env s t))
  | execute st env => exact .inl (hold (makes_execute st t))
  | done =>
      cases stack with
      | nil => exact .inl h
      | cons frame stack => exact .inl (hold (hpop.trans (makes_proceed frame t.pop)))
  | unwind signal =>
      cases stack with
      | nil => exact .inl h
      | cons frame stack => exact .inl (hold (hpop.trans (makes_unwind signal frame t.pop)))
  | value v =>
      cases stack with
      | nil => exact .inl h
      | cons frame stack =>
          by_cases hframe : ∃ name site ms env, frame = .superclass name site ms env
          · obtain ⟨name, site, ms, env, rfl⟩ := hframe
            by_cases hclass : ∃ u, v = .callable (.class u)
            · obtain ⟨u, rfl⟩ := hclass
              -- the origins are the old ones, and the one of the new environment
              have horigins : (t.step ⟨.value (.callable (.class u)),
                  .superclass name site ms env :: stack, s⟩).origins =
                  t.origins ++ [.superclass (t.frames.headD [])] :=
                origins_makeMethods ms _
              rw [horigins] at h
              rcases Nat.lt_or_ge f t.origins.length with hlt | hge
              · rw [List.getElem?_append_left hlt] at h
                exact .inl h
              · rw [List.getElem?_append_right hge, List.getElem?_singleton] at h
                split at h
                · rename_i hzero
                  cases h
                  have hlast := Nat.le_antisymm (Nat.sub_eq_zero_iff_le.mp hzero) hge
                  exact .inr ⟨hlast, u, rfl, ⟨name, site, ms, env, stack, rfl⟩, rfl⟩
                · cases h
            · refine .inl (hold (.of_eq ?_))
              simp only [step, resume]
              split
              · exact absurd ⟨_, rfl⟩ hclass
              · rfl
          · refine .inl (hold (hpop.trans (makes_resume v frame s t.pop ?_)))
            intro name site ms env heq
            exact hframe ⟨name, site, ms, env, heq⟩

/-- The class that is made has the superclass `u`, and its methods are made in a new
environment, which holds `u`. -/
theorem Extending.made {t : Trail} {m : Machine} {q : Place} {u : Class}
    (h : Extending t m q u) :
    m.step.state.store.getLocal? m.state.store.environments.size Machine.superName =
        some (.callable (.class u)) ∧
      ∃ c, m.step.state.events = .classDefined c :: m.state.events ∧ c.superclass = some u ∧
        ∀ n k, c.methods.get? n = some k → k.environment = m.state.store.environments.size := by
  obtain ⟨control, stack, s⟩ := m
  obtain ⟨hcontrol, ⟨name, site, ms, env, stack, hstack⟩, -⟩ := h
  cases hcontrol
  cases hstack
  have hstep : Machine.step ⟨.value (.callable (.class u)), .superclass name site ms env :: stack,
        s⟩ = Machine.finishClass name (some u) ms env s.store.environments.size
          (s.store.childWith env Machine.superName (.callable (.class u))).2 stack s :=
    Machine.defineClass_some name u ms env stack s
  rw [hstep]
  constructor
  · have hkept : Store.Kept (fun _ _ => True) (fun _ _ => True) _ _ :=
      Machine.kept_finishClass stack s name (some u) ms env s.store.environments.size
        (s.store.childWith env Machine.superName (.callable (.class u))).2 trivial
    refine hkept.names ?_
    exact (Store.getLocal?_newEnvironment s.store _ _ _).trans (if_pos rfl)
  · refine ⟨_, Machine.events_finishClass .., rfl, fun n k hk => ?_⟩
    obtain ⟨-, -, henv, -⟩ := (Machine.get?_makeMethods hk).resolve_left nofun
    exact henv

namespace Session

variable {limit : Option Nat} {now : ClockReading} {texts : List (List Stmt)} {t : Trail}
  {m : Machine}

/-- What was made for a superclass was made for the value that the superclass had when its
class was declared, at an earlier moment. -/
theorem Moment.superclass_made (h : Moment limit now texts t m) {f : EnvironmentId} {q : Place}
    (hf : t.origins[f]? = some (.superclass q)) :
    ∃ texts₀ t₀ m₀ u, Moment limit now texts₀ t₀ m₀ ∧ Extending t₀ m₀ q u ∧
      m₀.state.store.environments.size = f ∧
      After texts₀ (t₀.step m₀) m₀.step texts t m := by
  induction h with
  | first =>
      cases f with
      | zero => cases hf
      | succ f => cases hf
  | @move texts t m hm ih =>
      rcases Trail.superclass_made hf with hold | ⟨hlast, u, hu⟩
      · obtain ⟨texts₀, t₀, m₀, u, hm₀, hu, hsize, hafter⟩ := ih hold
        exact ⟨texts₀, t₀, m₀, u, hm₀, hu, hsize, hafter.move⟩
      · exact ⟨texts, t, m, u, hm, hu, hlast.symm ▸ hm.coherent.store.origins.symm, .refl⟩
  | aside output events clock _ ih =>
      obtain ⟨texts₀, t₀, m₀, u, hm₀, hu, hsize, hafter⟩ := ih hf
      exact ⟨texts₀, t₀, m₀, u, hm₀, hu, hsize, hafter.aside output events clock⟩
  | next _ hhalted hread hstart ih =>
      obtain ⟨texts₀, t₀, m₀, u, hm₀, hu, hsize, hafter⟩ := ih hf
      exact ⟨texts₀, t₀, m₀, u, hm₀, hu, hsize, hafter.next hhalted hread hstart⟩

/-- `f` is the method `k`, bound to the instance `i`. -/
structure Bound (s : Store) (k : Closure) (i : Instance) (f : Closure) : Prop where
  declaration : f.declaration = k.declaration
  isInitializer : f.isInitializer = k.isInitializer
  enclosing : s.enclosing? f.environment = some k.environment
  receiver : s.getLocal? f.environment Store.receiverName = some (.instance i)

theorem bound_bindMethod (s : Store) (k : Closure) (i : Instance) :
    Bound (s.bindMethod k i).2 k i (s.bindMethod k i).1 where
  declaration := rfl
  isInitializer := rfl
  enclosing := (Store.enclosing?_newEnvironment s _ _).trans (if_pos rfl)
  receiver := (Store.getLocal?_newEnvironment s _ _ _).trans (if_pos rfl)

/-- What a `this` at the place of the trail would yield in `env` is the instance `i`. -/
def Denotes (texts : List (List Stmt)) (t : Trail) (m : Machine) (env : EnvironmentId)
    (i : Instance) : Prop :=
  ∀ c node keyword, visitAt texts t.here = some ⟨c, node⟩ →
    keyword.lexeme = Store.receiverName →
    (Machine.evaluate (c.expr (.receiver keyword none)) env m.stack m.state).control =
      .value (.instance i)

/-- A `this` denotes what stands in the environment of the innermost scope for one. -/
theorem denotes_of_nearest {c : Context} {node : Node} {env g : EnvironmentId} {d : Nat}
    {i : Instance} (hv : visitAt texts t.here = some ⟨c, node⟩)
    (hplaced : Placed texts t.here c) (hclass : c.surroundings.inClass = .derived)
    (hd : Nearest .receiver c.sites d) (hg : m.state.store.ancestor? env d = some g)
    (hi : m.state.store.getLocal? g Store.receiverName = some (.instance i)) :
    Denotes texts t m env i := by
  intro c' node' keyword hv' hname
  cases hv.symm.trans hv'
  have hexpr : c.expr (.receiver keyword none) =
      .receiver keyword (c.scopes.refer keyword none false).1 := by
    simp only [Context.expr, Resolve.expr, hclass]
  rcases hplaced.receivers.refer hname false with ⟨d', hd', hnearest⟩ | ⟨-, hnone⟩
  · cases hnearest.unique hd
    have hfound : Machine.lookUp m.state.store keyword (some d) env = .ok (.instance i) :=
      Store.accessAt_eq_ok.mpr ⟨g, hg, hname ▸ hi⟩
    rw [hexpr, hd']
    simp only [Machine.evaluate, hfound, Machine.yield]
  · obtain ⟨⟨q, hq⟩, -⟩ := hd
    exact absurd (List.mem_of_getElem? hq) (hnone q)

/-- Let a `super` with the name `method` be looked at, at any moment of any session, and let
the class around it, one of whose methods it is in, have a superclass.  That class was made
at an earlier moment, when its superclass had the value `u`, and the `super` is inside the
environment in which the methods of that very class were made.  Whatever the class of the
instance that `this` denotes here, the result is the method that `u` has or inherits, bound
to this instance, and if `u` has none it is a failure that says so. -/
theorem super_dispatch (h : Moment limit now texts t m) {keyword method : Token}
    {depth : Option Nat} {env : EnvironmentId} {q : Place}
    (hm : m.control = .evaluate (.superMethod keyword method depth) env)
    (hq : enclosingClass? texts t.here = some q) (hinherits : Inherits texts q) :
    ∃ texts₀ t₀ m₀ u c i,
      Moment limit now texts₀ t₀ m₀ ∧ Extending t₀ m₀ q u ∧
      After texts₀ (t₀.step m₀) m₀.step texts t m ∧
      m₀.step.state.events = .classDefined c :: m₀.state.events ∧ c.superclass = some u ∧
      (∀ n k, c.methods.get? n = some k → k.environment = m₀.state.store.environments.size) ∧
      m₀.state.store.environments.size ∈ m.state.store.chain env ∧
      Denotes texts t m env i ∧
      match u.findMethod? method.lexeme with
      | some k => ∃ f, m.step.control = .value (.callable (.function f)) ∧
          Bound m.step.state.store k i f
      | none => m.step.control =
          .unwind (.failure (.blaming method (.undefinedProperty method.lexeme))) := by
  have hsound := h.sound
  have hlinked := hsound.coherent.store.linked
  obtain ⟨c, e, hv, hexpr, hchain⟩ := h.expr_inStep hm
  obtain ⟨old, rfl⟩ := Context.superMethod_of_expr hexpr
  have hplaced := visitAt_placed hsound.read hv
  obtain ⟨hderived, -⟩ := Context.expr_superMethod_of_errors (visitAt_errors hsound.accepted hv)
  have hready : ExprReady texts m.state.store t.here env := by
    have hcontrol := h.settled.control
    rw [hm] at hcontrol
    exact hcontrol
  have hname : keyword.lexeme = Machine.superName := by
    have hworded : WordedExpr (.superMethod keyword method old) := visitAt_worded hsound.read hv
    cases hworded with
    | superMethod hname => exact hname
  -- the depth leads to the scope of the class, and one less to its `this`
  have hdepth : ∃ d, depth = some d ∧ Nearest .superclass c.sites d := by
    rcases superMethod_placed hsound.accepted hsound.read hv with ⟨d, hd, hnearest⟩ | ⟨-, hnone, -⟩
    · cases hexpr.symm.trans hd
      exact ⟨d, rfl, hnearest⟩
    · have henclosed := visitAt_enclosed hv
      obtain ⟨k, hk, -⟩ := henclosed.innermost q hq
      exact absurd (List.mem_of_getElem? (henclosed.derived k q hk hinherits)) (hnone q)
  obtain ⟨d, rfl, hnearest⟩ := hdepth
  obtain ⟨hsite, -, hreceiver⟩ := superclass_of_nearest hv hq hplaced hinherits hnearest
  obtain ⟨f, u, g, i, hf, hu, hg, hi⟩ := superclass_supplied (hready.ready hv) hplaced
    hsound.read hlinked hchain.length hsite
  -- its environment was made when the class was declared, and has kept the superclass
  have hmem : (m.state.store.chain env)[d]? = some f :=
    (Store.ancestor?_eq_getElem? hlinked env d).symm.trans hf
  have horigin : t.origins[f]? = some (.superclass q) := (hchain.origin hmem).trans hsite
  obtain ⟨texts₀, t₀, m₀, u₀, hm₀, hextending, rfl, hafter⟩ := h.superclass_made horigin
  obtain ⟨hsuper, C, hevents, hsuperclass, hmethods⟩ := hextending.made
  have hkept := hafter.word hm₀.move reserved_superName hsuper
  cases hu.symm.trans hkept
  refine ⟨texts₀, t₀, m₀, u, C, i, hm₀, hextending, hafter, hevents, hsuperclass, hmethods,
    List.mem_of_getElem? hmem, denotes_of_nearest hv hplaced hderived hreceiver hg hi, ?_⟩
  -- what is looked up is looked up in that superclass
  have hclass : m.state.store.accessAt env d keyword = .ok (.callable (.class u)) :=
    Store.accessAt_eq_ok.mpr ⟨_, hf, hname ▸ hu⟩
  have hthis : m.state.store.accessAt env (d - 1) (.implicitAt Store.receiverName keyword) =
      .ok (.instance i) := Store.accessAt_eq_ok.mpr ⟨g, hg, hi⟩
  obtain ⟨control, stack, s⟩ := m
  cases hm
  cases hk : u.findMethod? method.lexeme with
  | some k =>
      have hfound : Machine.superMethod s.store keyword method (some d) env = .ok (k, i) := by
        simp only [Machine.superMethod, Machine.superclassAt, Machine.receiverAt, hclass, hthis, hk]
      refine ⟨(s.store.bindMethod k i).1, ?_, ?_⟩
      · simp only [Machine.step, Machine.evaluate, hfound]
      · simp only [Machine.step, Machine.evaluate, hfound]
        exact bound_bindMethod s.store k i
  | none =>
      have hfails : Machine.superMethod s.store keyword method (some d) env =
          .error (.blaming method (.undefinedProperty method.lexeme)) := by
        simp only [Machine.superMethod, Machine.superclassAt, Machine.receiverAt, hclass, hthis, hk]
      simp only [Machine.step, Machine.evaluate, hfails, Machine.fail]

/-! ### One text -/

/-- The `super` of `class B` below. -/
def superOfB : Token := ⟨.kwSuper, "super", ⟨1, 40⟩⟩

/-- The program of three classes, the last of which inherits a method that uses `super`. -/
def acrossLevels : List Stmt :=
  [.classDecl (nameAt "A" 7) none [.mk (nameAt "m" 11) (some (nameAt "m" 11)) [] []],
   .classDecl (nameAt "B" 26) (some (.variable (nameAt "A" 30) none))
    [.mk (nameAt "m" 34) (some (nameAt "m" 34)) []
      [.expression (.call (.superMethod superOfB (nameAt "m" 46) none)
        ⟨.rightParen, ")", ⟨1, 48⟩⟩ [])]],
   .classDecl (nameAt "C" 61) (some (.variable (nameAt "B" 65) none)) [],
   .expression (.call (.get (.call (.variable (nameAt "C" 70) none)
      ⟨.rightParen, ")", ⟨1, 72⟩⟩ []) (nameAt "m" 74)) ⟨.rightParen, ")", ⟨1, 76⟩⟩ [])]

theorem read_acrossLevels :
    (read "class A { m() {} } class B < A { m() { super.m(); } } class C < B {} C().m();").2 =
      .ok acrossLevels := by
  with_unfolding_all rfl

/-- The machine that is about to run this program. -/
def startAcrossLevels : Machine :=
  State.starting (Resolve.program acrossLevels).1 (.initial none 0)

/-- Where a function was written and the class of the instance it is bound to. -/
def boundName? (m : Machine) : Option (Token × Token) :=
  match m.control with
  | .value (.callable (.function f)) =>
    match m.state.store.getLocal? f.environment Store.receiverName with
    | some (.instance i) => some (f.declaration.keyword, i.ofClass.name)
    | _ => none
  | _ => none

/-- The `super` and the method that a machine is about to look for, and from where. -/
def superMethod? (m : Machine) : Option (Token × Token × Option Nat × EnvironmentId) :=
  match m.control with
  | .evaluate (.superMethod keyword method depth) env => some (keyword, method, depth, env)
  | _ => none

theorem control_acrossLevels :
    (Machine.run 23 startAcrossLevels).control =
      .evaluate (.superMethod superOfB (nameAt "m" 46) (some 2)) 4 := by
  have h : superMethod? (Machine.run 23 startAcrossLevels) =
      some (superOfB, nameAt "m" 46, some 2, 4) := by
    decide +kernel
  unfold superMethod? at h
  split at h
  · rename_i hcontrol
    cases h
    exact hcontrol
  · cases h

theorem boundName_acrossLevels :
    boundName? (Machine.run 23 startAcrossLevels).step = some (nameAt "m" 11, nameAt "C" 61) := by
  decide +kernel

theorem enclosingClass_acrossLevels :
    enclosingClass? [acrossLevels]
      ((Trail.initial.starting 0).run 23 startAcrossLevels).here = some [2, 0] := by
  decide +kernel

/-- For an instance of `C` the `super` in the method that `C` has from `B` finds the method
of `A`, and binds it to this instance. -/
theorem super_dispatch_acrossLevels :
    ∃ t m t₀ m₀, ∃ u : Class, ∃ k i f, Moment none 0 [acrossLevels] t m ∧
      m.control = .evaluate (.superMethod superOfB (nameAt "m" 46) (some 2)) 4 ∧
      Extending t₀ m₀ [2, 0] u ∧ u.findMethod? "m" = some k ∧
      k.declaration.keyword = nameAt "m" 11 ∧
      Denotes [acrossLevels] t m 4 i ∧ i.ofClass.name = nameAt "C" 61 ∧
      m.step.control = .value (.callable (.function f)) ∧ Bound m.step.state.store k i f := by
  have hfirst : Moment none 0 [acrossLevels] (Trail.initial.starting 0) startAcrossLevels :=
    Moment.first.next_of_accepted rfl read_acrossLevels rfl
  have hmoment := hfirst.after (.run _ _ _ 23)
  obtain ⟨-, _, _, u, -, i, -, hextending, -, -, -, -, -, hdenotes, hresult⟩ :=
    super_dispatch hmoment control_acrossLevels enclosingClass_acrossLevels ⟨_, _, _, rfl⟩
  have hname := boundName_acrossLevels
  cases hk : u.findMethod? (nameAt "m" 46).lexeme with
  | none =>
      rw [hk] at hresult
      rw [boundName?, hresult] at hname
      cases hname
  | some k =>
      rw [hk] at hresult
      obtain ⟨f, hf, hbound⟩ := hresult
      rw [boundName?, hf] at hname
      simp only [hbound.receiver, Option.some.injEq, Prod.mk.injEq] at hname
      obtain ⟨hkeyword, hclass⟩ := hname
      exact ⟨_, _, _, _, u, k, i, f, hmoment, control_acrossLevels, hextending, hk,
        hbound.declaration ▸ hkeyword, hdenotes, hclass, hf, hbound⟩

end Session

end Lox
