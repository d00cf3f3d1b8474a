/-
# What `this` stands for

A method is bound to an instance in three ways: as a property of the instance, by
`super`, and by a call of the class, for the initializer.  `Binds` says that a machine is
about to do so.  The instance goes into an environment that is made for this alone, and
since no program can write `this` as a name, it stays there: `receiver_kept`.  The result
of an initializer is taken from that environment, whatever the body has done:
`initializer_yields`.  What a call of a class yields follows: `construct_yields`.
-/
import Lox.Proofs.Calls
import Lox.Proofs.Held
import Lox.Proofs.Super

namespace Lox

/-- The declaration of the class that has the method. -/
def Trail.classOf (t : Trail) (k : Closure) : Place := (t.codeOf k).tail

namespace Machine

/-- The machine is about to bind the method `k` to the instance `i`, which makes `f`. -/
inductive Binds : Machine → Closure → Instance → Closure → Prop
  | get {i : Instance} {k : Closure} {name : Token} {stack : List Frame} {s : State} :
      s.store.property? i name.lexeme = some (.method k) →
      Binds ⟨.value (.instance i), .get name :: stack, s⟩ k i (s.store.bindMethod k i).1
  | super {keyword method : Token} {depth : Option Nat} {env : EnvironmentId}
      {stack : List Frame} {s : State} {k : Closure} {i : Instance} :
      superMethod s.store keyword method depth env = .ok (k, i) →
      Binds ⟨.evaluate (.superMethod keyword method depth) env, stack, s⟩ k i
        (s.store.bindMethod k i).1
  | call {m : Machine} {c : Class} {arguments : List Value} {paren : Token}
      {stack : List Frame} {k : Closure} :
      m.Calls (.class c) arguments paren stack →
      c.findMethod? FunctionDecl.initializerName = some k →
      Binds m k (m.state.store.newInstance c).1
        ((m.state.store.newInstance c).2.bindMethod k (m.state.store.newInstance c).1).1

variable {m : Machine} {k f : Closure} {i : Instance}

theorem Calls.of_callee {c : Callable} {paren : Token} {env : EnvironmentId}
    {stack : List Frame} (hcontrol : m.control = .value (.callable c))
    (hstack : m.stack = .callee paren [] env :: stack) (harity : c.arity = 0)
    (hdepth : m.state.callDepth < maxCallDepth) : m.Calls c [] paren stack := by
  obtain ⟨control, frames, s⟩ := m
  cases hcontrol
  cases hstack
  exact .alone harity hdepth

theorem Binds.of_get {name : Token} {stack : List Frame}
    (hcontrol : m.control = .value (.instance i)) (hstack : m.stack = .get name :: stack)
    (hproperty : m.state.store.property? i name.lexeme = some (.method k)) :
    m.Binds k i (m.state.store.bindMethod k i).1 := by
  obtain ⟨control, frames, s⟩ := m
  cases hcontrol
  cases hstack
  exact .get hproperty

/-- The trail of a call. -/
theorem Calls.trail {c : Callable} {arguments : List Value} {paren : Token} {stack : List Frame}
    (h : m.Calls c arguments paren stack) (t : Trail) :
    t.step m = (t.pop.push t.pop.here).invoke c arguments m.state.store := by
  cases h with
  | alone harity hdepth =>
      show t.pop.apply (.callable _) [] _ = _
      simp only [Trail.apply, List.length_nil, harity, ne_eq, not_true_eq_false, if_false,
        Nat.not_le_of_lt hdepth]
  | @last _ v earlier _ _ _ _ harity hdepth =>
      show t.pop.apply (.callable _) (v :: earlier).reverse _ = _
      simp only [Trail.apply, List.length_reverse, harity, ne_eq, not_true_eq_false, if_false,
        Nat.not_le_of_lt hdepth]

/-- The state in which the initializer of a new instance is entered. -/
def bound (m : Machine) (c : Class) (arguments : List Value) (k : Closure) : State :=
  { (deeper m.state).note (.called (.class c) arguments.length) with
    store := ((m.state.store.newInstance c).2.bindMethod k (m.state.store.newInstance c).1).2 }

/-- The call of a class with an initializer is a call of the initializer. -/
theorem Calls.enters {c : Class} {arguments : List Value} {paren : Token} {stack : List Frame}
    (h : m.Calls (.class c) arguments paren stack)
    (hk : c.findMethod? FunctionDecl.initializerName = some k) :
    m.step = enter ((m.state.store.newInstance c).2.bindMethod k (m.state.store.newInstance c).1).1
      arguments (.constructed (m.state.store.newInstance c).1 :: .activeCall paren :: stack)
      (m.bound c arguments k) := by
  rw [h.step]
  show construct c arguments (.activeCall paren :: stack) _ = _
  unfold construct
  rw [hk]
  rfl

/-- What a call adds stands further inside. -/
theorem bound_enter {s : State} (h : Session.Bound s.store k i f)
    (hlt : f.environment < s.store.environments.size) (g : Closure) (arguments : List Value)
    (stack : List Frame) : Session.Bound (enter g arguments stack s).state.store k i f :=
  have hkept : Store.Kept (fun _ _ => True) (fun _ _ => True) s.store
      (enter g arguments stack s).state.store := kept_enter stack s g arguments
  ⟨h.declaration, h.isInitializer, (hkept.links _ hlt).trans h.enclosing,
    hkept.names h.receiver⟩

theorem method_of_property {s : Store} {name : String}
    (h : s.property? i name = some (.method k)) : i.ofClass.findMethod? name = some k := by
  unfold Store.property? at h
  split at h
  · cases h
  · obtain ⟨k', hk, heq⟩ := Option.map_eq_some_iff.mp h
    cases heq
    exact hk

/-- A class that is called is regular. -/
theorem Regular.of_calls {n : Nat} {c : Class} {arguments : List Value} {paren : Token}
    {stack : List Frame} (h : m.Regular n) (hcall : m.Calls (.class c) arguments paren stack) :
    c.Regular := by
  obtain ⟨hcontrol, hstack, -⟩ := h
  cases hcall with
  | alone => exact hcontrol
  | last => exact (hstack _ List.mem_cons_self).1

/-- The call of a class makes one instance. -/
theorem Calls.made {c : Class} {arguments : List Value} {paren : Token} {stack : List Frame}
    (h : m.Calls (.class c) arguments paren stack) :
    m.step.state.store.fields.size = m.state.store.fields.size + 1 := by
  have hmore : (m.state.store.newInstance c).2.fields.size = m.state.store.fields.size + 1 :=
    Array.size_push []
  cases hk : c.findMethod? FunctionDecl.initializerName with
  | some k =>
      rw [h.enters hk]
      exact (congrArg Array.size (fields_enter ..)).trans hmore
  | none =>
      have hstep : m.step = construct c arguments (.activeCall paren :: stack) _ := h.step
      unfold construct at hstep
      rw [hk] at hstep
      rw [hstep]
      exact hmore

/-- The method is bound in an environment of its own. -/
theorem Binds.bound (h : m.Binds k i f) : Session.Bound m.step.state.store k i f := by
  cases h with
  | get hproperty =>
      simp only [step, resume, Store.get, hproperty]
      exact Session.bound_bindMethod ..
  | super hfound =>
      simp only [step, evaluate, hfound]
      exact Session.bound_bindMethod ..
  | call hcall hk =>
      rw [hcall.enters hk]
      exact bound_enter (Session.bound_bindMethod ..)
        (Nat.lt_of_lt_of_eq (Nat.lt_succ_self _) (Store.size_newEnvironment ..).symm) ..

/-- That environment was made for the receiver of a method of the class. -/
theorem Binds.origin {texts : List (List Stmt)} {t : Trail} (hs : StoreOk texts t m.state.store)
    (h : m.Binds k i f) :
    (t.step m).origins[f.environment]? = some (.receiver (t.classOf k)) := by
  have hlast : (t.origins ++ [Site.receiver (t.classOf k)])[m.state.store.environments.size]? =
      some (.receiver (t.classOf k)) := by
    rw [← hs.origins]
    exact List.getElem?_concat_length
  cases h with
  | get hproperty =>
      simp only [Trail.step, Trail.resume, hproperty]
      exact hlast
  | super hfound =>
      simp only [Trail.step, Trail.evaluate, hfound]
      exact hlast
  | @call _ c arguments paren stack k hcall hk =>
      rw [hcall.trail]
      simp only [Trail.invoke, Trail.construct, hk]
      exact Trail.getElem?_of_prefix (Trail.extends_enter ..).origins hlast

/-- An initializer yields the instance that it is bound to. -/
theorem result_of_receiver {s : Store} {u : Value} (hf : f.isInitializer = true)
    (hi : s.getLocal? f.environment Store.receiverName = some (.instance i)) :
    result f u s = .ok (.instance i) := by
  unfold result
  rw [if_pos hf]
  exact Store.accessAt_eq_ok.mpr ⟨f.environment, rfl, hi⟩

end Machine

namespace Session

variable {limit : Option Nat} {now : ClockReading} {texts texts' : List (List Stmt)} {t t' : Trail}
  {m m' : Machine} {k f : Closure} {i : Instance}

/-- The instance is still there when `this` is looked at inside of the method, outside of the
methods of another class. -/
theorem receiver_kept (h : Moment limit now texts t m) (hbinds : m.Binds k i f)
    (ha : After texts (t.step m) m.step texts' t' m') {keyword : Token} {depth : Option Nat}
    {env : EnvironmentId} (hm : m'.control = .evaluate (.receiver keyword depth) env)
    (henv : f.environment ∈ m'.state.store.chain env)
    (hq : enclosingClass? texts' t'.here = some (t.classOf k)) :
    m'.step.control = .value (.instance i) := by
  have h' := h.move.after ha
  have hsound := h'.sound
  obtain ⟨c, e, hv, hexpr, hstep⟩ := h'.expr_inStep hm
  obtain ⟨old, rfl⟩ := Context.receiver_of_expr hexpr
  have hname : keyword.lexeme = Store.receiverName := by
    have hworded : WordedExpr (.receiver keyword old) := visitAt_worded hsound.read hv
    cases hworded with
    | receiver hname => exact hname
  -- the environment stands where the scope for the `this` of the class does
  obtain ⟨d, hd⟩ := List.mem_iff_getElem?.mp henv
  have horigin : t'.origins[f.environment]? = some (.receiver (t.classOf k)) :=
    Trail.getElem?_of_prefix ha.extends.origins (hbinds.origin h.coherent.store)
  have hsite : c.sites[d]? = some (.receiver (t.classOf k)) := (hstep.origin hd).symm.trans horigin
  have hnearest := nearest_of_receiver hv hq hsite
  rcases receiver_placed hsound.accepted hsound.read hv with ⟨d', hd', hnearest'⟩ | ⟨-, hnone, -⟩
  · cases hnearest'.unique hnearest
    cases hexpr.symm.trans hd'
    have hancestor : m'.state.store.ancestor? env d = some f.environment :=
      (Store.ancestor?_eq_getElem? hsound.coherent.store.linked env d).trans hd
    have hi := ha.word h.move reserved_receiverName hbinds.bound.receiver
    have hfound : Machine.lookUp m'.state.store keyword (some d) env = .ok (.instance i) :=
      Store.accessAt_eq_ok.mpr ⟨f.environment, hancestor, hname ▸ hi⟩
    rw [Machine.step_receiver hm, hfound]
    rfl
  · exact absurd (List.mem_of_getElem? hsite) (hnone _)

/-- An initializer that is entered yields the instance that it is bound to. -/
theorem Moment.yields_initializer {arguments : List Value} {base : List Frame} {s : State}
    (h : Moment limit now texts t (Machine.enter f arguments base s))
    (hinit : f.isInitializer = true)
    (hi : (Machine.enter f arguments base s).state.store.getLocal? f.environment
      Store.receiverName = some (.instance i)) :
    (Machine.enter f arguments base s).Yields base (.instance i) := by
  refine h.yields_of_enter ?_
  intro texts' t' m' hlater u u' hu
  rw [Machine.result_of_receiver hinit (hlater.word h reserved_receiverName hi)] at hu
  exact (Except.ok.inj hu).symm

/-- So does every call of an initializer, at whatever later moment. -/
theorem initializer_yields (h : Moment limit now texts t m) (hbinds : m.Binds k i f)
    (hinit : f.isInitializer = true) (ha : After texts (t.step m) m.step texts' t' m')
    {arguments : List Value} {paren : Token} {stack : List Frame}
    (hcall : m'.Calls (.function f) arguments paren stack) : m'.Yields stack (.instance i) := by
  have h' := h.move.after ha
  have hi := (ha.trans (After.move .refl)).word h.move reserved_receiverName hbinds.bound.receiver
  have hstep : m'.step = Machine.enter f arguments (.activeCall paren :: stack) _ := hcall.step
  have hyields : m'.step.Yields (.activeCall paren :: stack) (.instance i) := by
    have hmove := h'.move
    rw [hstep] at hmove hi ⊢
    exact hmove.yields_initializer hinit hi
  obtain ⟨frame, hstack⟩ := hcall.waiting
  exact hyields.activeCall.of_step hstack

/-- The method that a machine is about to bind is an initializer if it has the name of one. -/
theorem isInitializer_of_binds (h : Moment limit now texts t m) (hbinds : m.Binds k i f) :
    f.isInitializer = k.declaration.isInitializer := by
  have hregular := h.regular
  refine hbinds.bound.isInitializer.trans ?_
  cases hbinds with
  | get hproperty =>
      have hclass : i.ofClass.Regular := hregular.control.2
      exact (hclass _ k (Machine.method_of_property hproperty)).2
  | super hfound =>
      obtain ⟨d, u, -, hu, -, hk⟩ := Machine.superMethod_eq_ok hfound
      have hclass : u.Regular := hregular.store.only.accessAt hu
      exact (hclass _ k hk).2
  | call hcall hk => exact (hregular.of_calls hcall _ k hk).2

/-- What a call of a class does: it makes an instance and has the initializer that the class
has or inherits, if any, run on it with the arguments.  What is left on the stack then only
hands on the instance, so that this is all that the call itself calls. -/
structure Constructs (m : Machine) (c : Class) (arguments : List Value) (paren : Token)
    (stack : List Frame) (i : Instance) : Prop where
  ofClass : i.ofClass = c
  fresh : m.Holds fun v => ∀ j, v = .instance j → j.id < i.id
  yields : m.Yields stack (.instance i)
  initialized : ∀ k, c.findMethod? FunctionDecl.initializerName = some k →
    ∃ f s, m.Binds k i f ∧
      m.step = Machine.enter f arguments (.constructed i :: .activeCall paren :: stack) s ∧
      m.step.Yields (.constructed i :: .activeCall paren :: stack) (.instance i)
  plain : c.findMethod? FunctionDecl.initializerName = none →
    m.step.control = .value (.instance i) ∧ m.step.stack = .activeCall paren :: stack

theorem constructs (h : Moment limit now texts t m) {c : Class} {arguments : List Value}
    {paren : Token} {stack : List Frame} (hcall : m.Calls (.class c) arguments paren stack) :
    Constructs m c arguments paren stack (m.state.store.newInstance c).1 := by
  generalize hi : (m.state.store.newInstance c).1 = i
  have hinitialized : ∀ k, c.findMethod? FunctionDecl.initializerName = some k →
      ∃ f s, m.Binds k i f ∧
        m.step = Machine.enter f arguments (.constructed i :: .activeCall paren :: stack) s ∧
        m.step.Yields (.constructed i :: .activeCall paren :: stack) (.instance i) := by
    intro k hk
    subst hi
    have hbinds := Machine.Binds.call hcall hk
    have hstep := hcall.enters hk
    have hinit : (((m.state.store.newInstance c).2.bindMethod k
        (m.state.store.newInstance c).1).1).isInitializer = true := by
      obtain ⟨hname, hflag⟩ := h.regular.of_calls hcall _ k hk
      exact hflag.trans (beq_iff_eq.mpr hname)
    refine ⟨_, _, hbinds, hstep, ?_⟩
    have hmove := h.move
    have hreceiver := hbinds.bound.receiver
    rw [hstep] at hmove hreceiver ⊢
    exact hmove.yields_initializer hinit hreceiver
  have hplain : c.findMethod? FunctionDecl.initializerName = none →
      m.step.control = .value (.instance i) ∧ m.step.stack = .activeCall paren :: stack := by
    intro hnone
    have hstep : m.step = Machine.construct c arguments (.activeCall paren :: stack) _ := hcall.step
    unfold Machine.construct at hstep
    rw [hnone] at hstep
    subst hi
    exact ⟨congrArg Machine.control hstep, congrArg Machine.stack hstep⟩
  have hcalled : m.step.Yields (.activeCall paren :: stack) (.instance i) := by
    cases hk : c.findMethod? FunctionDecl.initializerName with
    | none => exact Machine.yields_of_stack (hplain hk).2 (.inl (hplain hk).1)
    | some k =>
        obtain ⟨f, s, -, -, hyields⟩ := hinitialized k hk
        exact hyields.constructed
  obtain ⟨frame, hstack⟩ := hcall.waiting
  exact ⟨hi ▸ rfl, hi ▸ h.regular.holds, hcalled.activeCall.of_step hstack, hinitialized, hplain⟩

/-- A bound method keeps its receiver, whoever calls it and however late: `this` inside of it
denotes the instance, and an initializer yields the instance.  A call of a class yields a new
instance of the class, for which it has called the nearest initializer once. -/
theorem bound_method_keeps_receiver (h : Moment limit now texts t m) :
    (∀ k i f, m.Binds k i f →
      ∀ texts' t' m', After texts (t.step m) m.step texts' t' m' →
        (∀ keyword depth env, m'.control = .evaluate (.receiver keyword depth) env →
          f.environment ∈ m'.state.store.chain env →
          enclosingClass? texts' t'.here = some (t.classOf k) →
          m'.step.control = .value (.instance i)) ∧
        (k.declaration.isInitializer = true → ∀ arguments paren stack,
          m'.Calls (.function f) arguments paren stack → m'.Yields stack (.instance i))) ∧
    ∀ c arguments paren stack, m.Calls (.class c) arguments paren stack →
      Constructs m c arguments paren stack (m.state.store.newInstance c).1 ∧
      ∀ texts' t' m', After texts (t.step m) m.step texts' t' m' →
        ∀ c' arguments' paren' stack', m'.Calls (.class c') arguments' paren' stack' →
          (m.state.store.newInstance c).1.id ≠ (m'.state.store.newInstance c').1.id := by
  refine ⟨fun k i f hbinds texts' t' m' ha => ⟨?_, ?_⟩, ?_⟩
  · intro keyword depth env hm henv hq
    exact receiver_kept h hbinds ha hm henv hq
  · intro hinit arguments paren stack hcall
    exact initializer_yields h hbinds ((isInitializer_of_binds h hbinds).trans hinit) ha hcall
  · intro c arguments paren stack hcall
    refine ⟨constructs h hcall, ?_⟩
    intro texts' t' m' ha c' arguments' paren' stack' _
    -- the later one is made behind all that the store has by then
    have hmade : m.step.state.store.fields.size = m.state.store.fields.size + 1 := hcall.made
    have hlater : m.step.state.store.fields.size ≤ m'.state.store.fields.size :=
      ha.instances h.move
    show m.state.store.fields.size ≠ m'.state.store.fields.size
    omega

/-! ### One text -/

/-- The `this` of the class below. -/
def selfOfA : Token := ⟨.kwThis, "this", ⟨1, 20⟩⟩

/-- The initializer of the class below, before its names are resolved. -/
def initDecl (depth : Option Nat) : FunctionDecl :=
  .mk (nameAt "init" 11) (some (nameAt "init" 11)) [] [.expression (.receiver selfOfA depth)]

/-- A closing parenthesis in the first line. -/
def parenAt (column : Nat) : Token := ⟨.rightParen, ")", ⟨1, column⟩⟩

/-- A program that makes an instance and then calls the initializer of it. -/
def initialized : List Stmt :=
  [.classDecl (nameAt "A" 7) none [initDecl none],
   .expression (.call (.get (.call (.variable (nameAt "A" 30) none) (parenAt 32) [])
     (nameAt "init" 34)) (parenAt 39) [])]

theorem read_initialized :
    (read "class A { init() { this; } } A().init();").2 = .ok initialized := by
  with_unfolding_all rfl

/-- The machine that is about to run this program. -/
def startInitialized : Machine :=
  State.starting (Resolve.program initialized).1 (.initial none 0)

/-- The method and the class that the program declares, and its instance. -/
def initOfA : Closure := ⟨0, initDecl (some 1), 0, true⟩

def classA : Class := .mk 1 (nameAt "A" 7) none [("init", initOfA)]

def instanceOfA : Instance := ⟨0, classA⟩

/-- What waits for the instance. -/
def waitingForA : List Frame :=
  [.get (nameAt "init" 34), .callee (parenAt 39) [] 0, .discard, .sequence [] 0]

/-- The initializer of the instance, bound to it. -/
def boundInitOfA : Closure := ⟨3, initDecl (some 1), 3, true⟩

theorem calls_classA :
    (Machine.run 8 startInitialized).Calls (.class classA) [] (parenAt 32) waitingForA := by
  have hcontrol : (Machine.run 8 startInitialized).control =
      .value (.callable (.class classA)) := rfl
  have hstack : (Machine.run 8 startInitialized).stack =
      .callee (parenAt 32) [] 0 :: waitingForA := rfl
  have hdepth : (Machine.run 8 startInitialized).state.callDepth = 0 := by decide +kernel
  exact .of_callee hcontrol hstack rfl (hdepth ▸ by decide)

theorem instance_classA :
    ((Machine.run 8 startInitialized).state.store.newInstance classA).1 = instanceOfA :=
  rfl

theorem binds_initOfA :
    (Machine.run 17 startInitialized).Binds initOfA instanceOfA boundInitOfA := by
  have hcontrol : (Machine.run 17 startInitialized).control =
      .value (.instance instanceOfA) := rfl
  have hstack : (Machine.run 17 startInitialized).stack = waitingForA := rfl
  have hproperty : (Machine.run 17 startInitialized).state.store.property? instanceOfA
      (nameAt "init" 34).lexeme = some (.method initOfA) := rfl
  have hbound : ((Machine.run 17 startInitialized).state.store.bindMethod initOfA
      instanceOfA).1 = boundInitOfA := rfl
  exact hbound ▸ .of_get hcontrol hstack hproperty

theorem calls_boundInitOfA :
    (Machine.run 17 startInitialized).step.Calls (.function boundInitOfA) []
      (parenAt 39) [.discard, .sequence [] 0] := by
  have hcontrol : (Machine.run 17 startInitialized).step.control =
      .value (.callable (.function boundInitOfA)) := rfl
  have hstack : (Machine.run 17 startInitialized).step.stack =
      [.callee (parenAt 39) [] 0, .discard, .sequence [] 0] := rfl
  have hdepth : (Machine.run 17 startInitialized).step.state.callDepth = 0 := by
    decide +kernel
  exact .of_callee hcontrol hstack rfl (hdepth ▸ by decide)

/-- The move at which the initializer, in its second call, looks at `this`. -/
theorem control_initialized :
    (Machine.run 3 (Machine.run 17 startInitialized).step).control =
      .evaluate (.receiver selfOfA (some 1)) 4 :=
  rfl

theorem chain_initialized :
    (Machine.run 3 (Machine.run 17 startInitialized).step).state.store.chain 4 = [4, 3, 0] := by
  decide +kernel

theorem enclosingClass_initialized :
    enclosingClass? [initialized]
        ((((Trail.initial.starting 0).run 17 startInitialized).step
          (Machine.run 17 startInitialized)).run 3
            (Machine.run 17 startInitialized).step).here =
      some (((Trail.initial.starting 0).run 17 startInitialized).classOf initOfA) := by
  decide +kernel

/-- The class yields its instance, and so does the second call of the initializer, in which
`this` is that instance. -/
theorem bound_method_keeps_receiver_initialized :
    ∃ t m t' m', Moment none 0 [initialized] t m ∧ Moment none 0 [initialized] t' m' ∧
      Constructs m classA [] (parenAt 32) waitingForA instanceOfA ∧
      m'.Binds initOfA instanceOfA boundInitOfA ∧
      m'.step.Yields [.discard, .sequence [] 0] (.instance instanceOfA) ∧
      (Machine.run 3 m'.step).control = .evaluate (.receiver selfOfA (some 1)) 4 ∧
      (Machine.run 3 m'.step).step.control = .value (.instance instanceOfA) := by
  have hfirst : Moment none 0 [initialized] (Trail.initial.starting 0) startInitialized :=
    Moment.first.next_of_accepted rfl read_initialized rfl
  have hcalling := hfirst.after (.run _ _ _ 8)
  have hbinding := hfirst.after (.run _ _ _ 17)
  obtain ⟨hconstructs, -⟩ := (bound_method_keeps_receiver hcalling).2 _ _ _ _ calls_classA
  have hkeeps := (bound_method_keeps_receiver hbinding).1 _ _ _ binds_initOfA
  have hyields := (hkeeps _ _ _ .refl).2 rfl _ _ _ calls_boundInitOfA
  have hthis := (hkeeps _ _ _ (.run _ _ _ 3)).1 _ _ _ control_initialized
    (chain_initialized ▸ List.mem_cons_of_mem _ List.mem_cons_self)
    enclosingClass_initialized
  exact ⟨_, _, _, _, hcalling, hbinding, instance_classA ▸ hconstructs, binds_initOfA, hyields,
    control_initialized, hthis⟩

end Session

end Lox
