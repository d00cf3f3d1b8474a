/-
# A move keeps what is ready

One lemma for each function of the machine, in the order of `Lox.Machine`.  What the
machine held before is ready, as the store after the move has it; the lemmas say that
what the function adds is ready too.  `Settled.step` puts them together.

The store `s` is the one that the move leaves.  That it has the names that a move adds
is what the lemmas are about: the parameters of a call, the instance that a method is
bound to, the name of a lambda, and the name of a declaration, which is no longer
excused then.
-/
import Lox.Proofs.Ready

namespace Lox

/-! ## What lasts -/

/-- A name that stands for something else still suits it, if it is plain. -/
theorem Store.lasts_put {s : Store} {e : EnvironmentId} {x : Token} (hx : x.Plain) (v : Value) :
    s.Lasts (s.put e x.lexeme v) := by
  refine ⟨Nat.le_of_eq (size_put ..).symm, fun f _ => enclosing?_put .., ?_⟩
  rintro f n ⟨u, hu, hsuits⟩
  unfold Supplies
  rw [getLocal?_put]
  split
  · rename_i heq
    obtain ⟨-, -, rfl⟩ := heq
    exact ⟨v, rfl, hx.suits v⟩
  · exact ⟨u, hu, hsuits⟩

namespace Store

variable {s s' : Store} {e : EnvironmentId} {name : Token} {v : Value}

theorem binds_put (he : e < s.environments.size) (n : String) : (s.put e n v).binds e n = true := by
  rw [binds, getLocal?_put, if_pos ⟨rfl, he, rfl⟩]
  rfl

theorem binds_define (he : e < s.environments.size) (h : s.define e name v = .ok s') :
    s'.binds e name.lexeme = true := by
  obtain ⟨-, rfl⟩ := define_eq_ok.mp h
  exact binds_put he name.lexeme

theorem binds_defineReadOnly (he : e < s.environments.size)
    (h : s.defineReadOnly e name v = .ok s') : s'.binds e name.lexeme = true := by
  obtain ⟨-, rfl⟩ := defineReadOnly_eq_ok.mp h
  rw [binds, getLocal?_protect]
  exact binds_put he name.lexeme

end Store

namespace Machine

theorem lasts_enter (stack : List Frame) (s : State) (f : Closure) (arguments : List Value) :
    s.store.Lasts (enter f arguments stack s).state.store := by
  have hkept : Store.Kept (fun _ _ => True) (fun _ _ => True) s.store
      (enter f arguments stack s).state.store := kept_enter ..
  exact hkept.lasts

theorem lasts_finishClass (stack : List Frame) (s : State) (name : Token)
    (superclass : Option Class) (ms : List FunctionDecl) (env scope : EnvironmentId)
    (store : Store) :
    store.Lasts (finishClass name superclass ms env scope store stack s).state.store := by
  have hkept : Store.Kept (fun _ _ => True) (fun _ _ => True) store
      (finishClass name superclass ms env scope store stack s).state.store :=
    kept_finishClass stack s name superclass ms env scope store trivial
  exact hkept.lasts

theorem superclassAt_eq_ok {s : Store} {keyword : Token} {depth : Nat} {env : EnvironmentId}
    {c : Class} (h : superclassAt s keyword depth env = .ok c) :
    s.accessAt env depth keyword = .ok (.callable (.class c)) := by
  unfold superclassAt at h
  split at h <;> cases h
  assumption

theorem receiverAt_eq_ok {s : Store} {keyword : Token} {depth : Nat} {env : EnvironmentId}
    {i : Instance} (h : receiverAt s keyword depth env = .ok i) :
    s.accessAt env (depth - 1) (.implicitAt Store.receiverName keyword) = .ok (.instance i) := by
  unfold receiverAt at h
  split at h <;> cases h
  assumption

/-- What `super` finds, it finds in two scopes. -/
theorem superMethod_eq_ok {s : Store} {keyword method : Token} {depth : Option Nat}
    {env : EnvironmentId} {m : Closure} {i : Instance}
    (h : superMethod s keyword method depth env = .ok (m, i)) :
    ∃ d c, depth = some d ∧ s.accessAt env d keyword = .ok (.callable (.class c)) ∧
      s.accessAt env (d - 1) (.implicitAt Store.receiverName keyword) = .ok (.instance i) ∧
      c.findMethod? method.lexeme = some m := by
  unfold superMethod at h
  split at h
  · cases h
  · rename_i d
    split at h
    · cases h
    · rename_i c hc
      split at h
      · cases h
      · rename_i i' hi
        split at h <;> cases h
        exact ⟨d, c, rfl, superclassAt_eq_ok hc, receiverAt_eq_ok hi, ‹_›⟩

end Machine

section
variable {texts : List (List Stmt)} {t : Trail} {m : Machine}

/-- Names that are assigned to are plain. -/
theorem plain_of_rebinds (hread : ∀ body ∈ texts, WasRead body) {code : List Place} {s : Store}
    (hm : Coherent texts t m) (hsettled : Settled texts code s t m) {e : EnvironmentId}
    {n : String} {v : Value} (h : m.Rebinds e n v) : ∃ x : Token, x.Plain ∧ x.lexeme = n := by
  cases h with
  | @assign v name depth env stack st e htarget hbinds =>
      have hstack := hm.stack
      cases hp : t.frames with
      | nil =>
          rw [hp] at hstack
          cases hstack
      | cons p ps =>
          rw [hp] at hstack
          obtain ⟨c, v₀, depth₀, hv, -, -⟩ := hstack.1
          have hworded : WordedExpr (.assign name v₀ depth₀) := visitAt_worded hread hv
          cases hworded with
          | assign hname => exact ⟨name, hname, rfl⟩
  | @setMember v m name stack st hfree hbinds =>
      have hstack := hm.stack
      have hready := hsettled.stack
      cases hp : t.frames with
      | nil =>
          rw [hp] at hstack
          cases hstack
      | cons p ps =>
          rw [hp] at hready
          exact ⟨name, hready.1, rfl⟩

theorem lasts_step (hread : ∀ body ∈ texts, WasRead body) {code : List Place} {s : Store}
    (hm : Coherent texts t m) (hsettled : Settled texts code s t m) :
    m.state.store.Lasts m.step.state.store := by
  rcases m.kept_step with hkept | ⟨e, n, v, hrebinds, hput⟩
  · exact hkept.lasts
  · obtain ⟨x, hx, rfl⟩ := plain_of_rebinds hread hm hsettled hrebinds
    rw [hput]
    exact Store.lasts_put hx v

end

/-! ## Results -/

section
variable {texts : List (List Stmt)} {code : List Place} {z : Store} {t : Trail}
  {stack : List Frame} {s : State}

/-- What is a value in a world without functions is ready. -/
theorem valueReady_of_silent {w : World} (hw : ∀ i, w.code i = none) {v : Value}
    (h : ValueOk w v) : ValueReady texts code z v := by
  have hclass : ∀ c, ClassOk w c → ClassReady texts code z c := by
    intro c hc n f hf
    obtain ⟨q, i, L, hr, -⟩ := hc n f hf
    cases (hw f.identity).symm.trans hr.1
  cases v with
  | callable c =>
      cases c with
      | function f =>
          obtain ⟨q, L, hr, -⟩ := h
          cases (hw f.identity).symm.trans hr.1
      | «class» c => exact hclass c h
      | native n => trivial
  | «instance» i => exact hclass _ h
  | _ => trivial

/-- A value of an operator is ready. -/
theorem valueReady_of_usual {r : Except RuntimeError Value} (h : Usual Value.Inert r) :
    ∀ v, r = .ok v → ValueReady texts code z v := by
  rintro v rfl
  cases v with
  | callable | «instance» => cases h
  | _ => trivial

theorem settled_fail {excused : EnvironmentId → String → Prop}
    (hk : StackReady texts code z excused stack t.frames)
    (hst : s.store.Only (ValueReady texts code z)) (e : RuntimeError) :
    Settled texts code z t (Machine.fail e stack s) :=
  ⟨trivial, hk.settle fun _ _ _ => .inr trivial, hst⟩

/-- Leaves a frame and looks at a child. -/
theorem settled_await {i : Nat} {e : Expr} {env : EnvironmentId} {frame : Frame}
    (hk : StackReady texts code z (Excused frame.due) stack t.frames)
    (hst : s.store.Only (ValueReady texts code z)) (he : ExprReady texts z (i :: t.here) env)
    (hf : FrameReady texts code z (Excused none) t.here frame) :
    Settled texts code z (t.await i) ⟨.evaluate e env, frame :: stack, s⟩ :=
  ⟨he, ⟨hf, hk⟩, hst⟩

/-- Is done with a declaration, or has failed. -/
theorem settled_doneWith {env : EnvironmentId} {x : Token}
    (hk : StackReady texts code z (Excused (some (env, x))) stack t.frames)
    (hst : s.store.Only (ValueReady texts code z)) (hx : x.Plain)
    {r : Except RuntimeError Store} (hs : (Machine.doneWith r stack s).state.store = z)
    (hr : ∀ store, r = .ok store → store = z →
      store.Only (ValueReady texts code z) ∧ store.binds env x.lexeme = true) :
    Settled texts code z t (Machine.doneWith r stack s) := by
  cases r with
  | error e => exact settled_fail hk hst e
  | ok store =>
      have hstore : store = z := hs
      obtain ⟨honly, hbinds⟩ := hr store rfl hstore
      refine ⟨trivial, hk.settle fun f n hexcused => ?_, honly⟩
      obtain ⟨y, hy, rfl⟩ := hexcused
      cases hy
      exact .inl (Store.supplies_of_binds hx (hstore ▸ hbinds))

section
variable (hk : StackReady texts code z (Excused none) stack t.frames)
  (hst : s.store.Only (ValueReady texts code z))
include hk hst

theorem settled_value {v : Value} (hv : ValueReady texts code z v) :
    Settled texts code z t ⟨.value v, stack, s⟩ :=
  ⟨hv, hk, hst⟩

theorem settled_done : Settled texts code z t ⟨.done, stack, s⟩ :=
  ⟨trivial, hk, hst⟩

theorem settled_yield {r : Except RuntimeError Value}
    (hr : ∀ v, r = .ok v → ValueReady texts code z v) :
    Settled texts code z t (Machine.yield r stack s) := by
  cases r with
  | ok v => exact settled_value hk hst (hr v rfl)
  | error e => exact settled_fail hk hst e

theorem settled_yieldWith {v : Value} {r : Except RuntimeError Store}
    (hs : (Machine.yieldWith v r stack s).state.store = z)
    (hr : ∀ store, r = .ok store → store = z →
      ValueReady texts code z v ∧ store.Only (ValueReady texts code z)) :
    Settled texts code z t (Machine.yieldWith v r stack s) := by
  cases r with
  | ok store =>
      obtain ⟨hv, honly⟩ := hr store rfl hs
      exact ⟨hv, hk, honly⟩
  | error e => exact settled_fail hk hst e

end

/-! ## Functions -/

/-- Statements in a scope of their own. -/
theorem frameReady_sequence {p : Place} {c : Context} {v : Visit} {sts : List Stmt}
    {env : EnvironmentId} (hv : visitAt texts p = some v)
    (hi : ∀ {i}, v.child p i = Visit.statement c sts i)
    (h : Ready texts z (Excused none) p c.sites c.scopes env) :
    FrameReady texts code z (Excused none) p (.sequence (c.stmts sts) env) := by
  intro st rest hlater
  cases sts with
  | nil => cases hlater
  | cons st₀ sts =>
      cases hlater
      have hhead := (hi (i := sts.length)).trans (Visit.statement_head c st₀ sts)
      rw [Resolve.length_stmts]
      exact ⟨c, st₀, (visitAt_cons hv _).trans hhead, h.inside _⟩

/-- A function that is made from the declaration visited at `q`. -/
theorem functionReady_newClosure {store : Store} (hs : StoreOk texts t store) {q : Place}
    (hcode : (t.declare q).code <+: code) {c : Context} {kind : FunctionKind} {d : FunctionDecl}
    (hv : visitAt texts q = some ⟨c, .function kind d⟩) {env : EnvironmentId}
    (h : Ready texts z (Excused none) q c.sites c.scopes env) (b : Bool) :
    FunctionReady texts code z (store.newClosure (c.function kind d) env b).1 :=
  ⟨q, c, kind, d, Trail.getElem?_of_prefix hcode (hs.code_newIdentity q), hv, rfl, h⟩

/-- A method that is bound to an instance is a function that knows the instance. -/
theorem functionReady_bindMethod {store : Store} (hs : StoreOk texts t store) {m : Closure}
    (hcode : (t.bind m).code <+: code) {i : Instance}
    (hlasts : (store.bindMethod m i).2.Lasts z) (hok : MethodOk (t.world texts store) m)
    (hm : MethodReady texts code z m) :
    FunctionReady texts code z (store.bindMethod m i).1 := by
  obtain ⟨q, c, kind, d, site, L, σ, hq, hv, hd, hL, hσ, hready⟩ := hm
  obtain ⟨q', j, L', hr, hsites⟩ := hok
  have hlt : m.environment < store.environments.size := hs.origins ▸ Trail.sites_lt hsites
  have hplace : q = t.codeOf m := by
    have hprefix : t.code <+: code := (Trail.extends_bind t m).code.trans hcode
    have hsame := hq.symm.trans (Trail.getElem?_of_prefix hprefix hr.1)
    rw [StoreOk.codeOf hr]
    exact Option.some.inj hsame
  have hnew : code[store.identities]? = some q := by
    refine Trail.getElem?_of_prefix hcode ?_
    rw [hplace, ← hs.code]
    exact List.getElem?_concat_length
  have hmade : (store.newEnvironment ⟨[(Store.receiverName, .instance i)], [],
      some m.environment⟩).2.Lasts z := ⟨hlasts.size, hlasts.links, hlasts.supplies⟩
  refine ⟨q, c, kind, d, hnew, hv, hd, ?_⟩
  rw [hL, hσ]
  exact hready.child hmade rfl hlt (suits_implicit ⟨fun _ => ⟨i, rfl⟩, nofun⟩)

/-! ## Calls -/

/-- With as many arguments as parameters, all parameters are there. -/
theorem binds_bindArguments {store store' : Store} {env : EnvironmentId}
    (he : env < store.environments.size) {ps : List Token} {vs : List Value}
    (hlen : ps.length = vs.length)
    (h : Machine.bindArguments store env ps vs = (store', none)) :
    ∀ p ∈ ps, store'.binds env p.lexeme = true := by
  induction ps generalizing store vs with
  | nil => exact nofun
  | cons p ps ih =>
      cases vs with
      | nil => cases hlen
      | cons v vs =>
          simp only [Machine.bindArguments] at h
          cases hd : store.define env p v with
          | error e =>
              rw [hd] at h
              cases h
          | ok next =>
              rw [hd] at h
              replace h : Machine.bindArguments next env ps vs = (store', none) := h
              have hkept : Store.Kept (fun _ _ => True) (fun _ _ => True) store next :=
                Store.kept_define trivial hd
              have hrest : Store.Kept (fun _ _ => True) (fun _ _ => True) next
                  (Machine.bindArguments next env ps vs).1 :=
                Machine.kept_bindArguments next (fun _ => trivial) ps vs
              rw [h] at hrest
              obtain ⟨u, hu⟩ := Store.binds_eq_true.mp (Store.binds_define he hd)
              refine List.forall_mem_cons.mpr ⟨?_, ?_⟩
              · exact Store.binds_eq_true.mpr ⟨u, hrest.names hu⟩
              · exact ih (Nat.lt_of_lt_of_le he hkept.size) (Nat.succ.inj hlen) h

section
variable (hread : ∀ body ∈ texts, WasRead body) (hok : StoreOk texts t s.store)
  (hk : StackReady texts code z (Excused none) stack t.frames)
  (hst : s.store.Only (ValueReady texts code z))
include hread hok hk hst

theorem settled_enter {f : Closure} {arguments : List Value} (hcode : t.code <+: code)
    (hclosure : ClosureOk (t.world texts s.store) f) (hf : FunctionReady texts code z f)
    (hvs : ∀ v ∈ arguments, ValueReady texts code z v)
    (hlen : f.declaration.params.length = arguments.length)
    (hs : (Machine.enter f arguments stack s).state.store = z) :
    Settled texts code z (t.enter f arguments s.store) (Machine.enter f arguments stack s) := by
  obtain ⟨q, c, kind, d, hq, hv, hd, hready⟩ := hf
  obtain ⟨q', L, hr, hsites⟩ := hclosure
  have hlt : f.environment < s.store.environments.size := hok.origins ▸ Trail.sites_lt hsites
  have hplace : t.codeOf f = q := by
    have hsame := hq.symm.trans (Trail.getElem?_of_prefix hcode hr.1)
    rw [StoreOk.codeOf hr]
    exact (Option.some.inj hsame).symm
  have hthere : s.store.environments.size < (s.store.child f.environment).2.environments.size :=
    Nat.lt_of_lt_of_eq (Nat.lt_succ_self _) (Store.size_newEnvironment ..).symm
  have honly := (hst.child f.environment).bindArguments s.store.environments.size hvs
    f.declaration.params
  have hbinds : ∀ store, Machine.bindArguments (s.store.child f.environment).2
      s.store.environments.size f.declaration.params arguments = (store, none) →
      ∀ p ∈ f.declaration.params, store.binds s.store.environments.size p.lexeme = true :=
    fun store => binds_bindArguments hthere hlen
  have hkept : Store.Kept (fun _ _ => True) (fun _ _ => True)
      (s.store.child f.environment).2 (Machine.bindArguments (s.store.child f.environment).2
        s.store.environments.size f.declaration.params arguments).1 :=
    Machine.kept_bindArguments _ (fun _ => trivial) f.declaration.params arguments
  have henv : (s.store.child f.environment).1 = s.store.environments.size := rfl
  unfold Trail.enter Machine.enter at *
  simp only [henv, hplace] at hs ⊢
  generalize Machine.bindArguments (s.store.child f.environment).2 s.store.environments.size
    f.declaration.params arguments = b at *
  obtain ⟨store, r⟩ := b
  cases r with
  | some e =>
      exact settled_fail (t := t.make (.call q)) (s := { s with store := store }) hk honly e
  | none =>
      replace hs : store = z := hs
      subst hs
      have hbody : f.declaration.body = (c.body q kind d.params).stmts d.body := by
        rw [← hd]
        cases d
        rfl
      have hparams : f.declaration.params = d.params := by
        rw [← hd]
        cases d
        rfl
      have hscope : Ready texts store (Excused none) q (.call q :: c.sites) ([] :: c.scopes)
          s.store.environments.size :=
        hready.child hkept.lasts rfl hlt nofun
      have hfull : Ready texts store (Excused none) q (c.body q kind d.params).sites
          (c.body q kind d.params).scopes s.store.environments.size := by
        refine hscope.adds (Scopes.adds_withParams _ d.params) ?_
        rintro n ⟨p, hp, rfl⟩
        have hplain : p.Plain := by
          have hworded : WordedDecl d := visitAt_worded hread hv
          cases hworded with
          | mk _ hps _ => exact hps p hp
        exact .inl (Store.supplies_of_binds hplain (hbinds store rfl p (hparams ▸ hp)))
      refine ⟨trivial, ⟨?_, trivial, hk⟩, honly⟩
      have hmade : (t.make (.call q)).codeOf f = q := hplace
      rw [hbody, hmade]
      exact frameReady_sequence hv rfl hfull

theorem settled_construct {c : Class} {arguments : List Value}
    (hcode : (t.construct c arguments s.store).code <+: code)
    (hclass : ClassOk (t.world texts s.store) c) (hc : ClassReady texts code z c)
    (hvs : ∀ v ∈ arguments, ValueReady texts code z v)
    (hlen : (Callable.class c).arity = arguments.length)
    (hs : (Machine.construct c arguments stack s).state.store = z) :
    Settled texts code z (t.construct c arguments s.store)
      (Machine.construct c arguments stack s) := by
  have hnew := hok.newInstance c
  unfold Trail.construct Machine.construct at *
  unfold Callable.arity at hlen
  cases hinit : c.findMethod? FunctionDecl.initializerName with
  | none => exact settled_value (s := { s with store := _ }) hk (hst.newInstance c) hc
  | some init =>
      simp only [hinit] at hcode hlen hs ⊢
      obtain ⟨hgrown, hclosure⟩ := hnew.ok.bindMethod (i := (s.store.newInstance c).1)
        (hnew.world ▸ hclass _ init hinit) (hnew.world ▸ hclass)
      have hbind : ((t.bind init).push t.here).code <+: code :=
        (Trail.extends_enter ..).code.trans hcode
      have hlasts : ((s.store.newInstance c).2.bindMethod init (s.store.newInstance c).1).2.Lasts
          z := by
        rw [← hs]
        exact Machine.lasts_enter _ { s with store := _ } _ _
      have hf := functionReady_bindMethod hnew.ok hbind hlasts
        (hnew.world ▸ hclass _ init hinit) (hc _ init hinit)
      have hinstance : ValueReady texts code z (.instance (s.store.newInstance c).1) := hc
      have hstack : StackReady texts code z (Excused none)
          (.constructed (s.store.newInstance c).1 :: stack) (t.here :: t.frames) := ⟨hc, hk⟩
      exact settled_enter (t := (t.bind init).push t.here) (s := { s with store := _ }) hread
        hgrown.ok.moved hstack ((hst.newInstance c).bindMethod hinstance init) hbind hclosure hf
        hvs hlen hs

theorem settled_invoke {c : Callable} {arguments : List Value}
    (hcode : (t.invoke c arguments s.store).code <+: code)
    (hvalue : ValueOk (t.world texts s.store) (.callable c))
    (hc : ValueReady texts code z (.callable c))
    (hvs : ∀ v ∈ arguments, ValueReady texts code z v) (hlen : c.arity = arguments.length)
    (hs : (Machine.invoke c arguments stack s).state.store = z) :
    Settled texts code z (t.invoke c arguments s.store)
      (Machine.invoke c arguments stack s) := by
  cases c with
  | function f =>
      exact settled_enter (s := s.note _) hread hok hk hst
        ((Trail.extends_enter ..).code.trans hcode) hvalue hc hvs hlen hs
  | «class» c =>
      exact settled_construct (s := s.note _) hread hok hk hst hcode hvalue hc hvs hlen hs
  | native n =>
      exact settled_yield (s := (s.note _).tick) hk hst
        (valueReady_of_usual (usual_native n s.now s.store arguments))

theorem settled_apply {callee : Value} {arguments : List Value} (paren : Token)
    (hcode : (t.apply callee arguments s).code <+: code)
    (hvalue : ValueOk (t.world texts s.store) callee) (hc : ValueReady texts code z callee)
    (hvs : ∀ v ∈ arguments, ValueReady texts code z v)
    (hs : (Machine.apply callee arguments paren stack s).state.store = z) :
    Settled texts code z (t.apply callee arguments s)
      (Machine.apply callee arguments paren stack s) := by
  unfold Trail.apply Machine.apply at *
  cases callee with
  | callable c =>
      by_cases ha : c.arity ≠ arguments.length
      · simp only [if_pos ha]
        exact settled_fail hk hst _
      by_cases hd : maxCallDepth ≤ s.callDepth
      · simp only [if_neg ha, if_pos hd]
        exact settled_fail hk hst _
      · simp only [if_neg ha, if_neg hd] at hcode hs ⊢
        have hstack : StackReady texts code z (Excused none) (.activeCall paren :: stack)
            (t.here :: t.frames) := ⟨trivial, hk⟩
        exact settled_invoke (t := t.push t.here) (s := { s with callDepth := s.callDepth + 1 })
          hread hok.moved hstack hst hcode hvalue hc hvs (not_not.mp ha) hs
  | _ => exact settled_fail hk hst _

theorem settled_applyNext {callee : Value} {earlier : List Value} (paren : Token)
    {later : List Expr} {env : EnvironmentId}
    (hcode : (t.applyNext callee earlier later s).code <+: code)
    (hvalue : ValueOk (t.world texts s.store) callee) (hc : ValueReady texts code z callee)
    (hvs : ∀ v ∈ earlier, ValueReady texts code z v)
    (hes : ExprsAt (t.world texts s.store) t.here later env) (hp : ExprReady texts z t.here env)
    (hs : (Machine.applyNext callee earlier paren later env stack s).state.store = z) :
    Settled texts code z (t.applyNext callee earlier later s)
      (Machine.applyNext callee earlier paren later env stack s) := by
  cases later with
  | nil =>
      exact settled_apply hread hok hk hst paren hcode hvalue hc
        (fun v hv => hvs v (List.mem_reverse.mp hv)) hs
  | cons e es =>
      obtain ⟨⟨c, e₀, hv, -, -⟩, -⟩ := hes.split
      exact settled_await hk hst (hp.operand hv) ⟨hc, hvs, hp⟩

end

/-! ## Expressions -/

/-- What `super` finds is ready: the method and the instance. -/
theorem ready_superMethod (hst : s.store.Only (ValueReady texts code z)) {env : EnvironmentId}
    {keyword method : Token} {depth : Option Nat} {m : Closure} {i : Instance}
    (h : Machine.superMethod s.store keyword method depth env = .ok (m, i)) :
    MethodReady texts code z m ∧ ClassReady texts code z i.ofClass := by
  obtain ⟨d, c, -, hclass, hreceiver, hm⟩ := Machine.superMethod_eq_ok h
  have hready : ClassReady texts code z c := hst.accessAt hclass
  exact ⟨hready _ m hm, hst.accessAt hreceiver⟩

section
variable (hok : StoreOk texts t s.store)
  (hk : StackReady texts code z (Excused none) stack t.frames)
  (hst : s.store.Only (ValueReady texts code z))
include hk hst

theorem settled_arrayNext (bracket : Token) (size : Option Nat) {earlier : List Value}
    {later : List Expr} {env : EnvironmentId} {w : World} (hw : w.visit = visitAt texts)
    (hvs : ∀ v ∈ earlier, ValueReady texts code z v) (hes : ExprsAt w t.here later env)
    (hp : ExprReady texts z t.here env) :
    Settled texts code z (t.arrayNext later)
      (Machine.arrayNext bracket size earlier later env stack s) := by
  cases later with
  | cons e es =>
      obtain ⟨⟨c, e₀, hv, -, -⟩, -⟩ := hes.split
      exact settled_await hk hst (hp.operand (hw ▸ hv)) ⟨hvs, hp⟩
  | nil =>
      unfold Trail.arrayNext Machine.arrayNext
      dsimp only
      have helements := usual_arrayElements size earlier.reverse bracket
      cases ha : arrayElements size earlier.reverse bracket with
      | error e => exact settled_fail hk hst e
      | ok elements =>
          rw [ha] at helements
          refine settled_value (s := { s with store := _ }) hk
            (hst.newArray fun i v hv => ?_) trivial
          rcases helements i v hv with hgiven | rfl
          · exact hvs v (List.mem_reverse.mp hgiven)
          · trivial

include hok

theorem settled_lambda {c : Context} {d : FunctionDecl} {env : EnvironmentId}
    (hread : ∀ body ∈ texts, WasRead body)
    (hv : visitAt texts t.here = some ⟨c, .expr (.function d)⟩)
    (hL : (t.world texts s.store).sites env = some c.sites)
    (hp : Ready texts z (Excused none) t.here c.sites c.scopes env)
    (hcode : (t.lambda ((c.lambda t.here d).function .function d)).code <+: code)
    (hs : (Machine.lambda ((c.lambda t.here d).function .function d) env stack s).state.store = z) :
    Settled texts code z (t.lambda ((c.lambda t.here d).function .function d))
      (Machine.lambda ((c.lambda t.here d).function .function d) env stack s) := by
  have hchild : visitAt texts (0 :: t.here) =
      some ⟨c.lambda t.here d, .function .function d⟩ := visitAt_cons hv 0
  have hname : ((c.lambda t.here d).function .function d).name = d.name :=
    Resolve.name_function ..
  unfold Trail.lambda Machine.lambda at *
  rw [hname] at hcode hs ⊢
  cases hd : d.name with
  | none =>
      simp only [hd] at hcode hs ⊢
      have hsame : c.lambda t.here d = c := by simp only [Context.lambda, hd]
      rw [hsame] at hchild ⊢
      exact settled_value (t := t.declare (0 :: t.here)) (s := { s with store := _ }) hk
        hst.newIdentity (functionReady_newClosure hok hcode hchild (hp.inside 0) false)
  | some name =>
      simp only [hd] at hcode hs ⊢
      have hlt : env < s.store.environments.size := hok.origins ▸ Trail.sites_lt hL
      have henv := hok.newEnvironment ⟨[], [], some env⟩ (.selfName t.here) rfl hL
        (fun n v hv => by cases hv)
      refine settled_yieldWith (t := (t.make (.selfName t.here)).declare (0 :: t.here))
        (s := { s with store := _ }) hk (hst.child env).newIdentity hs fun store hr hstore => ?_
      subst hstore
      have hthere : s.store.environments.size < (s.store.child env).2.environments.size :=
        Nat.lt_of_lt_of_eq (Nat.lt_succ_self _) (Store.size_newEnvironment ..).symm
      have hnew : Store.Kept (fun _ _ => True) (fun _ _ => True) (s.store.child env).2
          (s.store.child env).2.newIdentity.2 := Store.kept_of_environments rfl
      have hkept : Store.Kept (fun _ _ => True) (fun _ _ => True) (s.store.child env).2 store :=
        hnew.trans (Store.kept_defineReadOnly trivial trivial hr)
      have hplain : name.Plain := by
        have hworded : WordedExpr (.function d) := visitAt_worded hread hv
        cases hworded with
        | function hdecl =>
            cases hdecl with
            | mk hx => exact hx name hd
      have hself : Ready texts store (Excused none) (0 :: t.here) (.selfName t.here :: c.sites)
          ([] :: c.scopes) s.store.environments.size :=
        (hp.inside 0).child hkept.lasts rfl hlt fun _ h => by cases h
      have hbinds : store.binds s.store.environments.size name.lexeme = true :=
        Store.binds_defineReadOnly (s := (s.store.child env).2.newIdentity.2) hthere hr
      have hready : Ready texts store (Excused none) (0 :: t.here) (c.lambda t.here d).sites
          (c.lambda t.here d).scopes s.store.environments.size := by
        simp only [Context.lambda, hd]
        refine hself.adds (Scopes.adds_introduce _ name.lexeme false) ?_
        rintro n rfl
        exact .inl (Store.supplies_of_binds hplain hbinds)
      have hf : ValueReady texts code store (.callable (.function ((s.store.child env).2.newClosure
          ((c.lambda t.here d).function .function d) s.store.environments.size false).1)) :=
        functionReady_newClosure henv.ok hcode hchild hready false
      exact ⟨hf, (hst.child env).newIdentity.defineReadOnly hf hr⟩

theorem settled_superMethod {keyword method : Token} {depth : Option Nat} {env : EnvironmentId}
    (hd : Reaches (t.world texts s.store) s.store env depth)
    (hcode : (t.evaluate (.superMethod keyword method depth) env s).code <+: code)
    (hs : (Machine.evaluate (.superMethod keyword method depth) env stack s).state.store = z) :
    Settled texts code z (t.evaluate (.superMethod keyword method depth) env s)
      (Machine.evaluate (.superMethod keyword method depth) env stack s) := by
  have hr := expected_superMethod hok hd keyword method
  unfold Trail.evaluate Machine.evaluate at *
  dsimp only at hcode hs ⊢
  cases hm : Machine.superMethod s.store keyword method depth env with
  | error e => exact settled_fail hk hst e
  | ok r =>
      obtain ⟨m, i⟩ := r
      rw [hm] at hr
      simp only [hm] at hcode hs ⊢
      obtain ⟨hready, hclass⟩ := ready_superMethod hst hm
      have hlasts : (s.store.bindMethod m i).2.Lasts z := hs ▸ .refl _
      have hinstance : ValueReady texts code z (.instance i) := hclass
      have hf : ValueReady texts code z (.callable (.function (s.store.bindMethod m i).1)) :=
        functionReady_bindMethod hok hcode hlasts hr.1 hready
      exact settled_value (t := t.bind m) (s := { s with store := _ }) hk
        (hst.bindMethod hinstance m) hf

theorem settled_evaluate {e : Expr} {env : EnvironmentId} (hread : ∀ body ∈ texts, WasRead body)
    (h : ExprAt (t.world texts s.store) t.here e env) (hp : ExprReady texts z t.here env)
    (hcode : (t.evaluate e env s).code <+: code)
    (hs : (Machine.evaluate e env stack s).state.store = z) :
    Settled texts code z (t.evaluate e env s) (Machine.evaluate e env stack s) := by
  obtain ⟨c, e₀, hv, rfl, hL⟩ := h
  replace hv : visitAt texts t.here = some ⟨c, .expr e₀⟩ := hv
  have hfirst : ∀ {e}, Visit.child t.here ⟨c, .expr e₀⟩ 0 = some ⟨c, .expr e⟩ →
      ExprReady texts z (0 :: t.here) env :=
    fun hchild => hp.operand ((visitAt_cons hv 0).trans hchild)
  cases e₀ with
  | literal v =>
      refine settled_value hk hst ?_
      cases v <;> trivial
  | grouping e => exact ⟨hfirst rfl, hk, hst⟩
  | unary op e => exact settled_await hk hst (hfirst rfl) trivial
  | binary l op r => exact settled_await hk hst (hfirst rfl) hp
  | logical l op r => exact settled_await hk hst (hfirst rfl) hp
  | «variable» name depth =>
      exact settled_yield hk hst fun v hlook => hst.lookUp hlook
  | assign name v depth => exact settled_await hk hst (hfirst rfl) hp
  | call callee paren es => exact settled_await hk hst (hfirst rfl) hp
  | get object name => exact settled_await hk hst (hfirst rfl) trivial
  | set object name v =>
      have hworded : WordedExpr (.set object name v) := visitAt_worded hread hv
      cases hworded with
      | set hname => exact settled_await hk hst (hfirst rfl) ⟨hname, hp⟩
  | receiver keyword depth =>
      obtain ⟨depth', he, -⟩ := c.expr_receiver keyword depth
      rw [he]
      exact settled_yield hk hst fun v hlook => hst.lookUp hlook
  | superMethod keyword method depth =>
      obtain ⟨depth', he, hd⟩ := c.expr_superMethod keyword method depth
      rw [he] at hcode hs ⊢
      exact settled_superMethod hok hk hst
        (reaches_of_keyword hok hv hL hd fun hf => hf _ _ hv) hcode hs
  | function d =>
      rw [c.expr_function t.here] at hcode hs ⊢
      exact settled_lambda hok hk hst hread hv hL (hp.ready hv) hcode hs
  | array bracket size es =>
      have hes : ExprsAt (t.world texts s.store) t.here (c.exprs es) env := by
        refine exprsAt_children hv (fun {i w} hi => ?_) hL
        cases i with
        | zero => exact absurd (operand_pos hi) (Nat.lt_irrefl 0)
        | succ i => exact hi
      cases size with
      | none => exact settled_arrayNext hk hst bracket none rfl nofun hes hp
      | some size => exact settled_await hk hst (hfirst rfl) hp
  | index object bracket i => exact settled_await hk hst (hfirst rfl) hp
  | setIndex object bracket i v => exact settled_await hk hst (hfirst rfl) hp

end

/-! ## Statements -/

section
variable (hk : StackReady texts code z (Excused none) stack t.frames)
  (hst : s.store.Only (ValueReady texts code z))
include hk hst

theorem settled_loop {condition : Expr} {body : Stmt} {step : Option Expr} {env : EnvironmentId}
    (h : LoopReady texts z t.here step env) :
    Settled texts code z (t.await 0) (Machine.loop condition body step env stack s) :=
  settled_await hk hst h.test h

theorem settled_loopNext {condition : Expr} {body : Stmt} {step : Option Expr}
    {env : EnvironmentId} (h : LoopReady texts z t.here step env) :
    Settled texts code z (t.loopNext step)
      (Machine.loopNext condition body step env stack s) := by
  cases step with
  | none => exact settled_loop hk hst h
  | some e => exact settled_await hk hst (h.next e rfl) h

theorem settled_printValue (v : Value) : Settled texts code z t (Machine.printValue v stack s) := by
  unfold Machine.printValue
  split
  · exact settled_done (s := { s with output := _ }) hk hst
  · rename_i output _ _
    exact settled_fail (s := { s with output := output }) hk hst _

end

/-- The methods that a class makes in `env`, from those visited inside `c`. -/
theorem made_makeMethods {store : Store} (hok : StoreOk texts t store) {c : Context}
    {env : EnvironmentId} {ds : List FunctionDecl}
    (hvisit : ∀ {i w}, Visit.method c ds i = some w → visitAt texts (i :: t.here) = some w)
    (table : Table Closure) {n : String} {f : Closure}
    (hcode : (t.makeMethods (c.decls ds)).code <+: code)
    (hf : (Machine.makeMethods store env table (c.decls ds)).1.get? n = some f) :
    table.get? n = some f ∨ f.environment = env ∧ ∃ i d, code[f.identity]? = some (i :: t.here) ∧
      visitAt texts (i :: t.here) = some ⟨c, .function d.methodKind d⟩ ∧
      c.function d.methodKind d = f.declaration := by
  induction ds generalizing t store table with
  | nil => exact .inl hf
  | cons d ds ih =>
      have hdecls : c.decls (d :: ds) = c.function d.methodKind d :: c.decls ds := rfl
      have hlen : (c.decls ds).length = ds.length := Resolve.length_methods ..
      rw [hdecls] at hf hcode
      unfold Trail.makeMethods at hcode
      unfold Machine.makeMethods at hf
      cases hname : (c.function d.methodKind d).name with
      | none =>
          simp only [hname] at hcode hf
          exact ih hok (fun hi => hvisit (method_tail hi)) table hcode hf
      | some name =>
          simp only [hname, hlen] at hcode hf
          have hid := hok.newIdentity ((ds.length + 1) :: t.here)
          rcases ih (t := t.declare ((ds.length + 1) :: t.here)) hid.ok
            (fun hi => hvisit (method_tail hi)) _ hcode hf with hf | hmade
          · rw [Table.get?_set] at hf
            split at hf
            · cases hf
              refine .inr ⟨rfl, ds.length + 1, d, ?_, hvisit (Visit.method_head c d ds), rfl⟩
              refine Trail.getElem?_of_prefix ?_ (hok.code_newIdentity _)
              exact (Trail.extends_makeMethods ..).code.trans hcode
            · exact .inl hf
          · exact .inr hmade

/-- A class whose methods are visited inside `c` and made in `scope`. -/
theorem settled_finishClass {store : Store} (hok : StoreOk texts t store) {name : Token}
    {env scope : EnvironmentId} {superclass : Option Class} {c : Context} {ds : List FunctionDecl}
    {site : Site} {L : List Site} {σ : Scopes}
    (hk : StackReady texts code z (Excused (some (env, name))) stack t.frames)
    (hst : store.Only (ValueReady texts code z)) (hx : name.Plain)
    (henv : env < store.environments.size)
    (hvisit : ∀ {i w}, Visit.method c ds i = some w → visitAt texts (i :: t.here) = some w)
    (hL : c.sites = site :: L) (hσ : c.scopes = Scopes.implicit Store.receiverName :: σ)
    (hready : z.binds env name.lexeme = true → Ready texts z (Excused none) t.here L σ scope)
    (habove : ∀ above, superclass = some above → ClassReady texts code z above)
    (hcode : (t.defineClass none (c.decls ds)).code <+: code)
    (hs : (Machine.finishClass name superclass (c.decls ds) env scope store stack s).state.store =
      z) :
    Settled texts code z (t.defineClass none (c.decls ds))
      (Machine.finishClass name superclass (c.decls ds) env scope store stack s) := by
  have hframes : (t.defineClass none (c.decls ds)).frames = t.frames :=
    Trail.frames_makeMethods t _
  have honly := (hst.makeMethods scope [] (c.decls ds)).newIdentity
  have hkept : Store.Kept (fun _ _ => True) (fun _ _ => True) store
      (Machine.makeMethods store scope [] (c.decls ds)).2 := Machine.kept_makeMethods ..
  unfold Machine.finishClass at hs ⊢
  dsimp only at hs ⊢
  refine settled_doneWith (t := t.defineClass none (c.decls ds))
    (s := { s with store := _ }.note _) (hframes ▸ hk) honly hx hs fun next hr hnext => ?_
  have hbinds := Store.binds_define
    (s := (Machine.makeMethods store scope [] (c.decls ds)).2.newIdentity.2)
    (Nat.lt_of_lt_of_le henv hkept.size) hr
  have hscope := hready (hnext ▸ hbinds)
  have hclass : ClassReady texts code z
      ⟨(Machine.makeMethods store scope [] (c.decls ds)).2.newIdentity.1, name, superclass,
        (Machine.makeMethods store scope [] (c.decls ds)).1⟩ := by
    intro n f hf
    unfold Class.findMethod? at hf
    split at hf
    · cases hf
      have hmade : (t.makeMethods (c.decls ds)).code <+: code :=
        (Trail.extends_declare _ _).code.trans hcode
      rcases made_makeMethods hok hvisit [] hmade ‹_› with hnone | ⟨hplace, i, d, hcode, hv, hd⟩
      · cases hnone
      · exact ⟨i :: t.here, c, _, d, site, L, σ, hcode, hv, hd, hL, hσ, hplace ▸ hscope.inside i⟩
    · split at hf
      · exact habove _ rfl n f hf
      · cases hf
  have hvalue : ValueReady texts code z (.callable (.class _)) := hclass
  exact ⟨honly.define hvalue hr, hbinds⟩

/-- A class at a place where the resolver visited one. -/
theorem settled_defineClass (hread : ∀ body ∈ texts, WasRead body)
    (hok : StoreOk texts t s.store) {name : Token} (superclass : Option Class)
    {e₀ : Option Expr} {ds : List FunctionDecl} {c : Context} {env : EnvironmentId}
    (hk : StackReady texts code z (Excused (some (env, name))) stack t.frames)
    (hst : s.store.Only (ValueReady texts code z))
    (hv : visitAt texts t.here = some ⟨c, .stmt (.classDecl name e₀ ds)⟩)
    (hL : (t.world texts s.store).sites env = some c.sites)
    (hp : Ready texts z (Excused none) t.here c.sites c.scopes env)
    (hsome : superclass.isSome = e₀.isSome)
    (hvalue : ∀ above, superclass = some above → ClassOk (t.world texts s.store) above)
    (habove : ∀ above, superclass = some above → ClassReady texts code z above)
    (hcode : (t.defineClass superclass ((c.methods t.here name e₀).decls ds)).code <+: code)
    (hs : (Machine.defineClass name superclass ((c.methods t.here name e₀).decls ds) env stack
      s).state.store = z) :
    Settled texts code z (t.defineClass superclass ((c.methods t.here name e₀).decls ds))
      (Machine.defineClass name superclass ((c.methods t.here name e₀).decls ds) env stack s) := by
  have hchild : ∀ {i w}, Visit.method (c.methods t.here name e₀) ds i = some w →
      visitAt texts (i :: t.here) = some w := by
    intro i w hi
    rw [visitAt_cons hv i]
    cases i with
    | zero => exact absurd (method_pos hi) (Nat.lt_irrefl 0)
    | succ i => cases e₀ <;> exact hi
  have henv : env < s.store.environments.size := hok.origins ▸ Trail.sites_lt hL
  have hx : name.Plain := by
    have hworded : WordedStmt (.classDecl name e₀ ds) := visitAt_worded hread hv
    exact hworded.plain rfl
  have hnamed : z.binds env name.lexeme = true → Ready texts z (Excused none) t.here c.sites
      (c.scopes.introduce name.lexeme true) env := by
    intro hbinds
    refine hp.adds (Scopes.adds_introduce c.scopes name.lexeme true) ?_
    rintro n rfl
    exact .inl (Store.supplies_of_binds hx hbinds)
  cases e₀ with
  | none =>
      cases superclass with
      | some above => cases hsome
      | none =>
          exact settled_finishClass hok hk hst hx henv hchild rfl rfl hnamed habove hcode hs
  | some e =>
      cases superclass with
      | none => cases hsome
      | some above =>
          have hbind : ∀ n v,
              Table.get? [(Machine.superName, Value.callable (.class above))] n = some v →
              ValueOk (t.world texts s.store) v := by
            intro n v hn
            simp only [Table.get?] at hn
            split at hn
            · cases hn
              exact hvalue above rfl
            · cases hn
          have hnew := hok.newEnvironment
            ⟨[(Machine.superName, .callable (.class above))], [], some env⟩
            (.superclass t.here) rfl hL hbind
          have hvalues : ValueReady texts code z (.callable (.class above)) := habove above rfl
          rw [Machine.defineClass_some] at hs ⊢
          have hlasts : (s.store.childWith env Machine.superName
              (.callable (.class above))).2.Lasts z := by
            rw [← hs]
            exact Machine.lasts_finishClass ..
          have hthere : env < (s.store.childWith env Machine.superName
              (.callable (.class above))).2.environments.size :=
            Nat.lt_trans henv (Nat.lt_of_lt_of_eq (Nat.lt_succ_self _)
              (Store.size_newEnvironment ..).symm)
          exact settled_finishClass (t := t.make (.superclass t.here)) hnew.ok hk
            (hst.childWith hvalues env Machine.superName) hx hthere hchild rfl rfl
            (fun hbinds => (hnamed hbinds).child hlasts rfl henv
              (suits_implicit ⟨fun h => absurd h (by decide), fun _ => ⟨above, rfl⟩⟩))
            habove hcode hs

theorem settled_execute {stmt : Stmt} {env : EnvironmentId}
    (hread : ∀ body ∈ texts, WasRead body) (hok : StoreOk texts t s.store)
    (hk : StackReady texts code z (Control.execute stmt env).excuses stack t.frames)
    (hst : s.store.Only (ValueReady texts code z))
    (h : StmtAt (t.world texts s.store) t.here stmt env stack)
    (hstmt : StmtReady texts z (Excused none) t.here env)
    (hcode : (t.execute stmt).code <+: code)
    (hs : (Machine.execute stmt env stack s).state.store = z) :
    Settled texts code z (t.execute stmt) (Machine.execute stmt env stack s) := by
  obtain ⟨c, st₀, hv, rfl, hL, -⟩ := h
  replace hv : visitAt texts t.here = some ⟨c, .stmt st₀⟩ := hv
  have hp := hstmt.ready hv
  have henv : env < s.store.environments.size := hok.origins ▸ Trail.sites_lt hL
  have hworded : WordedStmt st₀ := visitAt_worded hread hv
  have hfirst : ∀ {e}, Visit.child t.here ⟨c, .stmt st₀⟩ 0 = some ⟨c, .expr e⟩ →
      ExprReady texts z (0 :: t.here) env :=
    fun hchild => ⟨c, _, (visitAt_cons hv 0).trans hchild, hp.inside 0⟩
  cases st₀ with
  | print e => exact settled_await hk hst (hfirst rfl) trivial
  | expression e => exact settled_await hk hst (hfirst rfl) trivial
  | varDecl name e =>
      cases e with
      | none =>
          exact settled_doneWith hk hst (hworded.plain rfl) hs fun store hr _ =>
            ⟨hst.define (v := .nil) trivial hr, Store.binds_define henv hr⟩
      | some e =>
          have hdue : StackReady texts code z (Excused (Frame.varDecl name env).due) stack
              t.frames := hk
          refine settled_await hdue hst ⟨_, e, visitAt_cons hv 0, ?_⟩ trivial
          refine (hp.inside 0).adds (Scopes.adds_declare c.scopes name.lexeme true) ?_
          rintro n rfl
          exact .inr (.inl ⟨t.here, c, _, name, List.suffix_rfl, hv, rfl, rfl, rfl⟩)
  | letDecl name e =>
      have hdue : StackReady texts code z (Excused (Frame.letDecl name env).due) stack
          t.frames := hk
      refine settled_await hdue hst ⟨_, e, visitAt_cons hv 0, ?_⟩ trivial
      refine (hp.inside 0).adds (Scopes.adds_declare c.scopes name.lexeme false) ?_
      rintro n rfl
      exact .inr (.inl ⟨t.here, c, _, name, List.suffix_rfl, hv, rfl, rfl, rfl⟩)
  | block body =>
      replace hs : (s.store.child env).2 = z := hs
      have hlasts : (s.store.child env).2.Lasts z := hs ▸ .refl _
      have hbody : Ready texts z (Excused none) t.here (c.push (.block t.here)).sites
          (c.push (.block t.here)).scopes s.store.environments.size :=
        hp.child hlasts rfl henv fun _ h => by cases h
      exact ⟨trivial, ⟨frameReady_sequence hv rfl hbody, hk⟩, hst.child env⟩
  | branch condition onTrue onFalse =>
      cases hworded with
      | branch _ htrue hnone _ _ =>
          refine settled_await hk hst (hfirst rfl)
            ⟨⟨c, onTrue, visitAt_cons hv 1, hp.inside 1⟩, fun st hst => ?_⟩
          cases onFalse with
          | none => cases hst
          | some onFalse =>
              refine ⟨c.after onTrue, onFalse, visitAt_cons hv 2, ?_⟩
              refine (hp.inside 2).adds (Context.adds_after htrue) ?_
              rintro n ⟨x, hx, -⟩
              cases hnone.symm.trans hx
  | whileLoop condition body step =>
      cases hworded with
      | whileLoop _ hbody hnone _ =>
          have hloop : LoopReady texts z t.here
              (step.map (c.withScopes (c.looping.after body).scopes).expr) env := by
            refine ⟨hfirst rfl, ⟨c.looping, body, visitAt_cons hv 1, hp.inside 1⟩, ?_⟩
            intro e he
            obtain ⟨e₀, rfl, rfl⟩ := Option.map_eq_some_iff.mp he
            refine ⟨_, e₀, visitAt_cons hv 2, ?_⟩
            refine (hp.inside 2).adds (Context.adds_after (c := c.looping) hbody) ?_
            rintro n ⟨x, hx, -⟩
            cases hnone.symm.trans hx
          cases step <;> exact settled_loop hk hst hloop
  | functionDecl d =>
      have hchild : visitAt texts (0 :: t.here) =
          some ⟨c.declared d, .function .function d⟩ := visitAt_cons hv 0
      have hname : ((c.declared d).function .function d).name = d.name :=
        Resolve.name_function ..
      rw [c.stmt_functionDecl] at hk hcode hs ⊢
      unfold Machine.execute at hs ⊢
      dsimp only at hs ⊢
      rw [hname] at hs ⊢
      cases hd : d.name with
      | none =>
          have hnone : Stmt.declares (.functionDecl ((c.declared d).function .function d)) = none :=
            hname.trans hd
          simp only [Control.excuses, Control.due, hnone, Option.map_none] at hk
          exact settled_done (t := t.declare (0 :: t.here)) (s := { s with store := _ }) hk
            hst.newIdentity
      | some name =>
          have hsome : Stmt.declares (.functionDecl ((c.declared d).function .function d)) =
              some name := hname.trans hd
          simp only [hd] at hs ⊢
          simp only [Control.excuses, Control.due, hsome, Option.map_some] at hk
          refine settled_doneWith (t := t.declare (0 :: t.here)) (s := { s with store := _ }) hk
            hst.newIdentity (hworded.plain hd) hs fun store hr hstore => ?_
          subst hstore
          have hbinds : store.binds env name.lexeme = true :=
            Store.binds_define (s := s.store.newIdentity.2) henv hr
          have hready : Ready texts store (Excused none) (0 :: t.here) (c.declared d).sites
              (c.declared d).scopes env := by
            simp only [Context.declared, hd]
            refine (hp.inside 0).adds (Scopes.adds_introduce c.scopes name.lexeme true) ?_
            rintro n rfl
            exact .inl (Store.supplies_of_binds (hworded.plain hd) hbinds)
          have hf : ValueReady texts code store (.callable (.function (s.store.newClosure
              ((c.declared d).function .function d) env false).1)) :=
            functionReady_newClosure hok hcode hchild hready false
          exact ⟨hst.newIdentity.define hf hr, hbinds⟩
  | classDecl name e ms =>
      cases e with
      | none =>
          exact settled_defineClass hread hok none hk hst hv hL hp rfl
            (fun _ h => by cases h) (fun _ h => by cases h) hcode hs
      | some e =>
          have hdue : ∀ site ms, StackReady texts code z
              (Excused (Frame.superclass name site ms env).due) stack t.frames := fun _ _ => hk
          refine settled_await (hdue _ _) hst ⟨_, e, visitAt_cons hv 0, ?_⟩ hstmt
          refine (hp.inside 0).adds (Scopes.adds_introduce c.scopes name.lexeme true) ?_
          rintro n rfl
          exact .inr (.inl ⟨t.here, c, _, name, List.suffix_rfl, hv, rfl, rfl, rfl⟩)
  | returnWith keyword v =>
      cases v with
      | none => exact ⟨trivial, hk.settle fun _ _ _ => .inr trivial, hst⟩
      | some v => exact settled_await hk hst (hfirst rfl) trivial
  | breakLoop keyword | continueLoop keyword =>
      exact ⟨trivial, hk.settle fun _ _ _ => .inr trivial, hst⟩
  | moduleDecl name body =>
      replace hs : (s.store.child env).2 = z := hs
      have hlasts : (s.store.child env).2.Lasts z := hs ▸ .refl _
      have hbody : Ready texts z (Excused none) t.here (c.members t.here).sites
          (c.members t.here).scopes s.store.environments.size :=
        hp.child hlasts rfl henv fun _ h => by cases h
      exact ⟨trivial, ⟨frameReady_sequence hv rfl hbody, trivial, hk⟩, hst.child env⟩

/-! ## Frames -/

theorem settled_get {v : Value} (hok : StoreOk texts t s.store)
    (hk : StackReady texts code z (Excused none) stack t.frames)
    (hst : s.store.Only (ValueReady texts code z)) (hvalue : ValueOk (t.world texts s.store) v)
    (hv : ValueReady texts code z v) (name : Token)
    (hcode : (t.resume v (.get name) s).code <+: code)
    (hs : (Machine.resume v (.get name) stack s).state.store = z) :
    Settled texts code z (t.resume v (.get name) s) (Machine.resume v (.get name) stack s) := by
  unfold Trail.resume Machine.resume at *
  cases v with
  | «instance» i =>
      simp only [Store.get] at hcode hs ⊢
      cases hp : s.store.property? i name.lexeme with
      | none => exact settled_fail hk hst _
      | some property =>
          have hproperty := expected_property hok hvalue hp
          simp only [hp] at hcode hs ⊢
          unfold Store.property? at hp
          split at hp
          · cases hp
            exact settled_value hk hst (hst.fields ‹_›)
          · obtain ⟨m, hm, rfl⟩ := Option.map_eq_some_iff.mp hp
            have hlasts : (s.store.bindMethod m i).2.Lasts z := hs ▸ .refl _
            have hf : ValueReady texts code z (.callable (.function (s.store.bindMethod m i).1)) :=
              functionReady_bindMethod hok hcode hlasts hproperty (hv _ m hm)
            exact settled_value (t := t.bind m) (s := { s with store := _ }) hk
              (hst.bindMethod hv m) hf
  | module m =>
      dsimp only
      cases hm : s.store.getLocal? m.environment name.lexeme with
      | none => exact settled_fail hk hst _
      | some u => exact settled_value hk hst (hst.bindings hm)
  | _ => exact settled_fail hk hst _

theorem settled_resume {v : Value} {frame : Frame} (hread : ∀ body ∈ texts, WasRead body)
    (hok : StoreOk texts t s.store)
    (hk : StackReady texts code z (Excused frame.due) stack t.frames)
    (hst : s.store.Only (ValueReady texts code z)) (hvalue : ValueOk (t.world texts s.store) v)
    (hv : ValueReady texts code z v) (hframe : FrameOk (t.world texts s.store) t.here stack frame)
    (hf : FrameReady texts code z (Excused none) t.here frame) (htakes : frame.takesValue = true)
    (hcode : (t.resume v frame s).code <+: code)
    (hs : (Machine.resume v frame stack s).state.store = z) :
    Settled texts code z (t.resume v frame s) (Machine.resume v frame stack s) := by
  cases frame with
  | unary op => exact settled_yield hk hst (valueReady_of_usual (usual_applyUnary op v))
  | binaryRight op right env =>
      obtain ⟨c, e, hright, -, -⟩ := hframe
      exact settled_await hk hst (ExprReady.operand hf hright) hv
  | binary left op =>
      exact settled_yield hk hst (valueReady_of_usual (usual_applyBinary op left v))
  | logical op right env =>
      obtain ⟨c, e, hright, -, -⟩ := hframe
      unfold Trail.resume Machine.resume
      dsimp only
      split
      · exact settled_value hk hst hv
      · exact ⟨ExprReady.operand hf hright, hk, hst⟩
  | assign name depth env =>
      refine settled_yieldWith hk hst hs fun store hr _ => ⟨hv, ?_⟩
      obtain ⟨e, -, -, rfl⟩ := Machine.change_eq_ok hr
      exact hst.put hv e name.lexeme
  | callee paren es env =>
      exact settled_applyNext hread hok hk hst paren hcode hvalue hv nofun hframe hf hs
  | argument callee earlier paren later env =>
      obtain ⟨hcallee, -, hes⟩ := hframe
      obtain ⟨hc, hvs, hp⟩ := hf
      exact settled_applyNext hread hok hk hst paren hcode hcallee hc
        (List.forall_mem_cons.mpr ⟨hv, hvs⟩) hes hp hs
  | get name => exact settled_get hok hk hst hvalue hv name hcode hs
  | setObject name e env =>
      obtain ⟨c, e₀, hset, -, -⟩ := hframe
      cases v with
      | «instance» i => exact settled_await hk hst (hf.2.operand hset) trivial
      | module m => exact settled_await hk hst (hf.2.operand hset) hf.1
      | _ => exact settled_fail hk hst _
  | setField i name =>
      exact settled_value (s := { s with store := _ }) hk (hst.setField hv i name.lexeme) hv
  | setMember m name =>
      unfold Trail.resume Machine.resume
      dsimp only
      split
      · exact settled_fail hk hst _
      · split
        · rename_i store hstore
          obtain ⟨-, rfl⟩ := Store.assignLocal?_eq_some.mp hstore
          exact settled_value (s := { s with store := _ }) hk (hst.put hv _ _) hv
        · exact settled_fail hk hst _
  | arraySize bracket es env =>
      unfold Trail.resume Machine.resume
      dsimp only
      cases hr : arraySize v bracket with
      | error e => exact settled_fail hk hst e
      | ok n => exact settled_arrayNext hk hst bracket (some n) rfl nofun hframe hf
  | arrayElement bracket size earlier later env =>
      exact settled_arrayNext hk hst bracket size rfl (List.forall_mem_cons.mpr ⟨hv, hf.1⟩)
        hframe.2 hf.2
  | indexObject bracket i env =>
      obtain ⟨c, e, hindex, -, -⟩ := hframe
      unfold Trail.resume Machine.resume
      dsimp only
      cases hr : asArray v bracket with
      | error e => exact settled_fail hk hst e
      | ok a => exact settled_await hk hst (ExprReady.operand hf hindex) trivial
  | index a bracket =>
      unfold Trail.resume Machine.resume
      dsimp only
      cases hr : asIndex v (s.store.length a) bracket with
      | error err => exact settled_fail hk hst err
      | ok i =>
          dsimp only
          cases he : s.store.element? a i with
          | none => exact settled_fail hk hst _
          | some u => exact settled_value hk hst (hst.arrays he)
  | setIndexObject bracket i e env =>
      obtain ⟨⟨c, e, hindex, -, -⟩, -⟩ := hframe
      unfold Trail.resume Machine.resume
      dsimp only
      cases hr : asArray v bracket with
      | error err => exact settled_fail hk hst err
      | ok a => exact settled_await hk hst (ExprReady.operand hf hindex) hf
  | setIndexAt a bracket e env =>
      obtain ⟨c, e, hset, -, -⟩ := hframe
      unfold Trail.resume Machine.resume
      dsimp only
      cases hr : asIndex v (s.store.length a) bracket with
      | error err => exact settled_fail hk hst err
      | ok i => exact settled_await hk hst (ExprReady.operand hf hset) trivial
  | setIndex a i bracket =>
      unfold Trail.resume Machine.resume
      dsimp only
      split
      · exact settled_value (s := { s with store := _ }) hk (hst.setElement? hv ‹_›) hv
      · exact settled_fail hk hst _
  | print => exact settled_printValue hk hst v
  | discard => exact settled_done hk hst
  | varDecl name env =>
      obtain ⟨c, e₀, hvisit, hL⟩ := hframe
      have hworded : WordedStmt (.varDecl name e₀) := visitAt_worded hread hvisit
      have henv : env < s.store.environments.size := hok.origins ▸ Trail.sites_lt hL
      exact settled_doneWith hk hst (hworded.plain rfl) hs fun store hr _ =>
        ⟨hst.define hv hr, Store.binds_define henv hr⟩
  | letDecl name env =>
      obtain ⟨c, e₀, hvisit, hL⟩ := hframe
      have hworded : WordedStmt (.letDecl name e₀) := visitAt_worded hread hvisit
      have henv : env < s.store.environments.size := hok.origins ▸ Trail.sites_lt hL
      exact settled_doneWith hk hst (hworded.plain rfl) hs fun store hr _ =>
        ⟨hst.defineReadOnly hv hr, Store.binds_defineReadOnly henv hr⟩
  | branch onTrue onFalse env =>
      have hany : ∀ control : Control,
          StackReady texts code z control.excuses stack t.frames := fun control =>
        hk.settle fun f n hexcused => absurd hexcused not_excused_none
      unfold Trail.resume Machine.resume
      dsimp only
      split
      · exact ⟨hf.1, hany _, hst⟩
      · cases onFalse with
        | none => exact settled_done hk hst
        | some onFalse => exact ⟨hf.2 onFalse rfl, hany _, hst⟩
  | loopTest condition body step env =>
      have hloop : LoopReady texts z t.here step env := hf
      unfold Trail.resume Machine.resume
      dsimp only
      split
      · exact ⟨hloop.once, ⟨hf, hk⟩, hst⟩
      · exact settled_done hk hst
  | loopStep condition body step env => exact settled_loop hk hst hf
  | superclass name site ms env =>
      obtain ⟨c, e₀, ms₀, hvisit, rfl, hL⟩ := hframe
      cases v with
      | callable callee =>
          cases callee with
          | «class» above =>
              refine settled_defineClass hread hok (some above) hk hst hvisit hL
                (StmtReady.ready hf hvisit) rfl ?_ ?_ hcode hs
              · rintro u ⟨⟩
                exact hvalue
              · rintro u ⟨⟩
                exact hv
          | _ => exact settled_fail hk hst _
      | _ => exact settled_fail hk hst _
  | returnWith => exact ⟨hv, hk.settle fun _ _ _ => .inr trivial, hst⟩
  | constructed i => exact settled_value hk hst hf
  | activeCall paren =>
      exact settled_value (s := { s with callDepth := s.callDepth - 1 }) hk hst hv
  | sequence | loopBody | moduleBody | functionBody => cases htakes

/-- The statements behind one that is about to be executed, but for its name. -/
theorem frameReady_later {w : World} (hw : w.visit = visitAt texts) {p : Place} {st₁ : Stmt}
    {later : List Stmt} {env : EnvironmentId} (hread : ∀ body ∈ texts, WasRead body)
    (hframe : StmtsAt w p (st₁ :: later) env stack)
    (hf : StmtReady texts z (Excused none) (later.length :: p) env) :
    FrameReady texts code z (Control.execute st₁ env).excuses p (.sequence later env) := by
  obtain ⟨c, sts₀, hv, hsts, -, -⟩ := hframe
  intro st₂ rest hlater
  subst hlater
  rw [hw] at hv
  cases sts₀ with
  | nil => cases hsts
  | cons st₀ sts₀ =>
      cases sts₀ with
      | nil => cases hsts
      | cons st₂₀ rest₀ =>
          have hlen : rest.length = rest₀.length := by
            cases hsts
            exact Resolve.length_stmts ..
          have hfirst : c.stmt st₀ = st₁ := (List.cons.inj hsts).1
          have hvisit : visitAt texts (rest₀.length :: p) = some ⟨c.after st₀, .stmt st₂₀⟩ :=
            hv (statement_tail (Visit.statement_head (c.after st₀) st₂₀ rest₀))
          have hhead : visitAt texts ((rest₀.length + 1) :: p) = some ⟨c, .stmt st₀⟩ :=
            hv (Visit.statement_head c st₀ (st₂₀ :: rest₀))
          have hworded : WordedStmt st₀ := visitAt_worded hread hhead
          simp only [List.length_cons, hlen] at hf ⊢
          refine ⟨c.after st₀, st₂₀, hvisit, ?_⟩
          have hready : Ready texts z (Control.execute st₁ env).excuses (rest₀.length :: p)
              c.sites c.scopes env :=
            ((hf.ready hhead).settle fun f n hexcused =>
              absurd hexcused not_excused_none).beside rest₀.length
          refine hready.adds (Context.adds_after hworded) ?_
          rintro n ⟨x, hx, rfl⟩
          refine .inr (.inr ⟨x, ?_, rfl⟩)
          rw [← hfirst]
          simp only [Control.due, Context.declares_stmt, hx, Option.map_some]

theorem settled_proceed {frame : Frame} (hread : ∀ body ∈ texts, WasRead body)
    (hok : StoreOk texts t s.store)
    (hk : StackReady texts code z (Excused frame.due) stack t.frames)
    (hst : s.store.Only (ValueReady texts code z))
    (hframe : FrameOk (t.world texts s.store) t.here stack frame)
    (hf : FrameReady texts code z (Excused none) t.here frame) (htakes : frame.takesValue = false)
    (hs : (Machine.proceed frame stack s).state.store = z) :
    Settled texts code z (t.proceed frame) (Machine.proceed frame stack s) := by
  cases frame with
  | sequence later env =>
      cases later with
      | nil => exact settled_done hk hst
      | cons st₁ later =>
          have hfirst := hf st₁ later rfl
          exact ⟨hfirst, ⟨frameReady_later rfl hread hframe hfirst, hk⟩, hst⟩
  | loopBody condition body step env => exact settled_loopNext hk hst hf
  | moduleBody name members env =>
      obtain ⟨c, body₀, hvisit, hL⟩ := hframe
      have hworded : WordedStmt (.moduleDecl name body₀) := visitAt_worded hread hvisit
      have henv : env < s.store.environments.size := hok.origins ▸ Trail.sites_lt hL
      exact settled_doneWith (s := s.note _) hk hst (hworded.plain rfl) hs fun store hr _ =>
        ⟨hst.defineReadOnly (v := .module _) trivial hr, Store.binds_defineReadOnly henv hr⟩
  | functionBody f =>
      exact settled_yield hk hst fun v hr => hst.result (u := .nil) trivial hr
  | _ => cases htakes

theorem settled_unwind {signal : Signal} {frame : Frame} {p : Place}
    (hk : StackReady texts code z (Excused frame.due) stack t.frames)
    (hst : s.store.Only (ValueReady texts code z))
    (hp : ControlReady texts code z p (.unwind signal))
    (hf : FrameReady texts code z (Control.unwind signal).excuses t.here frame) :
    Settled texts code z (t.unwind signal frame) (Machine.unwind signal frame stack s) := by
  have hany : StackReady texts code z (Control.unwind signal).excuses stack t.frames :=
    hk.settle fun _ _ _ => .inr trivial
  have hsignal : ControlReady texts code z t.here (.unwind signal) := by
    cases signal <;> exact hp
  cases frame with
  | loopBody condition body step env =>
      cases signal with
      | continuing => exact settled_loopNext hk hst hf
      | breaking => exact settled_done hk hst
      | failure e => exact ⟨hsignal, hany, hst⟩
      | returning v => exact ⟨hsignal, hany, hst⟩
  | functionBody f =>
      cases signal with
      | returning v => exact settled_yield hk hst fun u hr => hst.result hsignal hr
      | failure e => exact ⟨hsignal, hany, hst⟩
      | breaking | continuing => exact ⟨hsignal, hany, hst⟩
  | activeCall paren => cases signal <;> exact ⟨hsignal, hany, hst⟩
  | _ => exact ⟨hsignal, hany, hst⟩

end

/-! ## The machine as a whole -/

/-- A move leaves all that a machine holds ready. -/
theorem Settled.step {texts : List (List Stmt)} {t : Trail} {m : Machine}
    (hread : ∀ body ∈ texts, WasRead body) (hm : Coherent texts t m) (hstacked : m.Stacked)
    (h : Settled texts t.code m.state.store t m) :
    Settled texts (t.step m).code m.step.state.store (t.step m) m.step := by
  replace h := h.mono id (Trail.extends_step m t).code (lasts_step hread hm h)
  generalize hs : m.step.state.store = z at h ⊢
  obtain ⟨code, hcode⟩ : ∃ code, (t.step m).code = code := ⟨_, rfl⟩
  rw [hcode] at h ⊢
  replace hcode : (t.step m).code <+: code := hcode ▸ List.prefix_rfl
  obtain ⟨control, stack, s⟩ := m
  obtain ⟨hcontrol, hstack, hok⟩ := hm
  obtain ⟨hc, hk, hst⟩ := h
  cases control with
  | evaluate e env => exact settled_evaluate hok hk hst hread hcontrol hc hcode hs
  | execute stmt env => exact settled_execute hread hok hk hst hcontrol hc hcode hs
  | value v =>
      cases stack with
      | nil => exact ⟨hc, hk, hst⟩
      | cons frame stack =>
          obtain ⟨here, frames, origins, notes⟩ := t
          cases frames with
          | nil => cases hstack
          | cons p ps =>
              exact settled_resume hread hok.moved hk.2 hst hcontrol hc hstack.1 hk.1
                hstacked.control hcode hs
  | done =>
      cases stack with
      | nil => exact ⟨hc, hk, hst⟩
      | cons frame stack =>
          obtain ⟨here, frames, origins, notes⟩ := t
          cases frames with
          | nil => cases hstack
          | cons p ps =>
              exact settled_proceed hread hok.moved hk.2 hst hstack.1 hk.1 hstacked.control hs
  | unwind signal =>
      cases stack with
      | nil => exact ⟨hc, hk, hst⟩
      | cons frame stack =>
          obtain ⟨here, frames, origins, notes⟩ := t
          cases frames with
          | nil => cases hstack
          | cons p ps => exact settled_unwind hk.2 hst hc hk.1

/-! ## Sessions -/

namespace Session

variable {limit : Option Nat} {now : ClockReading} {texts : List (List Stmt)} {t : Trail}
  {m : Machine}

/-- At every moment all that the machine holds is ready. -/
theorem Moment.settled (h : Moment limit now texts t m) :
    Settled texts t.code m.state.store t m := by
  induction h with
  | first =>
      refine ⟨trivial, trivial, ?_⟩
      obtain ⟨-, -, -, -, -, hbindings, hfields, harrays⟩ := storeOk_initial limit now
      have hsilent : ∀ i, (Trail.initial.world [] (State.initial limit now).store).code i = none :=
        fun _ => rfl
      exact ⟨fun hv => valueReady_of_silent hsilent (hbindings hv),
        fun hv => valueReady_of_silent hsilent (hfields hv),
        fun hv => valueReady_of_silent hsilent (harrays hv)⟩
  | move hm ih => exact ih.step hm.sound.read hm.coherent hm.stacked
  | aside _ _ _ _ ih => exact ⟨ih.control, ih.stack, ih.store⟩
  | @next texts t m source body m' hm _ hread hstart ih =>
      have hok := hm.coherent.store
      rw [store_start hstart]
      obtain ⟨body', events, hread', -, rfl⟩ := start_eq_ok hstart
      cases hread.symm.trans hread'
      have hready : Ready (texts ++ [body]) m.state.store (Excused none) [texts.length]
          Context.program.sites Context.program.scopes State.globals := by
        refine ⟨hok.origins ▸ Trail.sites_lt hok.outermost, fun k f scope n _ hscope hn => ?_⟩
        cases k with
        | zero =>
            cases hscope
            cases hn
        | succ k => cases hscope
      refine ⟨trivial, ⟨frameReady_sequence (visitAt_last texts body) rfl hready, trivial⟩, ?_⟩
      have honly := ih.store.imp fun _ hv =>
        hv.mono (visitAt_append [body]) List.prefix_rfl (Store.Lasts.refl m.state.store)
      show (events.foldl State.note (conclude m).2).store.Only _
      rw [store_note, state_conclude, store_concluded]
      exact honly

end Session

end Lox
