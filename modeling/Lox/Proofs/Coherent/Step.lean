/-
# A move keeps a machine coherent

One lemma for each function of the machine, in the order of `Lox.Machine`: from a
coherent store and a coherent stack, and from what the function is given, its
machine is coherent with the trail that the like-named function of `Trail`
leaves.  `Coherent.step` puts them together.

Only two places need that the texts were accepted: a `return` was visited inside
a function, and a `break` or `continue` inside a loop, so that their signals are
caught.
-/
import Lox.Proofs.Coherent.Result
import Lox.Proofs.Machine

namespace Lox

/-! ## What the resolver keeps -/

namespace Resolve

theorem length_exprs (s : Surroundings) (σ : Scopes) (es : List Expr) :
    (exprs s σ es).1.length = es.length := by
  induction es with
  | nil => rfl
  | cons e es ih => exact congrArg (· + 1) ih

theorem length_stmts (s : Surroundings) (σ : Scopes) (sts : List Stmt) :
    (stmts s σ sts).1.length = sts.length := by
  induction sts generalizing σ with
  | nil => rfl
  | cons st sts ih => exact congrArg (· + 1) (ih _)

theorem length_methods (s : Surroundings) (σ : Scopes) (ds : List FunctionDecl) :
    (methods s σ ds).1.length = ds.length := by
  induction ds with
  | nil => rfl
  | cons d ds ih => exact congrArg (· + 1) ih

end Resolve

/-! ## Children -/

section
variable {texts : List (List Stmt)} {t : Trail} {s : Store} {p : Place} {c : Context}
  {env : EnvironmentId} {stack : List Frame}

/-- A child that is visited in the same scopes as its parent. -/
theorem exprAt_child {e : Expr} {v : Visit} {i : Nat} (hv : visitAt texts p = some v)
    (hi : v.child p i = some ⟨c, .expr e⟩) (hL : (t.world texts s).sites env = some c.sites) :
    ExprAt (t.world texts s) (i :: p) (c.expr e) env :=
  ⟨c, e, (visitAt_cons hv i).trans hi, rfl, hL⟩

theorem stmtAt_child {st : Stmt} {v : Visit} {i : Nat} (hv : visitAt texts p = some v)
    (hi : v.child p i = some ⟨c, .stmt st⟩) (hL : (t.world texts s).sites env = some c.sites)
    (hc : Catches c.surroundings stack) :
    StmtAt (t.world texts s) (i :: p) (c.stmt st) env stack :=
  ⟨c, st, (visitAt_cons hv i).trans hi, rfl, hL, hc⟩

theorem exprsAt_children {es : List Expr} {v : Visit} (hv : visitAt texts p = some v)
    (hi : ∀ {i w}, Visit.operand c es i = some w → v.child p i = some w)
    (hL : (t.world texts s).sites env = some c.sites) :
    ExprsAt (t.world texts s) p (c.exprs es) env :=
  ⟨c, es, fun {i _} h => (visitAt_cons hv i).trans (hi h), rfl, hL⟩

theorem stmtsAt_children {sts : List Stmt} {v : Visit} (hv : visitAt texts p = some v)
    (hi : ∀ {i}, v.child p i = Visit.statement c sts i)
    (hL : (t.world texts s).sites env = some c.sites) (hc : Catches c.surroundings stack) :
    StmtsAt (t.world texts s) p (c.stmts sts) env stack :=
  ⟨c, sts, fun {i _} h => (visitAt_cons hv i).trans (hi.trans h), rfl, hL, hc⟩

end

theorem Visit.operand_head (c : Context) (e : Expr) (es : List Expr) :
    Visit.operand c (e :: es) (es.length + 1) = some ⟨c, .expr e⟩ := by
  rw [Visit.operand, if_pos rfl]

theorem Visit.method_head (c : Context) (d : FunctionDecl) (ds : List FunctionDecl) :
    Visit.method c (d :: ds) (ds.length + 1) = some ⟨c, .function d.methodKind d⟩ := by
  rw [Visit.method, if_pos rfl]

theorem Visit.statement_head (c : Context) (st : Stmt) (sts : List Stmt) :
    Visit.statement c (st :: sts) sts.length = some ⟨c, .stmt st⟩ := by
  rw [Visit.statement, if_pos rfl]

section
variable {w : World} {p : Place} {env : EnvironmentId} {stack : List Frame}

/-- The next operand, and those after it. -/
theorem ExprsAt.split {e : Expr} {es : List Expr} (h : ExprsAt w p (e :: es) env) :
    ExprAt w ((es.length + 1) :: p) e env ∧ ExprsAt w p es env := by
  obtain ⟨c, es₀, hv, he, hL⟩ := h
  cases es₀ with
  | nil => cases he
  | cons e₀ es₀ =>
      cases he
      refine ⟨⟨c, e₀, hv ?_, rfl, hL⟩, c, es₀, fun hi => hv (operand_tail hi), rfl, hL⟩
      rw [Resolve.length_exprs]
      exact Visit.operand_head c e₀ es₀

/-- The next statement, and those after it. -/
theorem StmtsAt.split {st : Stmt} {sts : List Stmt} (h : StmtsAt w p (st :: sts) env stack) :
    StmtAt w (sts.length :: p) st env (.sequence sts env :: stack) ∧
      StmtsAt w p sts env stack := by
  obtain ⟨c, sts₀, hv, he, hL, hc⟩ := h
  cases sts₀ with
  | nil => cases he
  | cons st₀ sts₀ =>
      cases he
      refine ⟨⟨c, st₀, hv ?_, rfl, hL, ⟨hc.returning, hc.looping⟩⟩,
        c.after st₀, sts₀, fun hi => hv (statement_tail hi), rfl, hL, hc⟩
      rw [Resolve.length_stmts]
      exact Visit.statement_head c st₀ sts₀

/-- The next method, and those after it. -/
theorem MethodsAt.split {d : FunctionDecl} {ds : List FunctionDecl}
    (h : MethodsAt w p (d :: ds) env) :
    (∃ c L d₀, w.visit ((ds.length + 1) :: p) = some ⟨c, .function d₀.methodKind d₀⟩ ∧
      c.function d₀.methodKind d₀ = d ∧ c.sites = .receiver p :: L ∧ w.sites env = some L) ∧
      MethodsAt w p ds env := by
  obtain ⟨c, L, ds₀, hv, he, hc, hL⟩ := h
  cases ds₀ with
  | nil => cases he
  | cons d₀ ds₀ =>
      cases he
      refine ⟨⟨c, L, d₀, hv ?_, rfl, hc, hL⟩, c, L, ds₀, fun hi => hv (method_tail hi), rfl,
        hc, hL⟩
      rw [Resolve.length_methods]
      exact Visit.method_head c d₀ ds₀

end

/-! ## What the resolver makes of a node -/

namespace Context

variable (c : Context)

theorem expr_function (p : Place) (d : FunctionDecl) :
    c.expr (.function d) = .function ((c.lambda p d).function .function d) := by
  cases hd : d.name <;> simp only [expr, Resolve.expr, function, lambda, hd]; rfl

theorem expr_receiver (keyword : Token) (depth : Option Nat) :
    ∃ depth', c.expr (.receiver keyword depth) = .receiver keyword depth' ∧
      (depth' = depth ∨ depth' = (c.scopes.refer keyword depth false).1) := by
  cases h : c.surroundings.inClass <;> simp [expr, Resolve.expr, h]

theorem expr_superMethod (keyword method : Token) (depth : Option Nat) :
    ∃ depth', c.expr (.superMethod keyword method depth) =
      .superMethod keyword method depth' ∧
      (depth' = depth ∨ depth' = (c.scopes.refer keyword depth false).1) := by
  cases h : c.surroundings.inClass <;> simp [expr, Resolve.expr, h]

theorem stmt_functionDecl (d : FunctionDecl) :
    c.stmt (.functionDecl d) = .functionDecl ((c.declared d).function .function d) := by
  cases hd : d.name <;> simp only [stmt, Resolve.stmt, function, declared, hd]; rfl

end Context

/-! ## Where the notes of a trail leave it -/

namespace Trail

@[simp] theorem frames_makeMethods (t : Trail) (ds : List FunctionDecl) :
    (t.makeMethods ds).frames = t.frames := by
  induction ds generalizing t with
  | nil => rfl
  | cons d ds ih =>
      cases hd : d.name <;> simp only [makeMethods, hd, ih]
      rfl

end Trail

/-! ## Results -/

section
variable {texts : List (List Stmt)} {t : Trail} {stack : List Frame} {s : State}

/-- A move after which the store says the same. -/
theorem coherent_of_steady {control : Control} {store : Store}
    (hk : StackOk (t.world texts s.store) stack t.frames) (h : Steady texts t s.store store)
    (hc : ControlOk (t.world texts s.store) t.here stack control) :
    Coherent texts t ⟨control, stack, { s with store := store }⟩ :=
  ⟨h.world ▸ hc, h.world ▸ hk, h.ok⟩

/-- A move that makes something. -/
theorem coherent_of_grown {t' : Trail} {control : Control} {store : Store}
    (hk : StackOk (t.world texts s.store) stack t.frames) (h : Grown texts t s.store t' store)
    (frames : t'.frames = t.frames)
    (hc : ControlOk (t'.world texts store) t'.here stack control) :
    Coherent texts t' ⟨control, stack, { s with store := store }⟩ :=
  ⟨hc, frames ▸ hk.mono h.le, h.ok⟩

section
variable (hs : StoreOk texts t s.store) (hk : StackOk (t.world texts s.store) stack t.frames)
include hs hk

theorem coherent_fail {e : RuntimeError} (he : e.fault.Ordinary (t.world texts s.store)) :
    Coherent texts t (Machine.fail e stack s) :=
  ⟨he, hk, hs⟩

theorem coherent_value {v : Value} (hv : ValueOk (t.world texts s.store) v) :
    Coherent texts t ⟨.value v, stack, s⟩ :=
  ⟨hv, hk, hs⟩

theorem coherent_done : Coherent texts t ⟨.done, stack, s⟩ :=
  ⟨trivial, hk, hs⟩

/-- Leaves a frame and looks at a child. -/
theorem coherent_await {i : Nat} {e : Expr} {env : EnvironmentId} {frame : Frame}
    (he : ExprAt (t.world texts s.store) (i :: t.here) e env)
    (hf : FrameOk (t.world texts s.store) t.here stack frame) :
    Coherent texts (t.await i) ⟨.evaluate e env, frame :: stack, s⟩ :=
  ⟨he, ⟨hf, hk⟩, hs.moved⟩

theorem coherent_yield {r : Except RuntimeError Value}
    (hr : Expected (t.world texts s.store) (ValueOk (t.world texts s.store)) r) :
    Coherent texts t (Machine.yield r stack s) := by
  cases r with
  | ok v => exact coherent_value hs hk hr
  | error e => exact coherent_fail hs hk hr

theorem coherent_yieldWith {v : Value} {r : Except RuntimeError Store}
    (hv : ValueOk (t.world texts s.store) v)
    (hr : Expected (t.world texts s.store) (Steady texts t s.store) r) :
    Coherent texts t (Machine.yieldWith v r stack s) := by
  cases r with
  | ok store => exact coherent_of_steady hk hr hv
  | error e => exact coherent_fail hs hk hr

theorem coherent_doneWith {r : Except RuntimeError Store}
    (hr : Expected (t.world texts s.store) (Steady texts t s.store) r) :
    Coherent texts t (Machine.doneWith r stack s) := by
  cases r with
  | ok store => exact coherent_of_steady hk hr trivial
  | error e => exact coherent_fail hs hk hr

end

/-! ## Calls -/

theorem steady_bindArguments {s : Store} (hs : StoreOk texts t s) (env : EnvironmentId)
    {vs : List Value} (hvs : ∀ v ∈ vs, ValueOk (t.world texts s) v) (ps : List Token) :
    Steady texts t s (Machine.bindArguments s env ps vs).1 ∧
      ∀ e, (Machine.bindArguments s env ps vs).2 = some e →
        e.fault.Ordinary (t.world texts s) := by
  induction ps generalizing s vs with
  | nil =>
      simp only [Machine.bindArguments]
      exact ⟨Steady.refl hs, fun e he => by cases he⟩
  | cons p ps ih =>
      cases vs with
      | nil =>
          simp only [Machine.bindArguments]
          exact ⟨Steady.refl hs, fun e he => by cases he⟩
      | cons v vs =>
          have hput := hs.define (hvs v List.mem_cons_self) env p
          simp only [Machine.bindArguments]
          cases hd : s.define env p v with
          | error e =>
              rw [hd] at hput
              refine ⟨Steady.refl hs, fun e' he' => ?_⟩
              cases he'
              exact hput
          | ok s' =>
              rw [hd] at hput
              have hvs' : ∀ u ∈ vs, ValueOk (t.world texts s') u := fun u hu => by
                rw [hput.world]
                exact hvs u (List.mem_cons_of_mem v hu)
              obtain ⟨hrest, hfault⟩ := ih hput.ok hvs'
              exact ⟨hput.trans hrest, hput.world ▸ hfault⟩

section
variable (hs : StoreOk texts t s.store) (hk : StackOk (t.world texts s.store) stack t.frames)
include hs hk

theorem coherent_enter {f : Closure} {arguments : List Value}
    (hf : ClosureOk (t.world texts s.store) f)
    (hvs : ∀ v ∈ arguments, ValueOk (t.world texts s.store) v) :
    Coherent texts (t.enter f arguments s.store) (Machine.enter f arguments stack s) := by
  have hf' := hf
  obtain ⟨q, L, hr, hL⟩ := hf
  have hq := StoreOk.codeOf hr
  have hnew := hs.newEnvironment ⟨[], [], some f.environment⟩ (.call q) rfl hL
    (fun n v hv => by cases hv)
  have hin := hs.sites_newEnvironment ⟨[], [], some f.environment⟩ (.call q) rfl hL
  obtain ⟨hbound, hfault⟩ := steady_bindArguments hnew.ok s.store.environments.size
    (fun v hv => (hvs v hv).mono hnew.le) f.declaration.params
  have hgrown := hnew.trans hbound.grown
  obtain ⟨-, c, kind, d, hv, hd, hc⟩ := hr
  unfold Trail.enter Machine.enter
  simp only [Store.child, hq]
  generalize hb : Machine.bindArguments (s.store.newEnvironment ⟨[], [], some f.environment⟩).2
    (s.store.newEnvironment ⟨[], [], some f.environment⟩).1 f.declaration.params arguments = b
  have hb' : Machine.bindArguments (s.store.newEnvironment ⟨[], [], some f.environment⟩).2
    s.store.environments.size f.declaration.params arguments = b := hb
  rw [hb'] at hbound hgrown hfault
  obtain ⟨store, r⟩ := b
  cases r with
  | some e =>
      refine coherent_of_grown hk hgrown rfl ?_
      have he := hfault e rfl
      rw [← hbound.world] at he
      exact he
  | none =>
      refine ⟨trivial, ⟨?_, hf'.mono hgrown.le, hk.mono hgrown.le⟩, hgrown.ok.moved⟩
      have hbody : f.declaration.body = (c.body q kind d.params).stmts d.body := by
        rw [← hd]
        cases d
        rfl
      have hp : (t.make (.call q)).codeOf f = q := hq
      rw [hbody, hp]
      refine stmtsAt_children hv rfl ?_ ⟨fun _ => rfl, nofun⟩
      show (Trail.world texts (t.make (.call q)) store).sites _ = _
      rw [hbound.world]
      subst hc
      exact hin

theorem coherent_construct {c : Class} {arguments : List Value}
    (hc : ClassOk (t.world texts s.store) c)
    (hvs : ∀ v ∈ arguments, ValueOk (t.world texts s.store) v) :
    Coherent texts (t.construct c arguments s.store) (Machine.construct c arguments stack s) := by
  have hnew := hs.newInstance c
  unfold Trail.construct Machine.construct
  cases hinit : c.findMethod? FunctionDecl.initializerName with
  | none => exact coherent_of_steady hk hnew hc
  | some init =>
      obtain ⟨hgrown, hok⟩ := hnew.ok.bindMethod (i := (s.store.newInstance c).1)
        (hnew.world ▸ hc _ init hinit) (hnew.world ▸ hc)
      have hle := hnew.grown.trans hgrown
      have hstack : StackOk ((t.bind init).world texts _)
          (.constructed (s.store.newInstance c).1 :: stack) (t.here :: t.frames) :=
        ⟨hc.mono hle.le, hk.mono hle.le⟩
      exact coherent_enter (t := (t.bind init).push t.here) (s := { s with store := _ })
        hgrown.ok.moved hstack hok fun v hv => (hvs v hv).mono hle.le

theorem coherent_invoke {c : Callable} {arguments : List Value}
    (hc : ValueOk (t.world texts s.store) (.callable c))
    (hvs : ∀ v ∈ arguments, ValueOk (t.world texts s.store) v) :
    Coherent texts (t.invoke c arguments s.store) (Machine.invoke c arguments stack s) := by
  cases c with
  | function f => exact coherent_enter (s := s.note _) hs hk hc hvs
  | «class» c => exact coherent_construct (s := s.note _) hs hk hc hvs
  | native n =>
      exact coherent_yield (s := (s.note _).tick) hs hk
        ((usual_native n _ _ arguments).expected fun _ => Value.Inert.valueOk)

theorem coherent_apply {callee : Value} {arguments : List Value} (paren : Token)
    (hc : ValueOk (t.world texts s.store) callee)
    (hvs : ∀ v ∈ arguments, ValueOk (t.world texts s.store) v) :
    Coherent texts (t.apply callee arguments s)
      (Machine.apply callee arguments paren stack s) := by
  unfold Trail.apply Machine.apply
  cases callee with
  | callable c =>
      by_cases ha : c.arity ≠ arguments.length
      · simp only [if_pos ha]
        exact coherent_fail hs hk trivial
      by_cases hd : maxCallDepth ≤ s.callDepth
      · simp only [if_neg ha, if_pos hd]
        exact coherent_fail hs hk trivial
      · simp only [if_neg ha, if_neg hd]
        have hstack : StackOk (t.world texts s.store) (.activeCall paren :: stack)
            (t.here :: t.frames) := ⟨trivial, hk⟩
        exact coherent_invoke (t := t.push t.here) (s := { s with callDepth := s.callDepth + 1 })
          hs.moved hstack hc hvs
  | _ => exact coherent_fail hs hk trivial

theorem coherent_applyNext {callee : Value} {earlier : List Value} (paren : Token)
    {later : List Expr} {env : EnvironmentId}
    (hc : ValueOk (t.world texts s.store) callee)
    (hvs : ∀ v ∈ earlier, ValueOk (t.world texts s.store) v)
    (hes : ExprsAt (t.world texts s.store) t.here later env) :
    Coherent texts (t.applyNext callee earlier later s)
      (Machine.applyNext callee earlier paren later env stack s) := by
  cases later with
  | nil =>
      exact coherent_apply hs hk paren hc fun v hv => hvs v (List.mem_reverse.mp hv)
  | cons e es =>
      obtain ⟨he, hes⟩ := hes.split
      exact coherent_await hs hk he ⟨hc, hvs, hes⟩

/-! ## Expressions -/

theorem coherent_arrayNext (bracket : Token) (size : Option Nat) {earlier : List Value}
    {later : List Expr} {env : EnvironmentId}
    (hvs : ∀ v ∈ earlier, ValueOk (t.world texts s.store) v)
    (hes : ExprsAt (t.world texts s.store) t.here later env) :
    Coherent texts (t.arrayNext later)
      (Machine.arrayNext bracket size earlier later env stack s) := by
  cases later with
  | cons e es =>
      obtain ⟨he, hes⟩ := hes.split
      exact coherent_await hs hk he ⟨hvs, hes⟩
  | nil =>
      have helements := usual_arrayElements size earlier.reverse bracket
      unfold Trail.arrayNext Machine.arrayNext
      cases ha : arrayElements size earlier.reverse bracket with
      | error e =>
          rw [ha] at helements
          exact coherent_fail hs hk helements.ordinary
      | ok elements =>
          rw [ha] at helements
          refine coherent_of_steady hk (hs.newArray fun i v hv => ?_) trivial
          rcases helements i v hv with hgiven | rfl
          · exact hvs v (List.mem_reverse.mp hgiven)
          · trivial

theorem coherent_lambda {c : Context} {d : FunctionDecl} {env : EnvironmentId}
    (hv : visitAt texts t.here = some ⟨c, .expr (.function d)⟩)
    (hL : (t.world texts s.store).sites env = some c.sites) :
    Coherent texts (t.lambda ((c.lambda t.here d).function .function d))
      (Machine.lambda ((c.lambda t.here d).function .function d) env stack s) := by
  have hchild : visitAt texts (0 :: t.here) =
      some ⟨c.lambda t.here d, .function .function d⟩ := visitAt_cons hv 0
  have hname : ((c.lambda t.here d).function .function d).name = d.name :=
    Resolve.name_function ..
  unfold Trail.lambda Machine.lambda
  rw [hname]
  cases hd : d.name with
  | none =>
      have hsites : (c.lambda t.here d).sites = c.sites := by simp only [Context.lambda, hd]
      have hid := hs.newIdentity (0 :: t.here)
      refine coherent_of_grown hk hid rfl ⟨0 :: t.here, c.sites, ?_, hid.le.sites hL⟩
      exact hsites ▸ hs.runsIn_newClosure hchild env false
  | some name =>
      have hsites : (c.lambda t.here d).sites = .selfName t.here :: c.sites := by
        simp only [Context.lambda, hd]
        rfl
      have henv := hs.newEnvironment ⟨[], [], some env⟩ (.selfName t.here) rfl hL
        (fun n v hv => by cases hv)
      have hin := hs.sites_newEnvironment ⟨[], [], some env⟩ (.selfName t.here) rfl hL
      have hid := henv.ok.newIdentity (0 :: t.here)
      have hle := henv.trans hid
      have hf := henv.ok.runsIn_newClosure hchild s.store.environments.size false
      rw [hsites] at hf
      have hok : ValueOk _ (.callable (.function _)) :=
        ⟨0 :: t.here, .selfName t.here :: c.sites, hf, hid.le.sites hin⟩
      exact coherent_yieldWith (t := (t.make (.selfName t.here)).declare (0 :: t.here))
        (s := { s with store := _ }) hle.ok (hk.mono hle.le) hok
        (hle.ok.defineReadOnly hok _ name)

theorem coherent_superMethod {keyword method : Token} {depth : Option Nat}
    {env : EnvironmentId} (hd : Reaches (t.world texts s.store) s.store env depth) :
    Coherent texts (t.evaluate (.superMethod keyword method depth) env s)
      (Machine.evaluate (.superMethod keyword method depth) env stack s) := by
  have hr := expected_superMethod hs hd keyword method
  unfold Trail.evaluate Machine.evaluate
  dsimp only
  cases hm : Machine.superMethod s.store keyword method depth env with
  | error e =>
      rw [hm] at hr
      exact coherent_fail hs hk hr
  | ok r =>
      rw [hm] at hr
      obtain ⟨hgrown, hok⟩ := hs.bindMethod hr.1 hr.2
      exact coherent_of_grown hk hgrown rfl hok

theorem coherent_evaluate {e : Expr} {env : EnvironmentId}
    (h : ExprAt (t.world texts s.store) t.here e env) :
    Coherent texts (t.evaluate e env s) (Machine.evaluate e env stack s) := by
  obtain ⟨c, e₀, hv, rfl, hL⟩ := h
  replace hv : visitAt texts t.here = some ⟨c, .expr e₀⟩ := hv
  cases e₀ with
  | literal v =>
      refine coherent_value hs hk ?_
      cases v <;> trivial
  | grouping e => exact ⟨exprAt_child hv rfl hL, hk, hs.moved⟩
  | unary op e => exact coherent_await hs hk (exprAt_child hv rfl hL) trivial
  | binary l op r =>
      exact coherent_await hs hk (exprAt_child hv rfl hL) (exprAt_child hv rfl hL)
  | logical l op r =>
      exact coherent_await hs hk (exprAt_child hv rfl hL) (exprAt_child hv rfl hL)
  | «variable» name depth =>
      exact coherent_yield hs hk (expected_lookUp hs
        (reaches_of_refer hs hv hL (fun hf => hf _ _ hv) name false) name)
  | assign name v depth =>
      exact coherent_await hs hk (exprAt_child hv rfl hL) ⟨c, v, depth, hv, rfl, hL⟩
  | call callee paren es =>
      refine coherent_await hs hk (exprAt_child hv rfl hL) ?_
      refine exprsAt_children hv (fun {i w} hi => ?_) hL
      cases i with
      | zero => exact absurd (operand_pos hi) (Nat.lt_irrefl 0)
      | succ i => exact hi
  | get object name => exact coherent_await hs hk (exprAt_child hv rfl hL) trivial
  | set object name v =>
      exact coherent_await hs hk (exprAt_child hv rfl hL) (exprAt_child hv rfl hL)
  | receiver keyword depth =>
      obtain ⟨depth', he, hd⟩ := c.expr_receiver keyword depth
      rw [he]
      exact coherent_yield hs hk
        (expected_lookUp hs (reaches_of_keyword hs hv hL hd fun hf => hf _ _ hv) keyword)
  | superMethod keyword method depth =>
      obtain ⟨depth', he, hd⟩ := c.expr_superMethod keyword method depth
      rw [he]
      exact coherent_superMethod hs hk (reaches_of_keyword hs hv hL hd fun hf => hf _ _ hv)
  | function d =>
      rw [c.expr_function t.here]
      exact coherent_lambda hs hk hv hL
  | array bracket size es =>
      have hes : ExprsAt (t.world texts s.store) t.here (c.exprs es) env := by
        refine exprsAt_children hv (fun {i w} hi => ?_) hL
        cases i with
        | zero => exact absurd (operand_pos hi) (Nat.lt_irrefl 0)
        | succ i => exact hi
      cases size with
      | none => exact coherent_arrayNext hs hk bracket none nofun hes
      | some size => exact coherent_await hs hk (exprAt_child hv rfl hL) hes
  | index object bracket i =>
      exact coherent_await hs hk (exprAt_child hv rfl hL) (exprAt_child hv rfl hL)
  | setIndex object bracket i v =>
      exact coherent_await hs hk (exprAt_child hv rfl hL)
        ⟨exprAt_child hv rfl hL, exprAt_child hv rfl hL⟩

/-! ## Statements -/

theorem coherent_loop {condition : Expr} {body : Stmt} {step : Option Expr}
    {env : EnvironmentId}
    (h : LoopAt (t.world texts s.store) t.here condition body step env stack) :
    Coherent texts (t.await 0) (Machine.loop condition body step env stack s) :=
  coherent_await hs hk h.test h

theorem coherent_loopNext {condition : Expr} {body : Stmt} {step : Option Expr}
    {env : EnvironmentId}
    (h : LoopAt (t.world texts s.store) t.here condition body step env stack) :
    Coherent texts (t.loopNext step) (Machine.loopNext condition body step env stack s) := by
  cases step with
  | none => exact coherent_loop hs hk h
  | some e => exact coherent_await hs hk (h.next e rfl) h

omit hs hk in
theorem grown_makeMethods {s : Store} (hs : StoreOk texts t s) {env : EnvironmentId}
    {ds : List FunctionDecl} (hd : MethodsAt (t.world texts s) t.here ds env)
    (table : Table Closure)
    (ht : ∀ n f, table.get? n = some f → MethodOk (t.world texts s) f) :
    Grown texts t s (t.makeMethods ds) (Machine.makeMethods s env table ds).2 ∧
      ∀ n f, (Machine.makeMethods s env table ds).1.get? n = some f →
        MethodOk ((t.makeMethods ds).world texts (Machine.makeMethods s env table ds).2) f := by
  induction ds generalizing t s table with
  | nil => exact ⟨⟨hs, World.le_refl _⟩, ht⟩
  | cons d ds ih =>
      obtain ⟨⟨c, L, d₀, hv, rfl, hc, hL⟩, hds⟩ := hd.split
      unfold Trail.makeMethods Machine.makeMethods
      cases hname : (c.function d₀.methodKind d₀).name with
      | none => exact ih hs hds table ht
      | some name =>
          dsimp only
          generalize hq : (ds.length + 1) :: t.here = q at hv ⊢
          have hid := hs.newIdentity q
          have hnew := hs.runsIn_newClosure hv env (c.function d₀.methodKind d₀).isInitializer
          rw [hc] at hnew
          obtain ⟨hgrown, hok⟩ := ih (t := t.declare q) hid.ok (hds.mono hid.le)
            (table.set name.lexeme (s.newClosure (c.function d₀.methodKind d₀) env
              (c.function d₀.methodKind d₀).isInitializer).1)
            fun n f hf => by
              rw [Table.get?_set] at hf
              split at hf
              · cases hf
                exact ⟨t.here, ds.length + 1, L, hq ▸ hnew, hid.le.sites hL⟩
              · exact (ht n f hf).mono hid.le
          exact ⟨hid.trans hgrown, hok⟩

omit hs hk in
/-- A class whose methods are made in `scope`. -/
theorem coherent_finishClass {store : Store} (hs : StoreOk texts t store)
    (hk : StackOk (t.world texts store) stack t.frames) (name : Token)
    {superclass : Option Class} {ms : List FunctionDecl} (env : EnvironmentId)
    {scope : EnvironmentId} (hms : MethodsAt (t.world texts store) t.here ms scope)
    (hc : ∀ above, superclass = some above → ClassOk (t.world texts store) above) :
    Coherent texts (t.defineClass none ms)
      (Machine.finishClass name superclass ms env scope store stack s) := by
  obtain ⟨hmade, htable⟩ := grown_makeMethods hs hms [] nofun
  have hid := hmade.ok.newIdentity (t.makeMethods ms).here
  have hall := hmade.trans hid
  have hclass : ClassOk ((t.defineClass none ms).world texts
      (Machine.makeMethods store scope [] ms).2.newIdentity.2)
      ⟨(Machine.makeMethods store scope [] ms).2.newIdentity.1, name, superclass,
        (Machine.makeMethods store scope [] ms).1⟩ := by
    intro n f hf
    unfold Class.findMethod? at hf
    split at hf
    · cases hf
      exact (htable n f ‹_›).mono hid.le
    · split at hf
      · exact (hc _ rfl n f hf).mono hall.le
      · cases hf
  have hframes : (t.defineClass none ms).frames = t.frames := Trail.frames_makeMethods t ms
  exact coherent_doneWith (t := t.defineClass none ms) (s := { s with store := _ }.note _)
    hall.ok (hframes ▸ hk.mono hall.le) (hall.ok.define (v := .callable (.class _)) hclass env name)

/-- A class at a place where the resolver visited one. -/
theorem coherent_defineClass {name : Token} (superclass : Option Class) {e₀ : Option Expr}
    {ms₀ : List FunctionDecl} {c : Context} {env : EnvironmentId}
    (hv : visitAt texts t.here = some ⟨c, .stmt (.classDecl name e₀ ms₀)⟩)
    (hL : (t.world texts s.store).sites env = some c.sites)
    (hsome : superclass.isSome = e₀.isSome)
    (hc : ∀ above, superclass = some above → ClassOk (t.world texts s.store) above) :
    Coherent texts (t.defineClass superclass ((c.methods t.here name e₀).decls ms₀))
      (Machine.defineClass name superclass ((c.methods t.here name e₀).decls ms₀) env stack s) := by
  have hchild : ∀ {i w}, Visit.method (c.methods t.here name e₀) ms₀ i = some w →
      visitAt texts (i :: t.here) = some w := by
    intro i w hi
    rw [visitAt_cons hv i]
    cases i with
    | zero => exact absurd (method_pos hi) (Nat.lt_irrefl 0)
    | succ i => cases e₀ <;> exact hi
  cases e₀ with
  | none =>
      cases superclass with
      | some above => cases hsome
      | none =>
          exact coherent_finishClass hs hk name env
            ⟨c.methods t.here name none, c.sites, ms₀, hchild, rfl, rfl, hL⟩ hc
  | some e =>
      cases superclass with
      | none => cases hsome
      | some above =>
          have hbind : ∀ n v,
              Table.get? [(Machine.superName, Value.callable (.class above))] n = some v →
              ValueOk (t.world texts s.store) v := by
            intro n v hn
            simp only [Table.get?] at hn
            split at hn
            · cases hn
              exact hc above rfl
            · cases hn
          have henv := hs.newEnvironment
            ⟨[(Machine.superName, .callable (.class above))], [], some env⟩
            (.superclass t.here) rfl hL hbind
          have hin := hs.sites_newEnvironment
            ⟨[(Machine.superName, .callable (.class above))], [], some env⟩
            (.superclass t.here) rfl hL
          exact coherent_finishClass (t := t.make (.superclass t.here)) henv.ok
            (hk.mono henv.le) name env
            ⟨c.methods t.here name (some e), .superclass t.here :: c.sites, ms₀, hchild, rfl,
              rfl, hin⟩ fun u hu => (hc u hu).mono henv.le

theorem coherent_printValue (v : Value) :
    Coherent texts t (Machine.printValue v stack s) := by
  unfold Machine.printValue
  split
  · exact coherent_done (s := { s with output := _ }) hs hk
  · rename_i output _ _
    exact coherent_fail (s := { s with output := output }) hs hk trivial

omit hs hk in
/-- In a visit without a violation a `return` is inside a function. -/
theorem function_ne_none {c : Context} {keyword : Token} {v : Option Expr}
    (he : Visit.errors ⟨c, .stmt (.returnWith keyword v)⟩ = []) :
    c.surroundings.function ≠ .none := by
  simp only [Visit.errors, Resolve.stmt, Surroundings.atReturn, Findings.errors_append,
    List.append_eq_nil_iff] at he
  simpa using Findings.errors_when he.1.1

omit hs hk in
/-- A loop at a place where the resolver visited one. -/
theorem loopAt_of_visit {w : World} {condition : Expr} {body : Stmt} {step : Option Expr}
    {c : Context} {env : EnvironmentId} (hw : w = t.world texts s.store)
    (hv : visitAt texts t.here = some ⟨c, .stmt (.whileLoop condition body step)⟩)
    (hL : w.sites env = some c.sites) (hc : Catches c.surroundings stack) :
    LoopAt w t.here (c.expr condition) (c.looping.stmt body)
      (step.map (c.withScopes (c.looping.after body).scopes).expr) env stack := by
  subst hw
  refine ⟨exprAt_child hv rfl hL, ?_, ?_⟩
  · exact stmtAt_child (c := c.looping) hv rfl hL ⟨hc.returning, fun _ => rfl⟩
  · intro e he
    obtain ⟨e₀, rfl, rfl⟩ := Option.map_eq_some_iff.mp he
    exact exprAt_child (c := c.withScopes _) hv rfl hL

theorem coherent_execute {st : Stmt} {env : EnvironmentId}
    (accepted : ∀ body ∈ texts, Accepted body)
    (h : StmtAt (t.world texts s.store) t.here st env stack) :
    Coherent texts (t.execute st) (Machine.execute st env stack s) := by
  obtain ⟨c, st₀, hv, rfl, hL, hc⟩ := h
  replace hv : visitAt texts t.here = some ⟨c, .stmt st₀⟩ := hv
  have hclean := visitAt_errors accepted hv
  cases st₀ with
  | print e => exact coherent_await hs hk (exprAt_child hv rfl hL) trivial
  | expression e => exact coherent_await hs hk (exprAt_child hv rfl hL) trivial
  | varDecl name e =>
      cases e with
      | none =>
          exact coherent_doneWith hs hk (hs.define (v := .nil) trivial env name)
      | some e =>
          exact coherent_await hs hk
            (exprAt_child (c := c.withScopes (c.scopes.declare name.lexeme true)) hv rfl hL)
            ⟨c, some e, hv, hL⟩
  | letDecl name e =>
      exact coherent_await hs hk
        (exprAt_child (c := c.withScopes (c.scopes.declare name.lexeme false)) hv rfl hL)
        ⟨c, e, hv, hL⟩
  | block body =>
      have henv := hs.newEnvironment ⟨[], [], some env⟩ (.block t.here) rfl hL
        (fun n v hv => by cases hv)
      have hin := hs.sites_newEnvironment ⟨[], [], some env⟩ (.block t.here) rfl hL
      refine ⟨trivial, ⟨?_, hk.mono henv.le⟩, henv.ok.moved⟩
      exact stmtsAt_children (c := c.push (.block t.here)) hv rfl hin ⟨hc.returning, hc.looping⟩
  | branch condition onTrue onFalse =>
      refine coherent_await hs hk (exprAt_child hv rfl hL)
        ⟨stmtAt_child hv rfl hL hc, fun st hst => ?_⟩
      cases onFalse with
      | none => cases hst
      | some onFalse =>
          cases hst
          exact stmtAt_child (c := c.after onTrue) hv rfl hL hc
  | whileLoop condition body step =>
      have hloop := loopAt_of_visit rfl hv hL hc
      cases step <;> exact coherent_loop hs hk hloop
  | functionDecl d =>
      have hchild : visitAt texts (0 :: t.here) =
          some ⟨c.declared d, .function .function d⟩ := visitAt_cons hv 0
      have hsites : (c.declared d).sites = c.sites := by
        cases hd : d.name <;> simp only [Context.declared, hd]
        rfl
      have hid := hs.newIdentity (0 :: t.here)
      have hok : ClosureOk _ _ :=
        ⟨0 :: t.here, c.sites, hsites ▸ hs.runsIn_newClosure hchild env false, hid.le.sites hL⟩
      have hname : ((c.declared d).function .function d).name = d.name :=
        Resolve.name_function ..
      rw [c.stmt_functionDecl]
      unfold Machine.execute
      dsimp only
      rw [hname]
      cases d.name with
      | none => exact coherent_of_grown hk hid rfl trivial
      | some name =>
          exact coherent_doneWith (t := t.declare (0 :: t.here)) (s := { s with store := _ })
            hid.ok (hk.mono hid.le) (hid.ok.define (v := .callable (.function _)) hok env name)
  | classDecl name e ms =>
      cases e with
      | none => exact coherent_defineClass hs hk none hv hL rfl fun _ h => by cases h
      | some e =>
          exact coherent_await hs hk (exprAt_child (c := c.superclass name) hv rfl hL)
            ⟨c, e, ms, hv, rfl, hL⟩
  | returnWith keyword v =>
      have hcaught := hc.returning (function_ne_none hclean)
      cases v with
      | none => exact ⟨⟨trivial, hcaught⟩, hk, hs⟩
      | some v => exact coherent_await hs hk (exprAt_child hv rfl hL) hcaught
  | breakLoop keyword | continueLoop keyword =>
      have hloop : c.surroundings.inLoop = true := by
        simpa using Findings.errors_when hclean
      exact ⟨hc.looping hloop, hk, hs⟩
  | moduleDecl name body =>
      have henv := hs.newEnvironment ⟨[], [], some env⟩ (.members t.here) rfl hL
        (fun n v hv => by cases hv)
      have hin := hs.sites_newEnvironment ⟨[], [], some env⟩ (.members t.here) rfl hL
      refine ⟨trivial, ⟨?_, ⟨c, body, hv, henv.le.sites hL⟩, hk.mono henv.le⟩, henv.ok.moved⟩
      exact stmtsAt_children (c := c.members t.here) hv rfl hin ⟨hc.returning, fun h => by cases h⟩

/-! ## Frames -/

theorem coherent_get {v : Value} (hv : ValueOk (t.world texts s.store) v) (name : Token) :
    Coherent texts (t.resume v (.get name) s) (Machine.resume v (.get name) stack s) := by
  unfold Trail.resume Machine.resume
  cases v with
  | «instance» i =>
      simp only [Store.get]
      cases hp : s.store.property? i name.lexeme with
      | none => exact coherent_fail hs hk trivial
      | some property =>
          have hproperty := expected_property hs hv hp
          cases property with
          | field u => exact coherent_value hs hk hproperty
          | method m =>
              obtain ⟨hgrown, hok⟩ := hs.bindMethod hproperty (i := i) hv
              exact coherent_of_grown hk hgrown rfl hok
  | module m =>
      dsimp only
      cases hm : s.store.getLocal? m.environment name.lexeme with
      | none => exact coherent_fail hs hk trivial
      | some u => exact coherent_value hs hk (hs.bindings hm)
  | _ => exact coherent_fail hs hk trivial

theorem coherent_resume {v : Value} {frame : Frame} (hv : ValueOk (t.world texts s.store) v)
    (hf : FrameOk (t.world texts s.store) t.here stack frame) :
    Coherent texts (t.resume v frame s) (Machine.resume v frame stack s) := by
  cases frame with
  | unary op =>
      exact coherent_yield hs hk
        ((usual_applyUnary op v).expected fun _ => Value.Inert.valueOk)
  | binaryRight op right env => exact coherent_await hs hk hf hv
  | binary left op =>
      exact coherent_yield hs hk
        ((usual_applyBinary op left v).expected fun _ => Value.Inert.valueOk)
  | logical op right env =>
      unfold Trail.resume Machine.resume
      dsimp only
      split
      · exact coherent_value hs hk hv
      · exact ⟨hf, hk, hs.moved⟩
  | assign name depth env =>
      obtain ⟨c, v₀, depth₀, hvisit, rfl, hL⟩ := hf
      have hd := reaches_of_refer hs hvisit hL (fun hfresh => hfresh _ _ hvisit) name true
      exact coherent_yieldWith hs hk hv (hs.change hv hd name)
  | callee paren es env => exact coherent_applyNext hs hk paren hv nofun hf
  | argument callee earlier paren later env =>
      obtain ⟨hc, hvs, hes⟩ := hf
      exact coherent_applyNext hs hk paren hc (List.forall_mem_cons.mpr ⟨hv, hvs⟩) hes
  | get name => exact coherent_get hs hk hv name
  | setObject name e env =>
      cases v with
      | «instance» i => exact coherent_await hs hk hf trivial
      | module m => exact coherent_await hs hk hf trivial
      | _ => exact coherent_fail hs hk trivial
  | setField i name => exact coherent_of_steady hk (hs.setField hv i name.lexeme) hv
  | setMember m name =>
      unfold Trail.resume Machine.resume
      dsimp only
      split
      · exact coherent_fail hs hk trivial
      · split
        · exact coherent_of_steady hk (hs.assignLocal? hv ‹_›) hv
        · exact coherent_fail hs hk trivial
  | arraySize bracket es env =>
      unfold Trail.resume Machine.resume
      dsimp only
      have hsize := usual_arraySize v bracket
      cases hr : arraySize v bracket with
      | error e =>
          rw [hr] at hsize
          exact coherent_fail hs hk hsize.ordinary
      | ok n => exact coherent_arrayNext hs hk bracket (some n) nofun hf
  | arrayElement bracket size earlier later env =>
      obtain ⟨hvs, hes⟩ := hf
      exact coherent_arrayNext hs hk bracket size (List.forall_mem_cons.mpr ⟨hv, hvs⟩) hes
  | indexObject bracket i env =>
      unfold Trail.resume Machine.resume
      dsimp only
      have harray := usual_asArray v bracket
      cases hr : asArray v bracket with
      | error e =>
          rw [hr] at harray
          exact coherent_fail hs hk harray.ordinary
      | ok a => exact coherent_await hs hk hf trivial
  | index a bracket =>
      unfold Trail.resume Machine.resume
      dsimp only
      have hindex := usual_asIndex v (s.store.length a) bracket
      cases hr : asIndex v (s.store.length a) bracket with
      | error err =>
          rw [hr] at hindex
          exact coherent_fail hs hk hindex.ordinary
      | ok i =>
          dsimp only
          cases he : s.store.element? a i with
          | none => exact coherent_fail hs hk trivial
          | some u => exact coherent_value hs hk (hs.arrays he)
  | setIndexObject bracket i e env =>
      unfold Trail.resume Machine.resume
      dsimp only
      have harray := usual_asArray v bracket
      cases hr : asArray v bracket with
      | error err =>
          rw [hr] at harray
          exact coherent_fail hs hk harray.ordinary
      | ok a => exact coherent_await hs hk hf.1 hf.2
  | setIndexAt a bracket e env =>
      unfold Trail.resume Machine.resume
      dsimp only
      have hindex := usual_asIndex v (s.store.length a) bracket
      cases hr : asIndex v (s.store.length a) bracket with
      | error err =>
          rw [hr] at hindex
          exact coherent_fail hs hk hindex.ordinary
      | ok i => exact coherent_await hs hk hf trivial
  | setIndex a i bracket =>
      unfold Trail.resume Machine.resume
      dsimp only
      split
      · exact coherent_of_steady hk (hs.setElement? hv ‹_›) hv
      · exact coherent_fail hs hk trivial
  | print => exact coherent_printValue hs hk v
  | discard => exact coherent_done hs hk
  | varDecl name env => exact coherent_doneWith hs hk (hs.define hv env name)
  | letDecl name env =>
      exact coherent_doneWith hs hk (hs.defineReadOnly hv env name)
  | branch onTrue onFalse env =>
      unfold Trail.resume Machine.resume
      dsimp only
      split
      · exact ⟨hf.1, hk, hs.moved⟩
      · cases onFalse with
        | none => exact coherent_done hs hk
        | some st => exact ⟨hf.2 st rfl, hk, hs.moved⟩
  | loopTest condition body step env =>
      unfold Trail.resume Machine.resume
      dsimp only
      split
      · exact ⟨hf.once, ⟨hf, hk⟩, hs.moved⟩
      · exact coherent_done hs hk
  | loopStep condition body step env => exact coherent_loop hs hk hf
  | superclass name site ms env =>
      obtain ⟨c, e₀, ms₀, hvisit, rfl, hL⟩ := hf
      cases v with
      | callable callee =>
          cases callee with
          | «class» above =>
              refine coherent_defineClass hs hk (some above) hvisit hL rfl ?_
              intro u hu
              cases hu
              exact hv
          | _ => exact coherent_fail hs hk trivial
      | _ => exact coherent_fail hs hk trivial
  | returnWith => exact ⟨⟨hv, hf⟩, hk, hs⟩
  | constructed i => exact coherent_value hs hk hf
  | activeCall paren => exact coherent_value (s := { s with callDepth := s.callDepth - 1 }) hs hk hv
  | sequence | loopBody | moduleBody | functionBody => exact coherent_value hs hk hv

theorem coherent_proceed {frame : Frame}
    (hf : FrameOk (t.world texts s.store) t.here stack frame) :
    Coherent texts (t.proceed frame) (Machine.proceed frame stack s) := by
  cases frame with
  | sequence later env =>
      cases later with
      | nil => exact coherent_done hs hk
      | cons st later =>
          obtain ⟨hst, hlater⟩ := StmtsAt.split hf
          exact ⟨hst, ⟨hlater, hk⟩, hs.moved⟩
  | loopBody condition body step env => exact coherent_loopNext hs hk hf
  | moduleBody name members env =>
      exact coherent_doneWith (s := s.note _) hs hk
        (hs.defineReadOnly (v := .module _) trivial env name)
  | functionBody f => exact coherent_yield hs hk (expected_result hs f (v := .nil) trivial)
  | _ => exact coherent_done hs hk

/-- A signal that the top frame does not catch is caught further below. -/
theorem coherent_pass {signal : Signal} {frame : Frame}
    (hsignal : SignalOk (t.world texts s.store) (frame :: stack) signal)
    (hreturn : catchesReturn (frame :: stack) = true → catchesReturn stack = true)
    (hloop : catchesLoop (frame :: stack) = true → catchesLoop stack = true) :
    Coherent texts t ⟨.unwind signal, stack, s⟩ := by
  refine ⟨?_, hk, hs⟩
  cases signal with
  | failure e => exact hsignal
  | returning v => exact ⟨hsignal.1, hreturn hsignal.2⟩
  | breaking | continuing => exact hloop hsignal

theorem coherent_unwind {signal : Signal} {frame : Frame}
    (hsignal : SignalOk (t.world texts s.store) (frame :: stack) signal)
    (hf : FrameOk (t.world texts s.store) t.here stack frame) :
    Coherent texts (t.unwind signal frame) (Machine.unwind signal frame stack s) := by
  cases frame with
  | loopBody condition body step env =>
      cases signal with
      | continuing => exact coherent_loopNext hs hk hf
      | breaking => exact coherent_done hs hk
      | failure e => exact coherent_fail hs hk hsignal
      | returning v => exact ⟨hsignal, hk, hs⟩
  | functionBody f =>
      cases signal with
      | returning v => exact coherent_yield hs hk (expected_result hs f hsignal.1)
      | failure e => exact coherent_fail hs hk hsignal
      | breaking | continuing => cases hsignal
  | activeCall paren =>
      cases signal with
      | failure e =>
          refine coherent_fail (s := { s with callDepth := s.callDepth - 1 }) hs hk ?_
          unfold RuntimeError.orAt
          split <;> exact hsignal
      | returning v => cases hsignal.2
      | breaking | continuing => cases hsignal
  | sequence later env => exact coherent_pass hs hk hsignal id id
  | moduleBody name members env => exact coherent_pass hs hk hsignal id fun h => by cases h
  | _ => exact coherent_pass hs hk hsignal (fun h => by cases h) fun h => by cases h

end

end

/-! ## The machine as a whole -/

/-- A move keeps a machine coherent with its trail. -/
theorem Coherent.step {texts : List (List Stmt)} {t : Trail} {m : Machine}
    (accepted : ∀ body ∈ texts, Accepted body) (h : Coherent texts t m) :
    Coherent texts (t.step m) m.step := by
  obtain ⟨control, stack, s⟩ := m
  obtain ⟨hc, hk, hs⟩ := h
  cases control with
  | evaluate e env => exact coherent_evaluate hs hk hc
  | execute st env => exact coherent_execute hs hk accepted hc
  | value v =>
      cases stack with
      | nil => exact ⟨hc, hk, hs⟩
      | cons frame stack =>
          obtain ⟨here, frames, origins, code⟩ := t
          cases frames with
          | nil => cases hk
          | cons p ps => exact coherent_resume hs.moved hk.2 hc hk.1
  | done =>
      cases stack with
      | nil => exact ⟨hc, hk, hs⟩
      | cons frame stack =>
          obtain ⟨here, frames, origins, code⟩ := t
          cases frames with
          | nil => cases hk
          | cons p ps => exact coherent_proceed hs.moved hk.2 hk.1
  | unwind signal =>
      cases stack with
      | nil => exact ⟨hc, hk, hs⟩
      | cons frame stack =>
          obtain ⟨here, frames, origins, code⟩ := t
          cases frames with
          | nil => cases hk
          | cons p ps => exact coherent_unwind hs.moved hk.2 hc hk.1

end Lox
