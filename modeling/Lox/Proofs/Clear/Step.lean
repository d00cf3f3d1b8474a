/-
# A move keeps a machine clear
-/
import Lox.Proofs.Clear
import Lox.Proofs.Coherent.Step

namespace Lox

/-! ## Moves -/

section
variable {base : EnvironmentId → String → Prop} {blames : String → Prop} {texts : List (List Stmt)}
  {t : Trail} {stack : List Frame} {s : State}

/-- A machine that has defined nothing and is to define nothing. -/
theorem clear_of_idle {m : Machine} {bound : EnvironmentId} (h : m.Idle stack)
    (hk : StackClear base s.store bound stack) (hle : bound ≤ m.state.store.environments.size)
    (hs : ∀ env n, env < bound → m.state.store.binds env n = true → s.store.binds env n = true) :
    m.Clear base blames := by
  obtain ⟨⟨new, hstack, hnew⟩, hdue, hspares⟩ := h
  refine ⟨fun e n he hn => ?_, hdue ▸ .none, ?_⟩
  · rw [he] at hspares
    exact absurd hn (hspares n)
  · rw [hstack]
    exact (hk.mono hle hs).append hnew

/-- A move that defines nothing, from a machine that is to define nothing. -/
theorem clear_of_idle_step {m : Machine} {bound : EnvironmentId} (h : m.step.Idle stack)
    (hdue : m.due = none) (hk : StackClear base m.state.store bound stack)
    (hle : bound ≤ m.state.store.environments.size) : m.step.Clear base blames :=
  clear_of_idle (s := m.state) h hk (hle.trans m.size_le_step) fun _ _ henv hn =>
    (Machine.binds_of_step (Nat.lt_of_lt_of_le henv hle) hn).resolve_right fun ⟨_, hx, _⟩ =>
      nomatch hdue.symm.trans hx

theorem clear_yield {r : Except RuntimeError Value}
    (hk : StackClear base s.store s.store.environments.size stack) (hr : Spares r) :
    (Machine.yield r stack s).Clear base blames := by
  cases r with
  | ok v => exact clear_of_idle (Machine.idle_value v) hk (Nat.le_refl _) fun _ _ _ => id
  | error e => exact clear_of_idle (Machine.idle_fail hr) hk (Nat.le_refl _) fun _ _ _ => id

/-- A declaration is done, or fails because the name was there before. -/
theorem clear_doneWith {env : EnvironmentId} {x : Token} {bound : EnvironmentId}
    {r : Except RuntimeError Store} (hk : StackClear base s.store bound stack)
    (hle : bound ≤ s.store.environments.size)
    (hdue : DueClear base s.store (some (env, x)) stack)
    (hblames : s.store.binds env x.lexeme = true → blames x.lexeme)
    (hr : s.store.Adding env x r) : (Machine.doneWith r stack s).Clear base blames := by
  cases r with
  | ok store =>
      obtain ⟨hsize, hadded⟩ := hr
      refine ⟨fun _ _ he => (nomatch he), .none, ?_⟩
      exact hk.define (hle.trans (Nat.le_of_eq hsize.symm)) hdue fun e n _ => hadded e n
  | error e =>
      obtain ⟨rfl, hb⟩ := hr
      refine ⟨fun e n he hn => ?_, .none, hk.mono hle fun _ _ _ => id⟩
      cases he
      cases hn
      exact hblames hb

/-! ## Calls -/

/-- Parameters that are all different and not there are all added. -/
theorem bindArguments_new {store : Store} {env : EnvironmentId} {ps : List Token}
    (hnone : ∀ p ∈ ps, store.binds env p.lexeme = false) (hnodup : (ps.map Token.lexeme).Nodup)
    (vs : List Value) : ∃ store', Machine.bindArguments store env ps vs = (store', none) ∧
      store'.environments.size = store.environments.size ∧
      ∀ e n, store'.binds e n = true →
        store.binds e n = true ∨ e = env ∧ ∃ p ∈ ps, p.lexeme = n := by
  induction ps generalizing store vs with
  | nil => exact ⟨store, by simp only [Machine.bindArguments], rfl, fun e n => .inl⟩
  | cons p ps ih =>
      obtain ⟨hp, hps⟩ := List.forall_mem_cons.mp hnone
      obtain ⟨hne, hnodup⟩ := List.nodup_cons.mp hnodup
      cases vs with
      | nil => exact ⟨store, by simp only [Machine.bindArguments], rfl, fun e n => .inl⟩
      | cons v vs =>
          have hdefine : store.define env p v = .ok (store.put env p.lexeme v) :=
            Store.define_eq_ok.mpr ⟨hp, rfl⟩
          have hleft : ∀ q ∈ ps, (store.put env p.lexeme v).binds env q.lexeme = false := by
            intro q hq
            rw [Bool.eq_false_iff]
            intro hb
            rcases Store.binds_of_put hb with hold | ⟨-, heq⟩
            · exact Bool.eq_false_iff.mp (hps q hq) hold
            · exact hne (List.mem_map.mpr ⟨q, hq, heq⟩)
          obtain ⟨store', hrest, hsize, hadded⟩ := ih hleft hnodup vs
          refine ⟨store', ?_, hsize.trans (Store.size_put ..), fun e n hn => ?_⟩
          · simp only [Machine.bindArguments, hdefine]
            exact hrest
          · rcases hadded e n hn with hb | ⟨rfl, q, hq, rfl⟩
            · rcases Store.binds_of_put hb with hold | ⟨rfl, rfl⟩
              · exact .inl hold
              · exact .inr ⟨rfl, p, List.mem_cons_self, rfl⟩
            · exact .inr ⟨rfl, q, List.mem_cons_of_mem p hq, rfl⟩

section
variable (accepted : ∀ body ∈ texts, Accepted body) (hread : ∀ body ∈ texts, WasRead body)
include accepted hread

/-- The parameters of a call meet nothing, and the body is clear. -/
theorem clear_enter (hk : StackClear base s.store s.store.environments.size stack) {f : Closure}
    (arguments : List Value) (hclosure : ClosureOk (t.world texts s.store) f) :
    (Machine.enter f arguments stack s).Clear base blames := by
  obtain ⟨q, L, ⟨-, c, kind, d, hv, hd, -⟩, -⟩ := hclosure
  replace hv : visitAt texts q = some ⟨c, .function kind d⟩ := hv
  have hworded : WordedDecl d := visitAt_worded hread hv
  have herrors := visitAt_errors accepted hv
  obtain ⟨keyword, name, params, body⟩ := d
  simp only [Visit.errors, Resolve.function, Findings.errors_append,
    List.append_eq_nil_iff] at herrors
  obtain ⟨-, hnodup⟩ := Scopes.distinct_of_withParams (σ := [] :: c.scopes) nofun herrors.1
  obtain ⟨store, hbind, hsize, hadded⟩ := bindArguments_new
    (fun p _ => Store.binds_child s.store f.environment p.lexeme) hnodup arguments
  have hparams : f.declaration.params = params := by
    rw [← hd]
    rfl
  have hbody : f.declaration.body = (c.body q kind params).stmts body := by
    rw [← hd]
    rfl
  have henter : Machine.enter f arguments stack s =
      ⟨.done, .sequence f.declaration.body s.store.environments.size :: .functionBody f :: stack,
        { s with store := store }⟩ := by
    unfold Machine.enter
    rw [hparams]
    dsimp only
    rw [show (s.store.child f.environment).1 = s.store.environments.size from rfl, hbind]
  have hne : (c.body q kind params).scopes ≠ [] := by
    intro hnil
    have hlength := (Scopes.grows_withParams ([] :: c.scopes) params).length
    rw [show (Scopes.withParams ([] :: c.scopes) params).1 = [] from hnil] at hlength
    cases hlength
  have hlisted : Listed base store f.declaration.body s.store.environments.size
      (c.body q kind params).scopes := by
    refine ⟨⟨_, body, hbody.symm, herrors.2, ?_⟩, hne, fun n hn => ?_⟩
    · cases hworded with
      | mk _ _ hbody => exact hbody
    · rcases hadded _ n hn with hold | ⟨-, p, hp, rfl⟩
      · exact absurd hold (Bool.eq_false_iff.mp (Store.binds_child s.store f.environment n))
      · exact .inl (Scopes.isSome_here?_withParams (σ := [] :: c.scopes) nofun hp)
  have hgrown : s.store.environments.size < store.environments.size :=
    Nat.lt_of_lt_of_eq (Nat.lt_succ_self _)
      ((Store.size_newEnvironment ..).symm.trans hsize.symm)
  rw [henter]
  refine ⟨fun _ _ he => (nomatch he), .none, ⟨hgrown, _, hlisted⟩, .none, trivial, .none, ?_⟩
  refine hk.mono (Nat.le_refl _) fun env n henv hn => ?_
  rcases hadded env n hn with hold | ⟨rfl, -⟩
  · exact Store.binds_of_newEnvironment henv hold
  · exact absurd henv (Nat.lt_irrefl _)

variable (hok : StoreOk texts t s.store)
  (hk : StackClear base s.store s.store.environments.size stack)
include hok hk

theorem clear_construct {c : Class} (arguments : List Value)
    (hclass : ClassOk (t.world texts s.store) c) :
    (Machine.construct c arguments stack s).Clear base blames := by
  have hnew := hok.newInstance c
  unfold Machine.construct
  cases hinit : c.findMethod? FunctionDecl.initializerName with
  | none =>
      exact clear_of_idle (Machine.idle_value _) hk (Nat.le_refl _) fun _ _ _ => id
  | some init =>
      obtain ⟨hgrown, hclosure⟩ := hnew.ok.bindMethod (i := (s.store.newInstance c).1)
        (hnew.world ▸ hclass _ init hinit) (hnew.world ▸ hclass)
      have hstack : StackClear base
          ((s.store.newInstance c).2.bindMethod init (s.store.newInstance c).1).2
          ((s.store.newInstance c).2.bindMethod init (s.store.newInstance c).1).2.environments.size
          (.constructed (s.store.newInstance c).1 :: stack) := by
        refine ⟨trivial, .none, hk.mono ?_ fun env n henv hn => ?_⟩
        · exact Nat.le_trans (Nat.le_succ _) (Nat.le_of_eq (Store.size_newEnvironment ..).symm)
        · exact Store.binds_of_newEnvironment (s := (s.store.newInstance c).2) henv hn
      exact clear_enter (s := { s with store := _ }) accepted hread hstack arguments hclosure

theorem clear_invoke {c : Callable} (arguments : List Value)
    (hvalue : ValueOk (t.world texts s.store) (.callable c)) :
    (Machine.invoke c arguments stack s).Clear base blames := by
  cases c with
  | function f => exact clear_enter (s := s.note _) accepted hread hk arguments hvalue
  | «class» c => exact clear_construct (s := s.note _) accepted hread hok hk arguments hvalue
  | native n =>
      exact clear_yield (s := (s.note _).tick) hk (usual_native n s.now s.store arguments).spares

theorem clear_apply {callee : Value} (arguments : List Value) (paren : Token)
    (hvalue : ValueOk (t.world texts s.store) callee) :
    (Machine.apply callee arguments paren stack s).Clear base blames := by
  have hfail : ∀ e : RuntimeError, (∀ n, e.fault ≠ .alreadyDefined n) →
      (Machine.fail e stack s).Clear base blames := fun e he =>
    clear_of_idle (Machine.idle_fail he) hk (Nat.le_refl _) fun _ _ _ => id
  have hcall : StackClear base s.store s.store.environments.size (.activeCall paren :: stack) :=
    ⟨trivial, .none, hk⟩
  unfold Machine.apply
  split
  · split
    · exact hfail _ nofun
    · split
      · exact hfail _ nofun
      · exact clear_invoke (s := { s with callDepth := s.callDepth + 1 }) accepted hread hok
          hcall arguments hvalue
  · exact hfail _ nofun

theorem clear_applyNext {callee : Value} (earlier : List Value) (paren : Token)
    (later : List Expr) (env : EnvironmentId)
    (hvalue : ValueOk (t.world texts s.store) callee) :
    (Machine.applyNext callee earlier paren later env stack s).Clear base blames := by
  cases later with
  | nil => exact clear_apply accepted hread hok hk _ paren hvalue
  | cons e es =>
      exact clear_of_idle
        (Machine.idle_await (.argument callee earlier paren es env) trivial e env) hk
        (Nat.le_refl _) fun _ _ _ => id

end

/-! ## Statements -/

theorem Store.Kept.binds_below {new : EnvironmentId → String → Prop} {store store' : Store}
    (h : store.Kept new (fun _ _ => False) store') {env : EnvironmentId} {n : String}
    (henv : env < store.environments.size) (hb : store'.binds env n = true) :
    store.binds env n = true := by
  rcases h.added hb with hold | hnew | hnone
  · exact hold
  · exact absurd henv (Nat.not_lt_of_le hnew)
  · exact hnone.elim

/-- The statements of a scope whose environment holds nothing yet. -/
theorem clear_sequence {c : Context} {body : List Stmt} (env : EnvironmentId)
    (hk : StackClear base s.store s.store.environments.size stack)
    (herrors : (Resolve.stmts c.surroundings c.scopes body).2.2.errors = [])
    (hworded : ∀ st ∈ body, WordedStmt st) (hne : c.scopes ≠ []) :
    Machine.Clear base blames ⟨.done, .sequence (c.stmts body) (s.store.child env).1 :: stack,
      { s with store := (s.store.child env).2 }⟩ := by
  have hgrown : s.store.environments.size < (s.store.child env).2.environments.size :=
    Nat.lt_of_lt_of_eq (Nat.lt_succ_self _) (Store.size_newEnvironment ..).symm
  have hlisted : Listed base (s.store.child env).2 (c.stmts body) s.store.environments.size
      c.scopes :=
    ⟨⟨_, body, rfl, herrors, hworded⟩, hne, fun n hn =>
      absurd hn (Bool.eq_false_iff.mp (Store.binds_child s.store env n))⟩
  refine ⟨fun _ _ he => (nomatch he), .none, ⟨hgrown, c.scopes, hlisted⟩, .none, ?_⟩
  exact hk.mono (Nat.le_refl _) fun _ _ henv hn => Store.binds_of_newEnvironment henv hn

section
variable (hk : StackClear base s.store s.store.environments.size stack)
include hk

/-- Leaves the frame of a declaration and looks at what it waits for. -/
theorem clear_await (frame : Frame) (hframe : ∀ bound, FrameClear base s.store bound frame)
    (hbound : ∀ bound, frame.bound bound = bound) (hdue : DueClear base s.store frame.due stack)
    (e : Expr) (env : EnvironmentId) :
    Machine.Clear base blames ⟨.evaluate e env, frame :: stack, s⟩ :=
  ⟨fun _ _ he => (nomatch he), .none, hframe _, hdue, (hbound _).symm ▸ hk⟩

theorem clear_finishClass {name : Token} {env scope : EnvironmentId} {store : Store}
    (superclass : Option Class) (ms : List FunctionDecl)
    (hdue : DueClear base s.store (some (env, name)) stack)
    (hblames : s.store.binds env name.lexeme = true → blames name.lexeme)
    (hstore : s.store.Kept (fun _ _ => False) (fun _ _ => False) store) :
    (Machine.finishClass name superclass ms env scope store stack s).Clear base blames := by
  have hmade : s.store.Kept (fun _ _ => False) (fun _ _ => False)
      (Machine.makeMethods store scope [] ms).2.newIdentity.2 :=
    (hstore.trans (Machine.kept_makeMethods store scope [] ms)).trans
      (Store.kept_of_environments rfl)
  have hbelow : ∀ e n, e < s.store.environments.size →
      (Machine.makeMethods store scope [] ms).2.newIdentity.2.binds e n = true →
        s.store.binds e n = true := fun _ _ => hmade.binds_below
  have henv : env < s.store.environments.size := hdue.lt hk
  exact clear_doneWith (s := { s with store := _, events := _ })
    (hk.mono (Nat.le_refl _) hbelow) hmade.size (hdue.mono hk hbelow)
    (fun hb => hblames (hbelow env _ henv hb)) (Store.adding_define ..)

theorem clear_defineClass {name : Token} {env : EnvironmentId} (superclass : Option Class)
    (ms : List FunctionDecl) (hdue : DueClear base s.store (some (env, name)) stack)
    (hblames : s.store.binds env name.lexeme = true → blames name.lexeme) :
    (Machine.defineClass name superclass ms env stack s).Clear base blames := by
  cases superclass with
  | none =>
      rw [Machine.defineClass_none]
      exact clear_finishClass hk none ms hdue hblames .refl
  | some c =>
      rw [Machine.defineClass_some]
      exact clear_finishClass hk (some c) ms hdue hblames (Store.kept_newEnvironment s.store _ _)

theorem clear_execute {p : Place} {stmt : Stmt} {env : EnvironmentId}
    (accepted : ∀ body ∈ texts, Accepted body) (hread : ∀ body ∈ texts, WasRead body)
    (hdue : DueClear base s.store (stmt.declares.map (env, ·)) stack)
    (hblames : ∀ x, stmt.declares = some x → s.store.binds env x.lexeme = true →
      blames x.lexeme)
    (h : StmtAt (t.world texts s.store) p stmt env stack) :
    (Machine.execute stmt env stack s).Clear base blames := by
  obtain ⟨c, st₀, hv, rfl, -, -⟩ := h
  replace hv : visitAt texts p = some ⟨c, .stmt st₀⟩ := hv
  have hworded : WordedStmt st₀ := visitAt_worded hread hv
  have herrors := visitAt_errors accepted hv
  have hidle : ∀ {m : Machine}, m.Idle stack → m.state = s → m.Clear base blames := by
    rintro m hm rfl
    exact clear_of_idle hm hk (Nat.le_refl _) fun _ _ _ => id
  rw [c.declares_stmt] at hdue hblames
  cases st₀ with
  | print e => exact hidle (Machine.idle_await .print trivial _ env) rfl
  | expression e => exact hidle (Machine.idle_await .discard trivial _ env) rfl
  | varDecl name e =>
      cases e with
      | none =>
          exact clear_doneWith hk (Nat.le_refl _) hdue (hblames name rfl) (Store.adding_define ..)
      | some e =>
          exact clear_await hk (.varDecl name env) (fun _ => trivial) (fun _ => rfl) hdue _ env
  | letDecl name e =>
      exact clear_await hk (.letDecl name env) (fun _ => trivial) (fun _ => rfl) hdue _ env
  | block body =>
      cases hworded with
      | block hbody =>
          exact clear_sequence (c := c.push (.block p)) env hk herrors hbody nofun
  | branch condition onTrue onFalse =>
      cases hworded with
      | branch _ _ htrue _ hfalse =>
          refine hidle (Machine.idle_await (.branch _ _ env) ⟨?_, ?_⟩ _ env) rfl
          · exact (c.declares_stmt onTrue).trans htrue
          · intro st hst
            cases onFalse with
            | none => cases hst
            | some onFalse =>
                cases hst
                exact ((c.after onTrue).declares_stmt onFalse).trans (hfalse _ rfl)
  | whileLoop condition body step =>
      cases hworded with
      | whileLoop _ _ hnone _ =>
          exact hidle (Machine.idle_await (.loopTest _ _ _ env)
            ((c.looping.declares_stmt body).trans hnone) _ env) rfl
  | functionDecl d =>
      have hname : ((c.declared d).function .function d).name = d.name :=
        Resolve.name_function ..
      rw [c.stmt_functionDecl]
      unfold Machine.execute
      dsimp only
      rw [hname]
      cases hd : d.name with
      | none => exact clear_of_idle Machine.idle_done hk (Nat.le_refl _) fun _ _ _ => id
      | some name =>
          rw [show Stmt.declares (.functionDecl d) = some name from hd] at hdue
          exact clear_doneWith (s := { s with store := s.store.newIdentity.2 })
            (hk.mono (Nat.le_refl _) fun _ _ _ => id) (Nat.le_refl _)
            (hdue.mono hk fun _ _ _ => id) (hblames name hd) (Store.adding_define ..)
  | classDecl name e ms =>
      cases e with
      | none => exact clear_defineClass hk none _ hdue (hblames name rfl)
      | some e =>
          exact clear_await hk (.superclass name _ _ env) (fun _ => trivial)
            (fun _ => rfl) hdue _ env
  | returnWith keyword v =>
      cases v with
      | none => exact hidle ⟨⟨[], rfl, List.forall_mem_nil _⟩, rfl, trivial⟩ rfl
      | some v => exact hidle (Machine.idle_await .returnWith trivial _ env) rfl
  | breakLoop keyword | continueLoop keyword =>
      exact hidle ⟨⟨[], rfl, List.forall_mem_nil _⟩, rfl, trivial⟩ rfl
  | moduleDecl name body =>
      cases hworded with
      | moduleDecl _ hbody =>
          simp only [Visit.errors, Resolve.stmt, Findings.errors_append,
            List.append_eq_nil_iff] at herrors
          have hmodule : StackClear base s.store s.store.environments.size
              (.moduleBody name (s.store.child env).1 env :: stack) := ⟨trivial, hdue, hk⟩
          exact clear_sequence (c := c.members p) env hmodule herrors.1 hbody nofun

end

/-! ## Frames -/

/-- The next statement of a list declares what is in none of its scope; it is in the scope
of those that come after it. -/
theorem clear_next {st : Stmt} {later : List Stmt} {env : EnvironmentId}
    (hframe : FrameClear base s.store s.store.environments.size (.sequence (st :: later) env))
    (hk : StackClear base s.store env stack) :
    Machine.Clear base blames ⟨.execute st env, .sequence later env :: stack, s⟩ := by
  obtain ⟨hlt, σ, ⟨⟨u, sts, hsts, herrors, hworded⟩, hinside, hnames⟩⟩ := hframe
  cases sts with
  | nil => cases hsts
  | cons st₀ sts =>
      cases hsts
      simp only [Resolve.stmts, Findings.errors_append, List.append_eq_nil_iff] at herrors
      obtain ⟨hst, hsts⟩ := herrors
      obtain ⟨-, hworded⟩ := List.forall_mem_cons.mp hworded
      -- the resolver is somewhere with these surroundings and these scopes
      let c : Context := ⟨u, [], σ⟩
      have hgrows : σ.Grows (c.after st₀).scopes := Resolve.grows_stmt u σ st₀
      have hafter : (c.after st₀).scopes ≠ [] := fun hnil =>
        hinside (List.length_eq_zero_iff.mp (hgrows.length.symm.trans (congrArg List.length hnil)))
      have hlisted : Listed base s.store ((c.after st₀).stmts sts) env (c.after st₀).scopes :=
        ⟨⟨u, sts, rfl, hsts, hworded⟩, hafter, fun n hn =>
          (hnames n hn).imp_left (Scopes.isSome_here?_of_grows hgrows)⟩
      refine ⟨fun _ _ he => (by cases he), fun e x hx => ?_, ⟨hlt, _, hlisted⟩, .none, hk⟩
      obtain ⟨y, hy, hpair⟩ := Option.map_eq_some_iff.mp hx
      cases hpair
      replace hy : st₀.declares = some x := (c.declares_stmt st₀).symm.trans hy
      refine ⟨_, stack, _, rfl, hlisted, Context.here?_after (c := c) hinside hy, fun hb => ?_⟩
      rcases hnames _ hb with hhere | hbase
      · rw [Context.here?_of_declares (c := c) hy hst] at hhere
        cases hhere
      · exact hbase

section
variable {frame : Frame}
  (hframe : FrameClear base s.store s.store.environments.size frame)
  (hk : StackClear base s.store (frame.bound s.store.environments.size) stack)
include hframe hk

theorem clear_resume {p : Place} {v : Value} (accepted : ∀ body ∈ texts, Accepted body)
    (hread : ∀ body ∈ texts, WasRead body) (hok : StoreOk texts t s.store)
    (htakes : frame.takesValue = true) (hdue : DueClear base s.store frame.due stack)
    (hblames : ∀ env x, frame.due = some (env, x) → s.store.binds env x.lexeme = true →
      blames x.lexeme)
    (hv : ValueOk (t.world texts s.store) v)
    (hf : FrameOk (t.world texts s.store) p stack frame) :
    (Machine.resume v frame stack s).Clear base blames := by
  have hidle : (Machine.resume v frame stack s).Idle stack → frame.due = none →
      (Machine.resume v frame stack s).Clear base blames := fun hidle hnone =>
    clear_of_idle_step (m := ⟨.value v, frame :: stack, s⟩) hidle hnone hk (Frame.bound_le hframe)
  cases frame with
  | sequence | loopBody | moduleBody | functionBody => cases htakes
  | varDecl name env =>
      exact clear_doneWith hk (Nat.le_refl _) hdue (hblames env name rfl) (Store.adding_define ..)
  | letDecl name env =>
      exact clear_doneWith hk (Nat.le_refl _) hdue (hblames env name rfl)
        (Store.adding_defineReadOnly ..)
  | superclass name site ms env =>
      unfold Machine.resume
      dsimp only
      split
      · exact clear_defineClass hk _ ms hdue (hblames env name rfl)
      · exact clear_of_idle (Machine.idle_fail nofun) hk (Nat.le_refl _) fun _ _ _ => id
  | callee paren es env => exact clear_applyNext accepted hread hok hk [] paren es env hv
  | argument callee earlier paren later env =>
      exact clear_applyNext accepted hread hok hk _ paren later env hf.1
  | _ => exact hidle (Machine.idle_resume v hframe (fun _ _ _ he => (nomatch he))
      (fun _ _ _ _ _ he => (nomatch he))) rfl

theorem clear_proceed (htakes : frame.takesValue = false)
    (hdue : DueClear base s.store frame.due stack)
    (hblames : ∀ env x, frame.due = some (env, x) → s.store.binds env x.lexeme = true →
      blames x.lexeme) :
    (Machine.proceed frame stack s).Clear base blames := by
  have hle := Frame.bound_le hframe
  have hidle : (Machine.proceed frame stack s).Idle stack → frame.due = none →
      (Machine.proceed frame stack s).Clear base blames := fun hidle hnone =>
    clear_of_idle_step (m := ⟨.done, frame :: stack, s⟩) hidle hnone hk hle
  cases frame with
  | sequence later env =>
      cases later with
      | nil => exact hidle Machine.idle_done rfl
      | cons st later => exact clear_next hframe hk
  | loopBody condition body step env =>
      exact hidle (Machine.idle_loopNext condition hframe step env) rfl
  | moduleBody name members env =>
      exact clear_doneWith (s := s.note _) hk (Nat.le_refl _) hdue (hblames env name rfl)
        (Store.adding_defineReadOnly ..)
  | functionBody f => exact hidle (Machine.idle_yield (spares_result ..)) rfl
  | _ => cases htakes

theorem clear_unwind {signal : Signal}
    (hfault : ∀ e n, signal = .failure e → e.fault = .alreadyDefined n → blames n) :
    (Machine.unwind signal frame stack s).Clear base blames := by
  have hle := Frame.bound_le hframe
  by_cases hfailure : ∃ e, signal = .failure e
  · obtain ⟨e, rfl⟩ := hfailure
    obtain ⟨e', s', hstep, hsame, hstore⟩ :=
      Machine.unwind_failure stack s e frame
    rw [hstep]
    refine ⟨fun d n hd hn => ?_, .none, ?_⟩
    · cases hd
      exact hfault e n rfl (hsame ▸ hn)
    · rw [hstore]
      exact hk.mono hle fun _ _ _ => id
  · refine clear_of_idle_step (m := ⟨.unwind signal, frame :: stack, s⟩)
      (Machine.idle_unwind (fun e he => hfailure ⟨e, he⟩) ?_) rfl hk hle
    rintro condition body step env rfl
    exact hframe

end

/-! ## The machine as a whole -/

/-- A move keeps a machine clear.  A name that it meets was in `base`. -/
theorem Machine.Clear.step {m : Machine} (h : m.Clear base blames)
    (accepted : ∀ body ∈ texts, Accepted body) (hread : ∀ body ∈ texts, WasRead body)
    (hm : Coherent texts t m) (hstacked : m.Stacked)
    (hblames : ∀ env x, m.due = some (env, x) → m.state.store.binds env x.lexeme = true →
      blames x.lexeme) : m.step.Clear base blames := by
  obtain ⟨control, stack, s⟩ := m
  obtain ⟨hfault, hdue, hk⟩ := h
  cases control with
  | evaluate e env =>
      exact clear_of_idle_step (m := ⟨.evaluate e env, stack, s⟩) (Machine.idle_evaluate e env) rfl
        hk (Nat.le_refl _)
  | execute st env =>
      refine clear_execute hk accepted hread hdue (fun x hx => hblames env x ?_) hm.control
      show st.declares.map (env, ·) = some (env, x)
      rw [hx]
      rfl
  | value v =>
      cases stack with
      | nil => exact ⟨hfault, hdue, hk⟩
      | cons frame stack =>
          obtain ⟨hframe, hwaits, hk⟩ := hk
          obtain ⟨hv, hf, hok⟩ := hm
          cases hp : t.frames with
          | nil =>
              rw [hp] at hf
              exact hf.elim
          | cons p ps =>
              rw [hp] at hf
              exact clear_resume hframe hk accepted hread hok hstacked.control hwaits hblames hv
                hf.1
  | done =>
      cases stack with
      | nil => exact ⟨hfault, hdue, hk⟩
      | cons frame stack =>
          exact clear_proceed hk.1 hk.2.2 hstacked.control hk.2.1 hblames
  | unwind signal =>
      cases stack with
      | nil => exact ⟨hfault, hdue, hk⟩
      | cons frame stack =>
          refine clear_unwind hk.1 hk.2.2 fun e n he => ?_
          subst he
          exact hfault e n rfl

end

end Lox
