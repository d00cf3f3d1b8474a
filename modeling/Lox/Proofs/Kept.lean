/-
# What a move keeps

A move adds to a store: environments, names, marks.  What an environment is
inside of and what is read-only it keeps, and with two exceptions it keeps what
names stand for: a value handed to an assignment and one handed to a member of a
module.  `Machine.kept_step` says exactly so, and `Trail.extends_step` that the
notes of the trail are kept too; so worlds grow from move to move.
-/
import Lox.Proofs.Coherent.Step
import Lox.Proofs.Due

namespace Lox

namespace Store

/-- Nothing that was there is lost or changed, only the names of `new` are marked,
and only those of `adds` are added to an environment that was there. -/
structure Kept (new adds : EnvironmentId → String → Prop) (s s' : Store) : Prop where
  size : s.environments.size ≤ s'.environments.size
  links : s.KeepsLinks s'
  names : ∀ {e n v}, s.getLocal? e n = some v → s'.getLocal? e n = some v
  marks : ∀ {e n}, s.isReadOnly e n = true → s'.isReadOnly e n = true
  marked : ∀ {e n}, s'.isReadOnly e n = true → s.isReadOnly e n = true ∨ new e n
  added : ∀ {e n}, s'.binds e n = true →
    s.binds e n = true ∨ s.environments.size ≤ e ∨ adds e n

variable {new adds adds' : EnvironmentId → String → Prop} {s s' s'' : Store}

theorem Kept.refl : Kept new adds s s :=
  ⟨Nat.le_refl _, fun _ _ => rfl, id, id, .inl, .inl⟩

theorem Kept.trans (h : Kept new adds s s') (h' : Kept new adds s' s'') : Kept new adds s s'' where
  size := Nat.le_trans h.size h'.size
  links e he := (h'.links e (Nat.lt_of_lt_of_le he h.size)).trans (h.links e he)
  names hv := h'.names (h.names hv)
  marks hm := h'.marks (h.marks hm)
  marked hm := (h'.marked hm).elim h.marked .inr
  added hb := by
    rcases h'.added hb with hb | hlt | hadds
    · exact h.added hb
    · exact .inr (.inl (Nat.le_trans h.size hlt))
    · exact .inr (.inr hadds)

/-- Names may be added to an environment that was not there. -/
theorem Kept.inside (h : Kept new adds s s')
    (hadds : ∀ e n, adds e n → s.environments.size ≤ e ∨ adds' e n) : Kept new adds' s s' :=
  ⟨h.size, h.links, h.names, h.marks, h.marked,
    fun hb => (h.added hb).imp_right fun hnew => hnew.elim .inl (hadds _ _)⟩

/-- Operations on anything but environments keep all of them. -/
theorem kept_of_environments (h : s'.environments = s.environments) : Kept new adds s s' := by
  have henv : ∀ e, s'.environment e = s.environment e := fun e => by simp only [environment, h]
  refine ⟨Nat.le_of_eq (congrArg Array.size h.symm), fun e _ => ?_, fun {e n v} hv => ?_,
    fun {e n} hm => ?_, fun {e n} hm => .inl ?_, fun {e n} hb => .inl ?_⟩
  · simp only [enclosing?, henv]
  · simpa only [getLocal?, henv] using hv
  · simpa only [isReadOnly, henv] using hm
  · simpa only [isReadOnly, henv] using hm
  · simpa only [binds, getLocal?, henv] using hb

theorem kept_newEnvironment (s : Store) (bindings : Table Value)
    (enclosing : Option EnvironmentId) :
    Kept new adds s (s.newEnvironment ⟨bindings, [], enclosing⟩).2 := by
  refine ⟨by simp, fun e he => ?_, fun {e n v} hv => ?_, fun {e n} hm => ?_,
    fun {e n} hm => .inl ?_, fun {e n} hb => ?_⟩
  · rw [enclosing?_newEnvironment, if_neg (Nat.ne_of_lt he)]
  · rw [getLocal?_newEnvironment, if_neg (Nat.ne_of_lt (lt_of_getLocal? hv)), hv]
  · rw [isReadOnly_newEnvironment, if_neg (Nat.ne_of_lt (lt_of_isReadOnly hm)), hm]
  · rw [isReadOnly_newEnvironment] at hm
    split at hm
    · exact absurd (of_decide_eq_true hm) List.not_mem_nil
    · exact hm
  · rw [binds, getLocal?_newEnvironment] at hb
    split at hb
    · rename_i heq
      exact .inr (.inl (Nat.le_of_eq heq.symm))
    · exact .inl hb

/-- A name that was not there is added. -/
theorem kept_put {e : EnvironmentId} {n : String} (h : s.binds e n = false) (ha : adds e n)
    (v : Value) : Kept new adds s (s.put e n v) := by
  refine ⟨by simp, fun f _ => by simp, fun {f m u} hu => ?_, fun hm => by simpa using hm,
    fun hm => .inl (by simpa using hm), fun {f m} hb => ?_⟩
  · rw [getLocal?_put, if_neg, hu]
    rintro ⟨rfl, -, rfl⟩
    simp [binds, hu] at h
  · rw [binds, getLocal?_put] at hb
    split at hb
    · rename_i heq
      obtain ⟨rfl, -, rfl⟩ := heq
      exact .inr (.inr ha)
    · exact .inl hb

theorem kept_protect (s : Store) {e : EnvironmentId} {n : String} (h : new e n) :
    Kept new adds s (s.protect e n) := by
  refine ⟨by simp, fun f _ => by simp, fun hu => by simpa using hu,
    fun hm => by rw [isReadOnly_protect, hm, Bool.or_true], fun {f m} hm => ?_,
    fun hb => .inl (by simpa [binds] using hb)⟩
  rw [isReadOnly_protect, Bool.or_eq_true] at hm
  refine hm.symm.imp_right fun hnew => ?_
  obtain ⟨rfl, -, rfl⟩ := of_decide_eq_true hnew
  exact h

theorem kept_define {e : EnvironmentId} {name : Token} {v : Value} (ha : adds e name.lexeme)
    (h : s.define e name v = .ok s') : Kept new adds s s' := by
  obtain ⟨hb, rfl⟩ := define_eq_ok.mp h
  exact kept_put hb ha v

theorem kept_defineReadOnly {e : EnvironmentId} {name : Token} {v : Value}
    (hn : new e name.lexeme) (ha : adds e name.lexeme)
    (h : s.defineReadOnly e name v = .ok s') : Kept new adds s s' := by
  obtain ⟨hb, rfl⟩ := defineReadOnly_eq_ok.mp h
  exact (kept_put hb ha v).trans (kept_protect _ hn)

theorem kept_bindMethod (s : Store) (m : Closure) (i : Instance) :
    Kept new adds s (s.bindMethod m i).2 :=
  (kept_newEnvironment s _ _).trans (kept_of_environments rfl)

theorem kept_get {i : Instance} {name : Token} {v : Value} (h : s.get i name = .ok (v, s')) :
    Kept new adds s s' := by
  unfold get at h
  cases hp : s.property? i name.lexeme with
  | none =>
      rw [hp] at h
      cases h
  | some p =>
      rw [hp] at h
      cases p with
      | field u =>
          cases h
          exact .refl
      | method m =>
          cases h
          exact kept_bindMethod ..

theorem kept_setElement? {a : ArrayId} {i : Nat} {v : Value}
    (h : s.setElement? a i v = some s') : Kept new adds s s' := by
  unfold setElement? at h
  split at h <;> cases h
  exact kept_of_environments rfl

end Store

/-! ## Moves -/

namespace Machine

open Store

variable {new adds : EnvironmentId → String → Prop} (stack : List Frame) (s : State)

theorem kept_yield (r : Except RuntimeError Value) :
    Kept new adds s.store (yield r stack s).state.store := by
  cases r <;> exact Kept.refl

theorem kept_yieldWith (v : Value) {r : Except RuntimeError Store}
    (h : ∀ store, r = .ok store → Kept new adds s.store store) :
    Kept new adds s.store (yieldWith v r stack s).state.store := by
  cases r with
  | ok store => exact h store rfl
  | error e => exact Kept.refl

theorem kept_doneWith {r : Except RuntimeError Store}
    (h : ∀ store, r = .ok store → Kept new adds s.store store) :
    Kept new adds s.store (doneWith r stack s).state.store := by
  cases r with
  | ok store => exact h store rfl
  | error e => exact Kept.refl

theorem kept_bindArguments (s : Store) {env : EnvironmentId} (ha : ∀ n, adds env n)
    (ps : List Token) (vs : List Value) : Kept new adds s (bindArguments s env ps vs).1 := by
  induction ps generalizing s vs with
  | nil =>
      simp only [bindArguments]
      exact Kept.refl
  | cons p ps ih =>
      cases vs with
      | nil =>
          simp only [bindArguments]
          exact Kept.refl
      | cons v vs =>
          simp only [bindArguments]
          cases hd : s.define env p v with
          | ok s' => exact (kept_define (ha _) hd).trans (ih s' vs)
          | error e => exact Kept.refl

theorem kept_enter (f : Closure) (arguments : List Value) :
    Kept new adds s.store (enter f arguments stack s).state.store := by
  have h : Kept new adds s.store (bindArguments (s.store.child f.environment).2
      (s.store.child f.environment).1 f.declaration.params arguments).1 := by
    have hbind : Kept new (fun e _ => e = s.store.environments.size) _ _ :=
      (kept_newEnvironment s.store [] (some f.environment)).trans
        (kept_bindArguments _ (fun _ => rfl) f.declaration.params arguments)
    exact hbind.inside fun e _ he => .inl (Nat.le_of_eq he.symm)
  unfold enter
  dsimp only
  split
  · rename_i hb
    rw [hb] at h
    exact h
  · rename_i hb
    rw [hb] at h
    exact h

theorem kept_construct (c : Class) (arguments : List Value) :
    Kept new adds s.store (construct c arguments stack s).state.store := by
  have hnew : Kept new adds s.store (s.store.newInstance c).2 := kept_of_environments rfl
  unfold construct
  cases c.findMethod? FunctionDecl.initializerName with
  | none => exact hnew
  | some init =>
      have hbind : Kept new adds _ _ :=
        kept_bindMethod (s.store.newInstance c).2 init (s.store.newInstance c).1
      exact (hnew.trans hbind).trans (kept_enter _ { s with store := _ } _ _)

theorem kept_invoke (c : Callable) (arguments : List Value) :
    Kept new adds s.store (invoke c arguments stack s).state.store := by
  cases c with
  | function f => exact kept_enter stack (s.note _) f arguments
  | «class» c => exact kept_construct stack (s.note _) c arguments
  | native n => exact kept_yield stack (s.note _).tick _

theorem kept_apply (callee : Value) (arguments : List Value) (paren : Token) :
    Kept new adds s.store (apply callee arguments paren stack s).state.store := by
  unfold apply
  split
  · split
    · exact Kept.refl
    · split
      · exact Kept.refl
      · exact kept_invoke _ { s with callDepth := s.callDepth + 1 } _ _
  · exact Kept.refl

theorem kept_applyNext (callee : Value) (earlier : List Value) (paren : Token)
    (later : List Expr) (env : EnvironmentId) :
    Kept new adds s.store (applyNext callee earlier paren later env stack s).state.store := by
  cases later with
  | nil => exact kept_apply stack s callee _ paren
  | cons e es => exact Kept.refl

theorem kept_arrayNext (bracket : Token) (size : Option Nat) (earlier : List Value)
    (later : List Expr) (env : EnvironmentId) :
    Kept new adds s.store (arrayNext bracket size earlier later env stack s).state.store := by
  cases later with
  | cons e es => exact Kept.refl
  | nil =>
      unfold arrayNext
      dsimp only
      split
      · exact kept_of_environments rfl
      · exact Kept.refl

theorem kept_lambda (d : FunctionDecl) (env : EnvironmentId)
    (hd : ∀ name, d.name = some name → new s.store.environments.size name.lexeme) :
    Kept new adds s.store (lambda d env stack s).state.store := by
  unfold lambda
  split
  · rename_i name hname
    have hnew : Kept new (fun e _ => e = s.store.environments.size) s.store
        (s.store.child env).2.newIdentity.2 :=
      (kept_newEnvironment s.store [] (some env)).trans (kept_of_environments rfl)
    refine (hnew.trans (kept_yieldWith stack { s with store := _ } _ fun store hstore => ?_)).inside
      fun e _ he => .inl (Nat.le_of_eq he.symm)
    exact kept_defineReadOnly (hd name hname) rfl hstore
  · exact kept_of_environments rfl

theorem kept_evaluate (e : Expr) (env : EnvironmentId)
    (hd : ∀ d name, e = .function d → d.name = some name →
      new s.store.environments.size name.lexeme) :
    Kept new adds s.store (evaluate e env stack s).state.store := by
  cases e with
  | «variable» | receiver => exact kept_yield ..
  | superMethod =>
      simp only [evaluate]
      split
      · exact kept_bindMethod ..
      · exact Kept.refl
  | function d => exact kept_lambda stack s d env fun name => hd d name rfl
  | array bracket size es =>
      cases size with
      | none => exact kept_arrayNext ..
      | some => exact Kept.refl
  | _ => exact Kept.refl

theorem kept_loopNext (condition : Expr) (body : Stmt) (step : Option Expr)
    (env : EnvironmentId) :
    Kept new adds s.store (loopNext condition body step env stack s).state.store := by
  cases step <;> exact Kept.refl

theorem kept_makeMethods (s : Store) (env : EnvironmentId) (table : Table Closure)
    (ds : List FunctionDecl) : Kept new adds s (makeMethods s env table ds).2 := by
  induction ds generalizing s table with
  | nil => exact Kept.refl
  | cons d ds ih =>
      have hid : Kept new adds s s.newIdentity.2 := kept_of_environments rfl
      cases hd : d.name with
      | none =>
          simp only [makeMethods, hd]
          exact ih s table
      | some name =>
          simp only [makeMethods, hd]
          exact hid.trans (ih s.newIdentity.2 _)

theorem kept_finishClass (name : Token) (superclass : Option Class) (ms : List FunctionDecl)
    (env scope : EnvironmentId) (store : Store) (ha : adds env name.lexeme) :
    Kept new adds store (finishClass name superclass ms env scope store stack s).state.store := by
  have hms : Kept new adds store (makeMethods store scope [] ms).2.newIdentity.2 :=
    (kept_makeMethods store scope [] ms).trans (kept_of_environments rfl)
  exact hms.trans (kept_doneWith stack { s with store := _, events := _ } fun _ => kept_define ha)

theorem kept_defineClass (name : Token) (superclass : Option Class) (ms : List FunctionDecl)
    (env : EnvironmentId) (ha : adds env name.lexeme) :
    Kept new adds s.store (defineClass name superclass ms env stack s).state.store := by
  cases superclass with
  | none =>
      rw [defineClass_none]
      exact kept_finishClass stack s name none ms env env s.store ha
  | some c =>
      rw [defineClass_some]
      exact (kept_newEnvironment s.store _ _).trans
        (kept_finishClass stack s name (some c) ms env _ _ ha)

theorem kept_printValue (v : Value) :
    Kept new adds s.store (printValue v stack s).state.store := by
  unfold printValue
  split <;> exact Kept.refl

theorem kept_execute (st : Stmt) (env : EnvironmentId)
    (ha : ∀ name, st.declares = some name → adds env name.lexeme) :
    Kept new adds s.store (execute st env stack s).state.store := by
  cases st with
  | varDecl name e =>
      cases e with
      | none => exact kept_doneWith stack s fun _ => kept_define (ha _ rfl)
      | some => exact Kept.refl
  | block | moduleDecl => exact kept_newEnvironment ..
  | functionDecl d =>
      have hid : Kept new adds s.store s.store.newIdentity.2 := kept_of_environments rfl
      simp only [execute]
      split
      · rename_i name hname
        exact hid.trans
          (kept_doneWith stack { s with store := _ } fun _ => kept_define (ha name hname))
      · exact hid
  | classDecl name e ms =>
      cases e with
      | none =>
          simp only [execute]
          exact kept_defineClass stack s _ _ _ _ (ha _ rfl)
      | some => exact Kept.refl
  | returnWith keyword e => cases e <;> exact Kept.refl
  | _ => exact Kept.refl

/-- A frame that is not there to change what a name stands for. -/
theorem kept_resume (v : Value) (frame : Frame)
    (hd : ∀ name env, frame = .letDecl name env → new env name.lexeme)
    (ha : ∀ name env, frame.due = some (env, name) → adds env name.lexeme)
    (assign : ∀ name depth env, frame ≠ .assign name depth env)
    (setMember : ∀ m name, frame ≠ .setMember m name) :
    Kept new adds s.store (resume v frame stack s).state.store := by
  cases frame with
  | assign name depth env => exact absurd rfl (assign name depth env)
  | setMember m name => exact absurd rfl (setMember m name)
  | unary | binary => exact kept_yield ..
  | callee | argument => exact kept_applyNext ..
  | varDecl name env => exact kept_doneWith stack s fun _ => kept_define (ha name env rfl)
  | letDecl name env =>
      exact kept_doneWith stack s fun _ => kept_defineReadOnly (hd name env rfl) (ha name env rfl)
  | arrayElement => exact kept_arrayNext ..
  | print => exact kept_printValue ..
  | setField => exact kept_of_environments rfl
  | setIndex a i bracket =>
      simp only [resume]
      split
      · exact kept_setElement? ‹_›
      · exact .refl
  | get name =>
      unfold resume
      dsimp only
      split
      · split
        · exact kept_get ‹_›
        · exact .refl
      · split <;> exact .refl
      · exact .refl
  | arraySize bracket es env =>
      unfold resume
      dsimp only
      split
      · exact kept_arrayNext ..
      · exact .refl
  | superclass name site ms env =>
      unfold resume
      dsimp only
      split
      · exact kept_defineClass stack s name _ ms env (ha name env rfl)
      · exact .refl
  | logical | setObject | indexObject | setIndexObject | setIndexAt | loopTest =>
      simp only [resume]
      split <;> exact .refl
  | index =>
      simp only [resume]
      split
      · split <;> exact .refl
      · exact .refl
  | branch =>
      simp only [resume]
      split
      · exact .refl
      · split <;> exact .refl
  | _ => exact .refl

theorem kept_proceed (frame : Frame)
    (hd : ∀ name members env, frame = .moduleBody name members env → new env name.lexeme)
    (ha : ∀ name env, frame.due = some (env, name) → adds env name.lexeme) :
    Kept new adds s.store (proceed frame stack s).state.store := by
  cases frame with
  | sequence later => cases later <;> exact Kept.refl
  | loopBody => exact kept_loopNext ..
  | moduleBody name members env =>
      exact kept_doneWith stack (s.note _) fun _ =>
        kept_defineReadOnly (hd name members env rfl) (ha name env rfl)
  | functionBody => exact kept_yield ..
  | _ => exact Kept.refl

theorem kept_unwind (signal : Signal) (frame : Frame) :
    Kept new adds s.store (unwind signal frame stack s).state.store := by
  cases frame with
  | loopBody =>
      cases signal with
      | continuing => exact kept_loopNext ..
      | _ => exact Kept.refl
  | functionBody =>
      cases signal with
      | returning => exact kept_yield ..
      | _ => exact Kept.refl
  | activeCall => cases signal <;> exact Kept.refl
  | _ => exact Kept.refl

/-! ## The machine as a whole -/

/-- The environment in which an assignment finds a name. -/
def target (s : Store) (name : Token) (depth : Option Nat) (env : EnvironmentId) :
    Option EnvironmentId :=
  match depth with
  | some d => s.ancestor? env d
  | none => s.holder? State.globals name.lexeme

theorem change_eq_ok {s s' : Store} {name : Token} {depth : Option Nat} {env : EnvironmentId}
    {v : Value} (h : change s name depth env v = .ok s') :
    ∃ e, target s name depth env = some e ∧ s.binds e name.lexeme = true ∧
      s' = s.put e name.lexeme v := by
  cases depth with
  | some d => exact assignAt_eq_ok.mp h
  | none =>
      obtain ⟨e, he, rfl⟩ := assign_eq_ok.mp h
      have hfind : (s.chain State.globals).find? (s.binds · name.lexeme) = some e := he
      have hb := List.find?_some hfind
      exact ⟨e, he, hb, rfl⟩

/-- The machine is about to mark the name `n` of `e` as read-only: it holds the
value of a `let` or of a lambda's own name, or is done with a module. -/
inductive Marks : Machine → EnvironmentId → String → Prop
  | lambda {d name env stack s} : d.name = some name →
      Marks ⟨.evaluate (.function d) env, stack, s⟩ s.store.environments.size name.lexeme
  | letDecl {v name env stack s} :
      Marks ⟨.value v, .letDecl name env :: stack, s⟩ env name.lexeme
  | moduleDecl {name members env stack s} :
      Marks ⟨.done, .moduleBody name members env :: stack, s⟩ env name.lexeme

/-- The machine is about to let the name `n` of `e`, which is there, stand for
`v`: by an assignment, or through a module that lets it be changed. -/
inductive Rebinds : Machine → EnvironmentId → String → Value → Prop
  | assign {v name depth env stack s e} : target s.store name depth env = some e →
      s.store.binds e name.lexeme = true →
      Rebinds ⟨.value v, .assign name depth env :: stack, s⟩ e name.lexeme v
  | setMember {v m name stack s} : s.store.isReadOnly m.environment name.lexeme = false →
      s.store.binds m.environment name.lexeme = true →
      Rebinds ⟨.value v, .setMember m name :: stack, s⟩ m.environment name.lexeme v

/-- The machine is about to add the name `n` to `e`, by a declaration. -/
def Adds (m : Machine) (e : EnvironmentId) (n : String) : Prop :=
  ∃ name, m.due = some (e, name) ∧ name.lexeme = n

/-- A move either changes what one name stands for, and nothing else of the
store, or keeps everything and adds at most one name to what was there. -/
theorem kept_step (m : Machine) :
    Kept m.Marks m.Adds m.state.store m.step.state.store ∨
      ∃ e n v, m.Rebinds e n v ∧ m.step.state.store = m.state.store.put e n v := by
  obtain ⟨control, stack, s⟩ := m
  cases control with
  | evaluate e env =>
      refine .inl (kept_evaluate stack s e env fun d name he hd => ?_)
      subst he
      exact .lambda hd
  | execute st env =>
      refine .inl (kept_execute stack s st env fun name hname => ⟨name, ?_, rfl⟩)
      simp only [due, Control.due, hname, Option.map_some]
  | value v =>
      cases stack with
      | nil => exact .inl .refl
      | cons frame stack =>
          by_cases ha : ∃ name depth env, frame = .assign name depth env
          · obtain ⟨name, depth, env, rfl⟩ := ha
            simp only [step, resume]
            cases hc : change s.store name depth env v with
            | error e => exact .inl .refl
            | ok store =>
                obtain ⟨e, he, hb, rfl⟩ := change_eq_ok hc
                exact .inr ⟨e, name.lexeme, v, .assign he hb, rfl⟩
          by_cases hm : ∃ m name, frame = .setMember m name
          · obtain ⟨m, name, rfl⟩ := hm
            simp only [step, resume]
            split
            · exact .inl .refl
            · rename_i hro
              split
              · rename_i store hstore
                obtain ⟨hb, rfl⟩ := assignLocal?_eq_some.mp hstore
                exact .inr ⟨_, _, v, .setMember (Bool.eq_false_iff.mpr hro) hb, rfl⟩
              · exact .inl .refl
          · refine .inl (kept_resume stack s v frame ?_
              (fun name env hdue => ⟨name, hdue, rfl⟩)
              (fun name depth env he => ha ⟨name, depth, env, he⟩)
              (fun m name he => hm ⟨m, name, he⟩))
            intro name env he
            subst he
            exact .letDecl
  | done =>
      cases stack with
      | nil => exact .inl .refl
      | cons frame stack =>
          refine .inl (kept_proceed stack s frame (fun name members env hf => ?_)
            fun name env hdue => ⟨name, hdue, rfl⟩)
          subst hf
          exact .moduleDecl
  | unwind signal =>
      cases stack with
      | nil => exact .inl .refl
      | cons frame stack => exact .inl (kept_unwind stack s signal frame)

theorem keepsLinks_step (m : Machine) : m.state.store.KeepsLinks m.step.state.store := by
  rcases kept_step m with h | ⟨e, n, v, -, h⟩
  · exact h.links
  · rw [h]
    exact fun f _ => enclosing?_put ..

theorem size_le_step (m : Machine) :
    m.state.store.environments.size ≤ m.step.state.store.environments.size := by
  rcases m.kept_step with hkept | ⟨e, n, v, -, hput⟩
  · exact hkept.size
  · exact Nat.le_of_eq (hput ▸ (size_put ..).symm)

/-- The only name that a move adds to what was there is the one that is due. -/
theorem binds_of_step {m : Machine} {env : EnvironmentId} {n : String}
    (henv : env < m.state.store.environments.size) (h : m.step.state.store.binds env n = true) :
    m.state.store.binds env n = true ∨ m.Adds env n := by
  rcases m.kept_step with hkept | ⟨e, k, v, hrebinds, hput⟩
  · rcases hkept.added h with hold | hnew | hadds
    · exact .inl hold
    · exact absurd henv (Nat.not_lt_of_le hnew)
    · exact .inr hadds
  · rw [hput] at h
    rcases binds_of_put h with hold | ⟨rfl, rfl⟩
    · exact .inl hold
    · cases hrebinds with
      | assign _ hbinds => exact .inl hbinds
      | setMember _ hbinds => exact .inl hbinds

end Machine

/-! ## Notes -/

namespace Trail

variable {t t' : Trail}

theorem Extends.of_eq (ho : t'.origins = t.origins) (hc : t'.code = t.code) : t.Extends t' :=
  ⟨ho ▸ List.prefix_rfl, hc ▸ List.prefix_rfl⟩

theorem extends_bind (t : Trail) (m : Closure) : t.Extends (t.bind m) :=
  (extends_make t _).trans (extends_declare _ _)

theorem extends_enter (f : Closure) (arguments : List Value) (s : Store) (t : Trail) :
    t.Extends (t.enter f arguments s) := by
  unfold enter
  dsimp only
  split
  · exact (extends_make t _).trans (.of_eq rfl rfl)
  · exact extends_make t _

theorem extends_invoke (c : Callable) (arguments : List Value) (s : Store) (t : Trail) :
    t.Extends (t.invoke c arguments s) := by
  cases c with
  | function f => exact extends_enter f arguments s t
  | native n => exact .of_eq rfl rfl
  | «class» c =>
      unfold invoke construct
      dsimp only
      split
      · rename_i init _
        have hpush : (t.bind init).Extends ((t.bind init).push t.here) := .of_eq rfl rfl
        exact ((extends_bind t init).trans hpush).trans (extends_enter ..)
      · exact .of_eq rfl rfl

theorem extends_applyNext (callee : Value) (earlier : List Value) (later : List Expr) (s : State)
    (t : Trail) : t.Extends (t.applyNext callee earlier later s) := by
  cases later with
  | cons e es => exact .of_eq rfl rfl
  | nil =>
      unfold applyNext apply
      dsimp only
      split
      · split
        · exact .of_eq rfl rfl
        · split
          · exact .of_eq rfl rfl
          · have hpush : t.Extends (t.push t.here) := .of_eq rfl rfl
            exact hpush.trans (extends_invoke ..)
      · exact .of_eq rfl rfl

theorem extends_arrayNext (later : List Expr) (t : Trail) : t.Extends (t.arrayNext later) := by
  cases later <;> exact .of_eq rfl rfl

theorem extends_evaluate (e : Expr) (env : EnvironmentId) (s : State) (t : Trail) :
    t.Extends (t.evaluate e env s) := by
  cases e with
  | array bracket size es =>
      cases size with
      | none => exact extends_arrayNext ..
      | some => exact .of_eq rfl rfl
  | superMethod =>
      simp only [evaluate]
      split
      · exact extends_bind ..
      · exact .of_eq rfl rfl
  | function d =>
      simp only [evaluate, lambda]
      split
      · exact (extends_make t _).trans (extends_declare _ _)
      · exact extends_declare ..
  | _ => exact .of_eq rfl rfl

theorem extends_loopNext (step : Option Expr) (t : Trail) : t.Extends (t.loopNext step) := by
  cases step <;> exact .of_eq rfl rfl

theorem extends_makeMethods (ds : List FunctionDecl) (t : Trail) :
    t.Extends (t.makeMethods ds) := by
  induction ds generalizing t with
  | nil => exact .of_eq rfl rfl
  | cons d ds ih =>
      unfold makeMethods
      split
      · exact (extends_declare t _).trans (ih _)
      · exact ih t

theorem extends_defineClass (superclass : Option Class) (ms : List FunctionDecl) (t : Trail) :
    t.Extends (t.defineClass superclass ms) := by
  cases superclass with
  | none => exact (extends_makeMethods ms t).trans (extends_declare _ _)
  | some c =>
      exact ((extends_make t _).trans (extends_makeMethods ms _)).trans (extends_declare _ _)

theorem extends_execute (st : Stmt) (t : Trail) : t.Extends (t.execute st) := by
  cases st with
  | block | moduleDecl => exact (extends_make t _).trans (.of_eq rfl rfl)
  | functionDecl => exact extends_declare ..
  | classDecl name e ms =>
      cases e with
      | none =>
          simp only [execute]
          exact extends_defineClass ..
      | some => exact .of_eq rfl rfl
  | varDecl name e | returnWith keyword e => cases e <;> exact .of_eq rfl rfl
  | _ => exact .of_eq rfl rfl

theorem extends_resume (v : Value) (frame : Frame) (s : State) (t : Trail) :
    t.Extends (t.resume v frame s) := by
  cases frame with
  | callee | argument => exact extends_applyNext ..
  | arrayElement => exact extends_arrayNext ..
  | get name =>
      unfold resume
      dsimp only
      split
      · split
        · exact extends_bind ..
        · exact .of_eq rfl rfl
      · exact .of_eq rfl rfl
  | arraySize =>
      unfold resume
      dsimp only
      split
      · exact extends_arrayNext ..
      · exact .of_eq rfl rfl
  | superclass =>
      unfold resume
      dsimp only
      split
      · exact extends_defineClass ..
      · exact .of_eq rfl rfl
  | logical | setObject | indexObject | setIndexObject | setIndexAt | loopTest =>
      simp only [resume]
      split <;> exact .of_eq rfl rfl
  | branch =>
      simp only [resume]
      split
      · exact .of_eq rfl rfl
      · split <;> exact .of_eq rfl rfl
  | _ => exact .of_eq rfl rfl

/-- A move adds to the notes. -/
theorem extends_step (m : Machine) (t : Trail) : t.Extends (t.step m) := by
  obtain ⟨control, stack, s⟩ := m
  have hpop : t.Extends t.pop := .of_eq rfl rfl
  cases control with
  | evaluate e env => exact extends_evaluate e env s t
  | execute st env => exact extends_execute st t
  | value v =>
      cases stack with
      | nil => exact .of_eq rfl rfl
      | cons frame stack => exact hpop.trans (extends_resume v frame s t.pop)
  | done =>
      cases stack with
      | nil => exact .of_eq rfl rfl
      | cons frame stack =>
          unfold step proceed
          dsimp only
          split
          · exact .of_eq rfl rfl
          · exact hpop.trans (extends_loopNext ..)
          · exact .of_eq rfl rfl
  | unwind signal =>
      cases stack with
      | nil => exact .of_eq rfl rfl
      | cons frame stack =>
          unfold step unwind
          dsimp only
          split
          · exact hpop.trans (extends_loopNext ..)
          · exact .of_eq rfl rfl

/-- Worlds grow from move to move. -/
theorem world_le_step {texts : List (List Stmt)} {m : Machine}
    (h : StoreOk texts t m.state.store) :
    t.world texts m.state.store ≤ (t.step m).world texts m.step.state.store :=
  world_le (extends_step m t) (Machine.keepsLinks_step m) (Nat.le_of_eq h.origins)

end Trail

end Lox
