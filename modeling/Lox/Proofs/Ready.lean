/-
# Names that are there when they are used

A piece of program is ready to run in an environment if every name of its scopes is
in the environment of the scope.  There are two exceptions.  Inside the initializer
of a `var` or a `let`, and inside the superclass of a class, the name is declared
but not there yet: it is awaited.  And while a declaration is being executed the
statements behind it are ready but for its name: it is excused.

What is ready stays so, because nothing ever leaves an environment.  So a function
is ready if it was when it was made, wherever it is kept and whenever it is called.
A machine is settled if all that it holds is ready; that a move keeps it so is shown
in `Ready.Step`.

`this` and `super` are names like any other here, except that what they stand for
has to be an instance, or a class.
-/
import Lox.Proofs.Kept
import Lox.Proofs.Moment
import Lox.Proofs.Names

namespace Lox

/-! ## What an environment holds -/

/-- The name `n` may stand for `v`: `this` for an instance, `super` for a class. -/
def Suits (n : String) (v : Value) : Prop :=
  (n = Store.receiverName → ∃ i, v = .instance i) ∧
    (n = Machine.superName → ∃ c, v = .callable (.class c))

theorem Token.Plain.suits {x : Token} (h : x.Plain) (v : Value) : Suits x.lexeme v :=
  ⟨fun hx => absurd hx h.1, fun hx => absurd hx h.2⟩

namespace Store

/-- `f` holds the name `n`, which stands for what it may stand for. -/
def Supplies (s : Store) (f : EnvironmentId) (n : String) : Prop :=
  ∃ v, s.getLocal? f n = some v ∧ Suits n v

theorem binds_eq_true {s : Store} {f : EnvironmentId} {n : String} :
    s.binds f n = true ↔ ∃ v, s.getLocal? f n = some v :=
  Option.isSome_iff_exists

theorem Supplies.binds {s : Store} {f : EnvironmentId} {n : String} (h : s.Supplies f n) :
    s.binds f n = true := by
  obtain ⟨v, hv, -⟩ := h
  exact binds_eq_true.mpr ⟨v, hv⟩

theorem supplies_of_binds {s : Store} {f : EnvironmentId} {x : Token} (hx : x.Plain)
    (h : s.binds f x.lexeme = true) : s.Supplies f x.lexeme := by
  obtain ⟨v, hv⟩ := binds_eq_true.mp h
  exact ⟨v, hv, hx.suits v⟩

/-- Whatever `s` supplies is supplied by `s'`, in environments that are linked as
they were. -/
structure Lasts (s s' : Store) : Prop where
  size : s.environments.size ≤ s'.environments.size
  links : s.KeepsLinks s'
  supplies : ∀ {f n}, s.Supplies f n → s'.Supplies f n

theorem Lasts.chain {s s' : Store} (h : s.Lasts s') {e : EnvironmentId}
    (he : e < s.environments.size) : s'.chain e = s.chain e :=
  chain_congr fun f hf => h.links f (Nat.lt_of_le_of_lt hf he)

theorem Lasts.refl (s : Store) : s.Lasts s := ⟨Nat.le_refl _, fun _ _ => rfl, id⟩

theorem Kept.lasts {new adds : EnvironmentId → String → Prop} {s s' : Store}
    (h : Kept new adds s s') : s.Lasts s' :=
  ⟨h.size, h.links, fun ⟨v, hv, hsuits⟩ => ⟨v, h.names hv, hsuits⟩⟩

theorem chain_of_enclosing {s : Store} {e p : EnvironmentId} (h : s.enclosing? e = some p)
    (hlt : p < e) : s.chain e = e :: s.chain p := by
  rw [chain_eq, h]
  simp only [if_pos hlt]

end Store

/-! ## Pieces of a program -/

/-- The name that a statement declares when an expression of it has its value. -/
def Stmt.awaits : Stmt → Option Token
  | .varDecl name (some _) | .letDecl name _ | .classDecl name (some _) _ => some name
  | _ => none

/-- `p` is inside the initializer, or the superclass, of the declaration of `n` in
the scope of the constructs `L`. -/
def Awaited (texts : List (List Stmt)) (p : Place) (L : List Site) (n : String) : Prop :=
  ∃ q c st x, (0 :: q) <:+ p ∧ visitAt texts q = some ⟨c, .stmt st⟩ ∧ st.awaits = some x ∧
    x.lexeme = n ∧ c.sites = L

/-- The name `n` of `f` is the one that is due. -/
def Excused (due : Option (EnvironmentId × Token)) (f : EnvironmentId) (n : String) : Prop :=
  ∃ x, due = some (f, x) ∧ x.lexeme = n

/-- In the environment `env`, and in those around it, are the names of `σ`, but for
what is awaited at `p` and what `excused` says. -/
structure Ready (texts : List (List Stmt)) (s : Store)
    (excused : EnvironmentId → String → Prop) (p : Place) (L : List Site) (σ : Scopes)
    (env : EnvironmentId) : Prop where
  there : env < s.environments.size
  names : ∀ k f scope n, (s.chain env)[k]? = some f → σ[k]? = some scope →
    Table.has scope n = true → s.Supplies f n ∨ Awaited texts p (L.drop k) n ∨ excused f n

/-- The expression at `p` is ready to be evaluated in `env`. -/
def ExprReady (texts : List (List Stmt)) (s : Store) (p : Place) (env : EnvironmentId) : Prop :=
  ∃ c e, visitAt texts p = some ⟨c, .expr e⟩ ∧
    Ready texts s (Excused none) p c.sites c.scopes env

/-- The statement at `p` is ready to be executed in `env`, but for what is excused. -/
def StmtReady (texts : List (List Stmt)) (s : Store)
    (excused : EnvironmentId → String → Prop) (p : Place) (env : EnvironmentId) : Prop :=
  ∃ c st, visitAt texts p = some ⟨c, .stmt st⟩ ∧ Ready texts s excused p c.sites c.scopes env

theorem not_excused_none {f : EnvironmentId} {n : String} : ¬ Excused none f n :=
  fun ⟨_, h, _⟩ => nomatch h

section
variable {texts texts' : List (List Stmt)} {s s' : Store}
  {excused excused' : EnvironmentId → String → Prop} {p : Place} {L : List Site} {σ : Scopes}
  {env : EnvironmentId}

/-- What is awaited at a place is awaited inside of it. -/
theorem Awaited.inside {n : String} (h : Awaited texts p L n) (i : Nat) :
    Awaited texts (i :: p) L n := by
  obtain ⟨q, c, st, x, hq, hrest⟩ := h
  exact ⟨q, c, st, x, hq.trans (List.suffix_cons i p), hrest⟩

/-- Behind a statement that is not the last one nothing is awaited that is not
awaited at the others. -/
theorem Awaited.beside {n : String} {i : Nat} (h : Awaited texts ((i + 1) :: p) L n)
    (j : Nat) : Awaited texts (j :: p) L n := by
  obtain ⟨q, c, st, x, hq, hrest⟩ := h
  rcases List.suffix_cons_iff.mp hq with heq | hq
  · cases heq
  · exact ⟨q, c, st, x, hq.trans (List.suffix_cons j p), hrest⟩

theorem Awaited.mono (hvisit : ∀ {p v}, visitAt texts p = some v → visitAt texts' p = some v)
    {n : String} (h : Awaited texts p L n) : Awaited texts' p L n := by
  obtain ⟨q, c, st, x, hq, hv, hrest⟩ := h
  exact ⟨q, c, st, x, hq, hvisit hv, hrest⟩

theorem Ready.mono (hvisit : ∀ {p v}, visitAt texts p = some v → visitAt texts' p = some v)
    (hs : s.Lasts s') (h : Ready texts s excused p L σ env) :
    Ready texts' s' excused p L σ env := by
  refine ⟨Nat.lt_of_lt_of_le h.there hs.size, fun k f scope n hf hscope hn => ?_⟩
  rw [hs.chain h.there] at hf
  exact (h.names k f scope n hf hscope hn).imp hs.supplies (Or.imp_left (Awaited.mono hvisit))

/-- Inside of a place its own scopes are ready. -/
theorem Ready.inside (h : Ready texts s excused p L σ env) (i : Nat) :
    Ready texts s excused (i :: p) L σ env :=
  ⟨h.there, fun k f scope n hf hscope hn =>
    (h.names k f scope n hf hscope hn).imp_right (Or.imp_left (Awaited.inside · i))⟩

theorem Ready.beside {i : Nat} (h : Ready texts s excused ((i + 1) :: p) L σ env) (j : Nat) :
    Ready texts s excused (j :: p) L σ env :=
  ⟨h.there, fun k f scope n hf hscope hn =>
    (h.names k f scope n hf hscope hn).imp_right (Or.imp_left (Awaited.beside · j))⟩

/-- What was excused may be there by now. -/
theorem Ready.settle (h : Ready texts s excused p L σ env)
    (hx : ∀ f n, excused f n → s.Supplies f n ∨ excused' f n) :
    Ready texts s excused' p L σ env := by
  refine ⟨h.there, fun k f scope n hf hscope hn => ?_⟩
  rcases h.names k f scope n hf hscope hn with hsupplied | hawaited | hexcused
  · exact .inl hsupplied
  · exact .inr (.inl hawaited)
  · exact (hx f n hexcused).imp_right .inr

/-- Names that are added to the innermost scope. -/
theorem Ready.adds {σ' : Scopes} {new : String → Prop} (h : Ready texts s excused p L σ env)
    (hσ : σ.Adds new σ')
    (hnew : ∀ n, new n → s.Supplies env n ∨ Awaited texts p L n ∨ excused env n) :
    Ready texts s excused p L σ' env := by
  refine ⟨h.there, fun k f full n hf hfull hn => ?_⟩
  obtain ⟨scope, hscope, hadds⟩ := hσ.at hfull
  rcases hadds n hn with hold | ⟨rfl, hadded⟩
  · exact h.names k f scope n hf hscope hold
  · have hhead : (s.chain env)[0]? = some env := by rw [Store.chain_eq]; rfl
    cases hhead.symm.trans hf
    exact hnew n hadded

/-- One more environment with one more scope. -/
theorem Ready.push {e : EnvironmentId} {site : Site} {scope : StaticScope}
    (h : Ready texts s excused p L σ env) (he : s.enclosing? e = some env) (hlt : env < e)
    (hthere : e < s.environments.size)
    (hscope : ∀ n, Table.has scope n = true → s.Supplies e n) :
    Ready texts s excused p (site :: L) (scope :: σ) e := by
  refine ⟨hthere, fun k f full n hf hfull hn => ?_⟩
  rw [Store.chain_of_enclosing he hlt] at hf
  cases k with
  | zero =>
      cases hf
      cases hfull
      exact .inl (hscope n hn)
  | succ k => exact h.names k f full n hf hfull hn

/-- An environment that was made for a scope, and holds what the scope does. -/
theorem Ready.child {store : Store} {made : Environment} {site : Site} {scope : StaticScope}
    (h : Ready texts s excused p L σ env) (hlasts : (store.newEnvironment made).2.Lasts s)
    (hmade : made.enclosing = some env) (henv : env < store.environments.size)
    (hscope : ∀ n, Table.has scope n = true → ∃ v, made.bindings.get? n = some v ∧ Suits n v) :
    Ready texts s excused p (site :: L) (scope :: σ) store.environments.size := by
  have hthere : store.environments.size < (store.newEnvironment made).2.environments.size :=
    Nat.lt_of_lt_of_eq (Nat.lt_succ_self _) (Store.size_newEnvironment ..).symm
  refine h.push ?_ henv (Nat.lt_of_lt_of_le hthere hlasts.size) fun n hn => ?_
  · rw [hlasts.links _ hthere, Store.enclosing?_newEnvironment, if_pos rfl, hmade]
  · obtain ⟨v, hv, hsuits⟩ := hscope n hn
    refine hlasts.supplies ⟨v, ?_, hsuits⟩
    rw [Store.getLocal?_newEnvironment, if_pos rfl, hv]

/-- The scope of `this` or of `super`. -/
theorem suits_implicit {name : String} {v : Value} (hv : Suits name v) :
    ∀ n, Table.has (Scopes.implicit name) n = true →
      ∃ u, Table.get? [(name, v)] n = some u ∧ Suits n u := by
  intro n hn
  by_cases hname : name = n
  · subst hname
    exact ⟨v, if_pos rfl, hv⟩
  · simp [Scopes.implicit, Table.has, Table.get?, hname] at hn

theorem ExprReady.mono (hvisit : ∀ {p v}, visitAt texts p = some v → visitAt texts' p = some v)
    (hs : s.Lasts s') (h : ExprReady texts s p env) : ExprReady texts' s' p env := by
  obtain ⟨c, e, hv, hready⟩ := h
  exact ⟨c, e, hvisit hv, hready.mono hvisit hs⟩

theorem StmtReady.mono (hvisit : ∀ {p v}, visitAt texts p = some v → visitAt texts' p = some v)
    (hs : s.Lasts s') (h : StmtReady texts s excused p env) :
    StmtReady texts' s' excused p env := by
  obtain ⟨c, st, hv, hready⟩ := h
  exact ⟨c, st, hvisit hv, hready.mono hvisit hs⟩

theorem StmtReady.settle (h : StmtReady texts s excused p env)
    (hx : ∀ f n, excused f n → s.Supplies f n ∨ excused' f n) :
    StmtReady texts s excused' p env := by
  obtain ⟨c, st, hv, hready⟩ := h
  exact ⟨c, st, hv, hready.settle hx⟩

theorem ExprReady.ready {c : Context} {node : Node} (h : ExprReady texts s p env)
    (hv : visitAt texts p = some ⟨c, node⟩) :
    Ready texts s (Excused none) p c.sites c.scopes env := by
  obtain ⟨c', e, hu, hready⟩ := h
  cases hu.symm.trans hv
  exact hready

theorem StmtReady.ready {c : Context} {node : Node} (h : StmtReady texts s excused p env)
    (hv : visitAt texts p = some ⟨c, node⟩) :
    Ready texts s excused p c.sites c.scopes env := by
  obtain ⟨c', st, hu, hready⟩ := h
  cases hu.symm.trans hv
  exact hready

/-- The operands of an expression are in its own scopes. -/
theorem ExprReady.operand {i : Nat} {c : Context} {e : Expr} (h : ExprReady texts s p env)
    (hv : visitAt texts (i :: p) = some ⟨c, .expr e⟩) : ExprReady texts s (i :: p) env := by
  obtain ⟨c', e', hp, hready⟩ := h
  have henters := Visit.enters_child ((visitAt_cons hp i).symm.trans hv)
  cases henters with
  | operand => exact ⟨_, e, hv, hready.inside i⟩

end

/-! ## Values -/

section
variable (texts : List (List Stmt)) (code : List Place) (s : Store)

/-- A function whose body is ready but for its own scope. -/
def FunctionReady (f : Closure) : Prop :=
  ∃ q c kind d, code[f.identity]? = some q ∧ visitAt texts q = some ⟨c, .function kind d⟩ ∧
    c.function kind d = f.declaration ∧
    Ready texts s (Excused none) q c.sites c.scopes f.environment

/-- A method that will be ready when it is bound to an instance. -/
def MethodReady (f : Closure) : Prop :=
  ∃ q c kind d site L σ, code[f.identity]? = some q ∧
    visitAt texts q = some ⟨c, .function kind d⟩ ∧ c.function kind d = f.declaration ∧
    c.sites = site :: L ∧ c.scopes = Scopes.implicit Store.receiverName :: σ ∧
    Ready texts s (Excused none) q L σ f.environment

def ClassReady (c : Class) : Prop :=
  ∀ n f, c.findMethod? n = some f → MethodReady texts code s f

def ValueReady : Value → Prop
  | .callable (.function f) => FunctionReady texts code s f
  | .callable (.class c) => ClassReady texts code s c
  | .instance i => ClassReady texts code s i.ofClass
  | _ => True

/-! ## Machines -/

/-- The parts of a loop at `p`. -/
structure LoopReady (p : Place) (step : Option Expr) (env : EnvironmentId) : Prop where
  test : ExprReady texts s (0 :: p) env
  once : StmtReady texts s (Excused none) (1 :: p) env
  next : ∀ e, step = some e → ExprReady texts s (2 :: p) env

/-- A frame for the node at `p`; of the statements that a sequence goes on with
those names are excused that what stands on the frame is to define. -/
def FrameReady (excused : EnvironmentId → String → Prop) (p : Place) : Frame → Prop
  | .binaryRight _ _ env | .logical _ _ env | .assign _ _ env | .callee _ _ env
  | .arraySize _ _ env | .indexObject _ _ env | .setIndexObject _ _ _ env
  | .setIndexAt _ _ _ env => ExprReady texts s p env
  | .branch _ onFalse env =>
    StmtReady texts s (Excused none) (1 :: p) env ∧
      ∀ st, onFalse = some st → StmtReady texts s (Excused none) (2 :: p) env
  | .loopTest _ _ step env | .loopStep _ _ step env | .loopBody _ _ step env =>
    LoopReady texts s p step env
  | .superclass _ _ _ env => StmtReady texts s (Excused none) p env
  | .setObject name _ env => name.Plain ∧ ExprReady texts s p env
  | .setMember _ name => name.Plain
  | .binary left _ => ValueReady texts code s left
  | .argument callee earlier _ _ env =>
    ValueReady texts code s callee ∧ (∀ v ∈ earlier, ValueReady texts code s v) ∧
      ExprReady texts s p env
  | .arrayElement _ _ earlier _ env =>
    (∀ v ∈ earlier, ValueReady texts code s v) ∧ ExprReady texts s p env
  | .constructed i => ClassReady texts code s i.ofClass
  | .sequence later env =>
    ∀ st rest, later = st :: rest → StmtReady texts s excused (rest.length :: p) env
  | .unary _ | .get _ | .setField .. | .index .. | .setIndex .. | .print | .discard
  | .varDecl .. | .letDecl .. | .returnWith | .activeCall _ | .moduleBody .. | .functionBody _ =>
    True

/-- Frames and the places that they were pushed for, below something that is to
define what is excused. -/
def StackReady : (EnvironmentId → String → Prop) → List Frame → List Place → Prop
  | excused, frame :: stack, p :: ps =>
    FrameReady texts code s excused p frame ∧ StackReady (Excused frame.due) stack ps
  | _, _, _ => True

def ControlReady (p : Place) : Control → Prop
  | .evaluate _ env => ExprReady texts s p env
  | .execute _ env => StmtReady texts s (Excused none) p env
  | .value v | .unwind (.returning v) => ValueReady texts code s v
  | .done | .unwind _ => True

/-- What a control leaves to be defined; a signal may leave anything. -/
def Control.excuses : Control → EnvironmentId → String → Prop
  | .unwind _ => fun _ _ => True
  | control => Excused control.due

/-- Everything that the machine holds is ready, as `texts`, `code` and `s` have it. -/
structure Settled (t : Trail) (m : Machine) : Prop where
  control : ControlReady texts code s t.here m.control
  stack : StackReady texts code s m.control.excuses m.stack t.frames
  store : m.state.store.Only (ValueReady texts code s)

end

/-! ## What is ready stays so -/

section
variable {texts texts' : List (List Stmt)} {code code' : List Place} {s s' : Store}
  (hvisit : ∀ {p v}, visitAt texts p = some v → visitAt texts' p = some v)
  (hcode : code <+: code') (hs : s.Lasts s')
include hvisit hcode hs

theorem FunctionReady.mono {f : Closure} (h : FunctionReady texts code s f) :
    FunctionReady texts' code' s' f := by
  obtain ⟨q, c, kind, d, hq, hv, hd, hready⟩ := h
  exact ⟨q, c, kind, d, Trail.getElem?_of_prefix hcode hq, hvisit hv, hd,
    hready.mono hvisit hs⟩

theorem MethodReady.mono {f : Closure} (h : MethodReady texts code s f) :
    MethodReady texts' code' s' f := by
  obtain ⟨q, c, kind, d, site, L, σ, hq, hv, hd, hL, hσ, hready⟩ := h
  exact ⟨q, c, kind, d, site, L, σ, Trail.getElem?_of_prefix hcode hq, hvisit hv, hd, hL, hσ,
    hready.mono hvisit hs⟩

theorem ClassReady.mono {c : Class} (h : ClassReady texts code s c) :
    ClassReady texts' code' s' c :=
  fun n f hf => (h n f hf).mono hvisit hcode hs

theorem ValueReady.mono {v : Value} (h : ValueReady texts code s v) :
    ValueReady texts' code' s' v := by
  unfold ValueReady at h ⊢
  split
  · exact FunctionReady.mono hvisit hcode hs h
  · exact ClassReady.mono hvisit hcode hs h
  · exact ClassReady.mono hvisit hcode hs h
  · trivial

omit hcode in
theorem LoopReady.mono {p : Place} {step : Option Expr} {env : EnvironmentId}
    (h : LoopReady texts s p step env) : LoopReady texts' s' p step env :=
  ⟨h.test.mono hvisit hs, h.once.mono hvisit hs, fun e he => (h.next e he).mono hvisit hs⟩

theorem FrameReady.mono {excused : EnvironmentId → String → Prop} {p : Place} {frame : Frame}
    (h : FrameReady texts code s excused p frame) :
    FrameReady texts' code' s' excused p frame := by
  cases frame with
  | binaryRight | logical | assign | callee | arraySize | indexObject | setIndexObject
  | setIndexAt => exact ExprReady.mono hvisit hs h
  | branch => exact ⟨h.1.mono hvisit hs, fun st hst => (h.2 st hst).mono hvisit hs⟩
  | loopTest | loopStep | loopBody => exact LoopReady.mono hvisit hs h
  | superclass => exact StmtReady.mono hvisit hs h
  | setObject => exact ⟨h.1, h.2.mono hvisit hs⟩
  | binary => exact ValueReady.mono hvisit hcode hs h
  | argument =>
      exact ⟨h.1.mono hvisit hcode hs, fun v hv => (h.2.1 v hv).mono hvisit hcode hs,
        h.2.2.mono hvisit hs⟩
  | arrayElement =>
      exact ⟨fun v hv => (h.1 v hv).mono hvisit hcode hs, h.2.mono hvisit hs⟩
  | constructed => exact ClassReady.mono hvisit hcode hs h
  | sequence => exact fun st rest hlater => (h st rest hlater).mono hvisit hs
  | setMember => exact h
  | unary | get | setField | index | setIndex | print | discard | varDecl | letDecl
  | returnWith | activeCall | moduleBody | functionBody => trivial

theorem StackReady.mono {excused : EnvironmentId → String → Prop} {stack : List Frame}
    {ps : List Place} (h : StackReady texts code s excused stack ps) :
    StackReady texts' code' s' excused stack ps := by
  induction stack generalizing excused ps with
  | nil => trivial
  | cons frame stack ih =>
      cases ps with
      | nil => trivial
      | cons p ps => exact ⟨h.1.mono hvisit hcode hs, ih h.2⟩

theorem ControlReady.mono {p : Place} {control : Control}
    (h : ControlReady texts code s p control) : ControlReady texts' code' s' p control := by
  cases control with
  | evaluate => exact ExprReady.mono hvisit hs h
  | execute => exact StmtReady.mono hvisit hs h
  | value => exact ValueReady.mono hvisit hcode hs h
  | done => trivial
  | unwind signal =>
      cases signal with
      | returning => exact ValueReady.mono hvisit hcode hs h
      | failure | breaking | continuing => trivial

theorem Settled.mono {t : Trail} {m : Machine} (h : Settled texts code s t m) :
    Settled texts' code' s' t m :=
  ⟨h.control.mono hvisit hcode hs, h.stack.mono hvisit hcode hs,
    h.store.imp fun _ hv => hv.mono hvisit hcode hs⟩

end

/-- What stood on a stack is there by now. -/
theorem StackReady.settle {texts : List (List Stmt)} {code : List Place} {s : Store}
    {excused excused' : EnvironmentId → String → Prop} {stack : List Frame} {ps : List Place}
    (h : StackReady texts code s excused stack ps)
    (hx : ∀ f n, excused f n → s.Supplies f n ∨ excused' f n) :
    StackReady texts code s excused' stack ps := by
  cases stack with
  | nil => trivial
  | cons frame stack =>
      cases ps with
      | nil => trivial
      | cons p ps =>
          refine ⟨?_, h.2⟩
          cases frame with
          | sequence => exact fun st rest hlater => (h.1 st rest hlater).settle hx
          | _ => exact h.1

end Lox
