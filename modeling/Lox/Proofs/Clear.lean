/-
# Declarations that meet no name of their own

A list of statements that is being executed is clear if the names of its environment
are all in the scope that the resolver had when it got to the next statement; the
globals may hold others, from before the run.  What a statement declares is not in that
scope, since the text was accepted, and so not in the environment.

Every environment has one such list at most, which gets shorter with every statement.
The environments of the lists on a stack get smaller from the top to the bottom, so that
a declaration adds a name to the environment of the topmost list, and to no other.

Neither parameters nor the own name of a lambda meet anything, since their environment
is new and they are all different.
-/
import Lox.Proofs.Kept
import Lox.Proofs.Moment
import Lox.Proofs.Names

namespace Lox

/-! ## Other faults -/

/-- A result that is not the fault of a name that is already defined. -/
def Spares {α : Type} : Except RuntimeError α → Prop
  | .ok _ => True
  | .error e => ∀ n, e.fault ≠ .alreadyDefined n

theorem Fault.Usual.spares {fault : Fault} (h : fault.Usual) (n : String) :
    fault ≠ .alreadyDefined n := by
  rintro rfl
  exact h

theorem Usual.spares {α : Type} {P : α → Prop} {r : Except RuntimeError α} (h : Usual P r) :
    Spares r := by
  cases r with
  | ok a => trivial
  | error e => exact Fault.Usual.spares h

section
variable (s : Store) (env : EnvironmentId) (name : Token)

theorem spares_accessAt (d : Nat) : Spares (s.accessAt env d name) := by
  unfold Store.accessAt Store.scopeAt
  cases s.ancestor? env d with
  | none => exact nofun
  | some f =>
      dsimp only
      cases s.getLocal? f name.lexeme <;> first | trivial | exact nofun

theorem spares_lookUp (depth : Option Nat) : Spares (Machine.lookUp s name depth env) := by
  cases depth with
  | some d => exact spares_accessAt s env name d
  | none =>
      unfold Machine.lookUp Store.access
      dsimp only
      split <;> first | trivial | exact nofun

theorem spares_change (depth : Option Nat) (v : Value) :
    Spares (Machine.change s name depth env v) := by
  cases depth with
  | none =>
      unfold Machine.change Store.assign
      dsimp only
      split <;> first | trivial | exact fun _ h => by cases h
  | some d =>
      unfold Machine.change Store.assignAt Store.scopeAt
      dsimp only
      cases s.ancestor? env d with
      | none => exact fun _ h => by cases h
      | some f =>
          dsimp only
          split <;> first | trivial | exact fun _ h => by cases h

end

theorem spares_defineReadOnly {s : Store} {env : EnvironmentId} {name : Token} {v : Value}
    (h : s.binds env name.lexeme = false) : Spares (s.defineReadOnly env name v) := by
  rw [Store.defineReadOnly_eq_ok.mpr ⟨h, rfl⟩]
  trivial

theorem spares_result (f : Closure) (v : Value) (s : Store) : Spares (Machine.result f v s) := by
  unfold Machine.result
  split
  · exact spares_accessAt ..
  · trivial

theorem spares_superclassAt (s : Store) (keyword : Token) (depth : Nat) (env : EnvironmentId) :
    Spares (Machine.superclassAt s keyword depth env) := by
  have h := spares_accessAt s env keyword depth
  unfold Machine.superclassAt
  split
  · trivial
  · exact nofun
  · rename_i he
    rw [he] at h
    exact h

theorem spares_receiverAt (s : Store) (keyword : Token) (depth : Nat) (env : EnvironmentId) :
    Spares (Machine.receiverAt s keyword depth env) := by
  have h := spares_accessAt s env (.implicitAt Store.receiverName keyword) (depth - 1)
  unfold Machine.receiverAt
  split
  · trivial
  · exact nofun
  · rename_i he
    rw [he] at h
    exact h

theorem spares_superMethod (s : Store) (keyword method : Token) (depth : Option Nat)
    (env : EnvironmentId) : Spares (Machine.superMethod s keyword method depth env) := by
  cases depth with
  | none => exact nofun
  | some d =>
      have hclass := spares_superclassAt s keyword d env
      have hreceiver := spares_receiverAt s keyword d env
      unfold Machine.superMethod
      dsimp only
      split
      · rename_i he
        rw [he] at hclass
        exact hclass
      · split
        · rename_i he
          rw [he] at hreceiver
          exact hreceiver
        · split <;> first | trivial | exact nofun

/-! ## Moves that define nothing -/

/-- The frame stands neither for a list of statements nor for a declaration, and the
statements that it holds declare nothing. -/
def Frame.Idle : Frame → Prop
  | .sequence .. | .varDecl .. | .letDecl .. | .superclass .. | .moduleBody .. => False
  | .branch onTrue onFalse _ =>
    onTrue.declares = none ∧ ∀ st, onFalse = some st → st.declares = none
  | .loopTest _ body _ _ | .loopStep _ body _ _ | .loopBody _ body _ _ => body.declares = none
  | _ => True

/-- The control is not at the fault of a name that is already defined. -/
def Control.Spares : Control → Prop
  | .unwind (.failure e) => ∀ n, e.fault ≠ .alreadyDefined n
  | _ => True

/-- A machine that may have pushed idle frames, is at no declaration, and has not failed
because a name is already defined. -/
structure Machine.Idle (stack : List Frame) (m : Machine) : Prop where
  stack : ∃ new, m.stack = new ++ stack ∧ ∀ frame ∈ new, frame.Idle
  due : m.control.due = none
  spares : m.control.Spares

namespace Machine

variable {stack : List Frame} {s : State}

theorem idle_fail {e : RuntimeError} (he : ∀ n, e.fault ≠ .alreadyDefined n) :
    (fail e stack s).Idle stack :=
  ⟨⟨[], rfl, List.forall_mem_nil _⟩, rfl, he⟩

theorem idle_value (v : Value) : Idle stack ⟨.value v, stack, s⟩ :=
  ⟨⟨[], rfl, List.forall_mem_nil _⟩, rfl, trivial⟩

theorem idle_done : Idle stack ⟨.done, stack, s⟩ :=
  ⟨⟨[], rfl, List.forall_mem_nil _⟩, rfl, trivial⟩

theorem idle_evaluate_below (e : Expr) (env : EnvironmentId) :
    Idle stack ⟨.evaluate e env, stack, s⟩ :=
  ⟨⟨[], rfl, List.forall_mem_nil _⟩, rfl, trivial⟩

/-- Leaves an idle frame and looks at a child. -/
theorem idle_await (frame : Frame) (h : frame.Idle) (e : Expr) (env : EnvironmentId) :
    Idle stack ⟨.evaluate e env, frame :: stack, s⟩ :=
  ⟨⟨[frame], rfl, List.forall_mem_singleton.mpr h⟩, rfl, trivial⟩

theorem idle_yield {r : Except RuntimeError Value} (hr : Spares r) :
    (yield r stack s).Idle stack := by
  cases r with
  | ok v => exact idle_value v
  | error e => exact idle_fail hr

theorem idle_yieldWith (v : Value) {r : Except RuntimeError Store} (hr : Spares r) :
    (yieldWith v r stack s).Idle stack := by
  cases r with
  | ok store => exact idle_value v
  | error e => exact idle_fail hr

theorem idle_arrayNext (bracket : Token) (size : Option Nat) (earlier : List Value)
    (later : List Expr) (env : EnvironmentId) :
    (arrayNext bracket size earlier later env stack s).Idle stack := by
  cases later with
  | cons e es => exact idle_await (.arrayElement bracket size earlier es env) trivial e env
  | nil =>
      have h := usual_arrayElements size earlier.reverse bracket
      unfold arrayNext
      dsimp only
      split
      · exact idle_value _
      · rename_i he
        rw [he] at h
        exact idle_fail (Fault.Usual.spares h)

/-- A lambda defines its own name in an environment that holds nothing. -/
theorem idle_lambda (d : FunctionDecl) (env : EnvironmentId) :
    (lambda d env stack s).Idle stack := by
  unfold lambda
  split
  · rename_i name _
    refine idle_yieldWith _ (spares_defineReadOnly ?_)
    refine (congrArg Option.isSome (Store.getLocal?_newEnvironment s.store _ _ _)).trans ?_
    rw [if_pos rfl]
    rfl
  · exact idle_value _

theorem idle_evaluate (e : Expr) (env : EnvironmentId) :
    (evaluate e env stack s).Idle stack := by
  cases e with
  | literal v => exact idle_value _
  | grouping e => exact idle_evaluate_below e env
  | «variable» name depth => exact idle_yield (spares_lookUp ..)
  | receiver keyword depth => exact idle_yield (spares_lookUp ..)
  | superMethod keyword method depth =>
      have h := spares_superMethod s.store keyword method depth env
      unfold evaluate
      dsimp only
      split
      · exact idle_value _
      · rename_i he
        rw [he] at h
        exact idle_fail h
  | function d => exact idle_lambda d env
  | array bracket size es =>
      cases size with
      | none => exact idle_arrayNext ..
      | some size => exact idle_await (.arraySize bracket es env) trivial size env
  | unary op e => exact idle_await (.unary op) trivial e env
  | binary l op r => exact idle_await (.binaryRight op r env) trivial l env
  | logical l op r => exact idle_await (.logical op r env) trivial l env
  | assign name e depth => exact idle_await (.assign name depth env) trivial e env
  | call callee paren es => exact idle_await (.callee paren es env) trivial callee env
  | get object name => exact idle_await (.get name) trivial object env
  | set object name e => exact idle_await (.setObject name e env) trivial object env
  | index object bracket i => exact idle_await (.indexObject bracket i env) trivial object env
  | setIndex object bracket i e =>
      exact idle_await (.setIndexObject bracket i e env) trivial object env

/-- Goes to a statement that declares nothing. -/
theorem idle_execute_below {st : Stmt} (h : st.declares = none) (env : EnvironmentId) :
    Idle stack ⟨.execute st env, stack, s⟩ := by
  refine ⟨⟨[], rfl, List.forall_mem_nil _⟩, ?_, trivial⟩
  show st.declares.map (env, ·) = none
  rw [h]
  rfl

theorem idle_loopNext (condition : Expr) {body : Stmt} (h : body.declares = none)
    (step : Option Expr) (env : EnvironmentId) :
    (loopNext condition body step env stack s).Idle stack := by
  cases step with
  | none => exact idle_await (.loopTest condition body none env) h condition env
  | some e => exact idle_await (.loopStep condition body (some e) env) h e env

theorem idle_printValue (v : Value) : (printValue v stack s).Idle stack := by
  unfold printValue
  split
  · exact idle_done
  · exact idle_fail nofun

/-- A frame that stands for a call, or for a declaration, is not among these. -/
theorem idle_resume (v : Value) {frame : Frame} (hframe : frame.Idle)
    (hcallee : ∀ paren es env, frame ≠ .callee paren es env)
    (hargument : ∀ callee earlier paren later env,
      frame ≠ .argument callee earlier paren later env) :
    (resume v frame stack s).Idle stack := by
  cases frame with
  | sequence | varDecl | letDecl | superclass | moduleBody => cases hframe
  | callee paren es env => exact absurd rfl (hcallee paren es env)
  | argument callee earlier paren later env =>
      exact absurd rfl (hargument callee earlier paren later env)
  | unary op => exact idle_yield (usual_applyUnary op v).spares
  | binaryRight op right env => exact idle_await (.binary v op) trivial right env
  | binary left op => exact idle_yield (usual_applyBinary op left v).spares
  | logical op right env =>
      unfold resume
      dsimp only
      split
      · exact idle_value v
      · exact idle_evaluate_below right env
  | assign name depth env => exact idle_yieldWith v (spares_change ..)
  | get name =>
      unfold resume
      dsimp only
      split
      · unfold Store.get
        cases s.store.property? _ name.lexeme with
        | none => exact idle_fail nofun
        | some property => exact idle_value _
      · split
        · exact idle_value _
        · exact idle_fail nofun
      · exact idle_fail nofun
  | setObject name e env =>
      cases v with
      | «instance» i => exact idle_await (.setField i name) trivial e env
      | module m => exact idle_await (.setMember m name) trivial e env
      | _ => exact idle_fail nofun
  | setField i name => exact idle_value v
  | setMember m name =>
      unfold resume
      dsimp only
      split
      · exact idle_fail nofun
      · split
        · exact idle_value v
        · exact idle_fail nofun
  | arraySize bracket es env =>
      have h := usual_arraySize v bracket
      unfold resume
      dsimp only
      split
      · exact idle_arrayNext ..
      · rename_i he
        rw [he] at h
        exact idle_fail (Fault.Usual.spares h)
  | arrayElement bracket size earlier later env => exact idle_arrayNext ..
  | indexObject bracket i env =>
      have h := usual_asArray v bracket
      unfold resume
      dsimp only
      split
      · exact idle_await (.index _ bracket) trivial i env
      · rename_i he
        rw [he] at h
        exact idle_fail (Fault.Usual.spares h)
  | index a bracket =>
      have h := usual_asIndex v (s.store.length a) bracket
      unfold resume
      dsimp only
      split
      · split
        · exact idle_value _
        · exact idle_fail nofun
      · rename_i he
        rw [he] at h
        exact idle_fail (Fault.Usual.spares h)
  | setIndexObject bracket i e env =>
      have h := usual_asArray v bracket
      unfold resume
      dsimp only
      split
      · exact idle_await (.setIndexAt _ bracket e env) trivial i env
      · rename_i he
        rw [he] at h
        exact idle_fail (Fault.Usual.spares h)
  | setIndexAt a bracket e env =>
      have h := usual_asIndex v (s.store.length a) bracket
      unfold resume
      dsimp only
      split
      · exact idle_await (.setIndex a _ bracket) trivial e env
      · rename_i he
        rw [he] at h
        exact idle_fail (Fault.Usual.spares h)
  | setIndex a i bracket =>
      unfold resume
      dsimp only
      split
      · exact idle_value v
      · exact idle_fail nofun
  | print => exact idle_printValue v
  | discard => exact idle_done
  | branch onTrue onFalse env =>
      unfold resume
      dsimp only
      split
      · exact idle_execute_below hframe.1 env
      · split
        · exact idle_execute_below (hframe.2 _ rfl) env
        · exact idle_done
  | loopTest condition body step env =>
      unfold resume
      dsimp only
      split
      · refine ⟨⟨[.loopBody condition body step env], rfl, List.forall_mem_singleton.mpr hframe⟩,
          ?_, trivial⟩
        show body.declares.map (env, ·) = none
        rw [show body.declares = none from hframe]
        rfl
      · exact idle_done
  | loopStep condition body step env =>
      exact idle_await (.loopTest condition body step env) hframe condition env
  | returnWith => exact ⟨⟨[], rfl, List.forall_mem_nil _⟩, rfl, trivial⟩
  | constructed i => exact idle_value _
  | activeCall paren => exact idle_value v
  | loopBody | functionBody => exact idle_value v

/-- A signal that is not a failure does not fail on its way. -/
theorem idle_unwind {signal : Signal} (hsignal : ∀ e, signal ≠ .failure e) {frame : Frame}
    (hframe : ∀ condition body step env, frame = .loopBody condition body step env →
      body.declares = none) : (unwind signal frame stack s).Idle stack := by
  have hpass : Idle stack ⟨.unwind signal, stack, s⟩ := by
    refine ⟨⟨[], rfl, List.forall_mem_nil _⟩, rfl, ?_⟩
    cases signal with
    | failure e => exact absurd rfl (hsignal e)
    | returning | breaking | continuing => trivial
  cases frame with
  | loopBody condition body step env =>
      cases signal with
      | continuing => exact idle_loopNext condition (hframe _ _ _ _ rfl) step env
      | breaking => exact idle_done
      | failure | returning => exact hpass
  | functionBody f =>
      cases signal with
      | returning v => exact idle_yield (spares_result ..)
      | failure | breaking | continuing => exact hpass
  | activeCall paren =>
      cases signal with
      | failure e => exact absurd rfl (hsignal e)
      | returning | breaking | continuing =>
          exact ⟨⟨[], rfl, List.forall_mem_nil _⟩, rfl, trivial⟩
  | _ => exact hpass

variable (stack s) in
/-- A failure goes on as it is, but for the token that it blames. -/
theorem unwind_failure (e : RuntimeError) (frame : Frame) :
    ∃ e' s', unwind (.failure e) frame stack s = ⟨.unwind (.failure e'), stack, s'⟩ ∧
      e'.fault = e.fault ∧ s'.store = s.store := by
  cases frame with
  | activeCall paren =>
      refine ⟨e.orAt paren, { s with callDepth := s.callDepth - 1 }, rfl, ?_, rfl⟩
      unfold RuntimeError.orAt
      split <;> rfl
  | _ => exact ⟨e, s, rfl, rfl, rfl⟩

end Machine

/-! ## Clear lists of statements -/

section
variable (base : EnvironmentId → String → Prop) (s : Store)

/-- `later` are statements that the resolver accepted with the scopes `σ`, the innermost
of which has all names of `env` that are not in `base`. -/
structure Listed (later : List Stmt) (env : EnvironmentId) (σ : Scopes) : Prop where
  accepted : ∃ u sts, (Resolve.stmts u σ sts).1 = later ∧
    (Resolve.stmts u σ sts).2.2.errors = [] ∧ ∀ st ∈ sts, WordedStmt st
  inside : σ ≠ []
  names : ∀ n, s.binds env n = true → (σ.here? n).isSome = true ∨ base env n

/-- What is due stands right above the statements that come after it, and its name is
not there yet. -/
def DueClear (due : Option (EnvironmentId × Token)) (stack : List Frame) : Prop :=
  ∀ env x, due = some (env, x) → ∃ later stack' σ, stack = .sequence later env :: stack' ∧
    Listed base s later env σ ∧ (σ.here? x.lexeme).isSome = true ∧
    (s.binds env x.lexeme = true → base env x.lexeme)

/-- The environment of the topmost list of statements of a stack, if it is not below
`bound`. -/
def Frame.bound (bound : EnvironmentId) : Frame → EnvironmentId
  | .sequence _ env => env
  | _ => bound

/-- The frame's statements are clear, in an environment below `bound`. -/
def FrameClear (bound : EnvironmentId) : Frame → Prop
  | .sequence later env => env < bound ∧ ∃ σ, Listed base s later env σ
  | .varDecl .. | .letDecl .. | .superclass .. | .moduleBody .. => True
  | frame => frame.Idle

/-- All lists of statements are clear, and the environments get smaller. -/
def StackClear : EnvironmentId → List Frame → Prop
  | _, [] => True
  | bound, frame :: stack =>
    FrameClear base s bound frame ∧ DueClear base s frame.due stack ∧
      StackClear (frame.bound bound) stack

end

/-- The declarations of the machine meet only names of `base`, and a name that was met
is one that `blames` says. -/
structure Machine.Clear (base : EnvironmentId → String → Prop) (blames : String → Prop)
    (m : Machine) : Prop where
  fault : ∀ e n, m.control = .unwind (.failure e) → e.fault = .alreadyDefined n → blames n
  due : DueClear base m.state.store m.control.due m.stack
  stack : StackClear base m.state.store m.state.store.environments.size m.stack

section
variable {base : EnvironmentId → String → Prop} {s s' : Store}

theorem Listed.mono {later : List Stmt} {env : EnvironmentId} {σ : Scopes}
    (h : Listed base s later env σ)
    (hs : ∀ n, s'.binds env n = true → s.binds env n = true) : Listed base s' later env σ :=
  ⟨h.accepted, h.inside, fun n hn => h.names n (hs n hn)⟩

theorem DueClear.none {stack : List Frame} : DueClear base s none stack :=
  fun _ _ hdue => nomatch hdue

theorem DueClear.mono {due : Option (EnvironmentId × Token)} {stack : List Frame}
    {bound : EnvironmentId} (h : DueClear base s due stack) (hk : StackClear base s bound stack)
    (hs : ∀ env n, env < bound → s'.binds env n = true → s.binds env n = true) :
    DueClear base s' due stack := by
  intro env x hdue
  obtain ⟨later, stack', σ, rfl, hlisted, hx, hbinds⟩ := h env x hdue
  have hlt : env < bound := hk.1.1
  exact ⟨later, stack', σ, rfl, hlisted.mono fun n => hs env n hlt, hx,
    fun hb => hbinds (hs env _ hlt hb)⟩

/-- What is due is due in an environment below the bound. -/
theorem DueClear.lt {env : EnvironmentId} {x : Token} {stack : List Frame}
    {bound : EnvironmentId} (h : DueClear base s (some (env, x)) stack)
    (hk : StackClear base s bound stack) : env < bound := by
  obtain ⟨later, stack', σ, rfl, -⟩ := h env x rfl
  exact hk.1.1

theorem Frame.bound_le {bound : EnvironmentId} {frame : Frame}
    (h : FrameClear base s bound frame) : frame.bound bound ≤ bound := by
  cases frame with
  | sequence later env => exact Nat.le_of_lt h.1
  | _ => exact Nat.le_refl bound

/-- No names are added below the bound. -/
theorem StackClear.mono {bound bound' : EnvironmentId} {stack : List Frame}
    (h : StackClear base s bound stack) (hle : bound ≤ bound')
    (hs : ∀ env n, env < bound → s'.binds env n = true → s.binds env n = true) :
    StackClear base s' bound' stack := by
  induction stack generalizing bound bound' with
  | nil => trivial
  | cons frame stack ih =>
      obtain ⟨hframe, hdue, hk⟩ := h
      have hbound := Frame.bound_le hframe
      have hbelow : ∀ env n, env < frame.bound bound → s'.binds env n = true →
          s.binds env n = true := fun env n henv => hs env n (Nat.lt_of_lt_of_le henv hbound)
      refine ⟨?_, hdue.mono hk hbelow, ih hk ?_ hbelow⟩
      · cases frame with
        | sequence later env =>
            obtain ⟨hlt, σ, hlisted⟩ := hframe
            exact ⟨Nat.lt_of_lt_of_le hlt hle, σ, hlisted.mono fun n => hs env n hlt⟩
        | _ => exact hframe
      · cases frame with
        | sequence later env => exact Nat.le_refl env
        | _ => exact hle

/-- A name is added that was due. -/
theorem StackClear.define {env : EnvironmentId} {x : Token} {bound bound' : EnvironmentId}
    {stack : List Frame} (h : StackClear base s bound stack) (hle : bound ≤ bound')
    (hdue : DueClear base s (some (env, x)) stack)
    (hs : ∀ e n, e < bound → s'.binds e n = true →
      s.binds e n = true ∨ e = env ∧ n = x.lexeme) : StackClear base s' bound' stack := by
  obtain ⟨later, stack', σ, rfl, hlisted, hx, -⟩ := hdue env x rfl
  obtain ⟨⟨hlt, -⟩, -, hk⟩ := h
  have hnext : Listed base s' later env σ := by
    refine ⟨hlisted.accepted, hlisted.inside, fun n hn => ?_⟩
    rcases hs env n hlt hn with hold | ⟨-, rfl⟩
    · exact hlisted.names n hold
    · exact .inl hx
  refine ⟨⟨Nat.lt_of_lt_of_le hlt hle, σ, hnext⟩, .none, hk.mono (Nat.le_refl env) ?_⟩
  intro e n he hn
  rcases hs e n (Nat.lt_trans he hlt) hn with hold | ⟨rfl, -⟩
  · exact hold
  · exact absurd he (Nat.lt_irrefl e)

/-- Idle frames change nothing. -/
theorem StackClear.append {bound : EnvironmentId} {new stack : List Frame}
    (h : StackClear base s bound stack) (hnew : ∀ frame ∈ new, frame.Idle) :
    StackClear base s bound (new ++ stack) := by
  induction new with
  | nil => exact h
  | cons frame new ih =>
      obtain ⟨hframe, hnew⟩ := List.forall_mem_cons.mp hnew
      have hk := ih hnew
      cases frame with
      | sequence | varDecl | letDecl | superclass | moduleBody => cases hframe
      | _ => exact ⟨hframe, .none, hk⟩

end

/-! ## What is added to a store -/

namespace Store

variable {s : Store} {env e : EnvironmentId} {n : String}

/-- The result of adding a name to `env`: it is added, or it was there. -/
def Adding (s : Store) (env : EnvironmentId) (x : Token) : Except RuntimeError Store → Prop
  | .ok s' => s'.environments.size = s.environments.size ∧
      ∀ e n, s'.binds e n = true → s.binds e n = true ∨ e = env ∧ n = x.lexeme
  | .error err => err = .blaming x (.alreadyDefined x.lexeme) ∧ s.binds env x.lexeme = true

theorem adding_define (s : Store) (env : EnvironmentId) (x : Token) (v : Value) :
    s.Adding env x (s.define env x v) := by
  unfold define
  split
  · exact ⟨rfl, ‹_›⟩
  · exact ⟨size_put .., fun _ _ => binds_of_put⟩

theorem adding_defineReadOnly (s : Store) (env : EnvironmentId) (x : Token) (v : Value) :
    s.Adding env x (s.defineReadOnly env x v) := by
  have h := adding_define s env x v
  unfold defineReadOnly
  split
  · rename_i hd
    rw [hd] at h
    exact ⟨(size_protect ..).trans h.1, fun e n hn => h.2 e n (binds_of_protect hn)⟩
  · rename_i hd
    rw [hd] at h
    exact h

end Store

end Lox
