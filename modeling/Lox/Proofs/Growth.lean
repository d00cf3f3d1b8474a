/-
# Scopes grow by their own declarations

What is evaluated may call anything, and what is called shares environments with
the caller.  Yet an environment that was there before gets no name from it: calls
and blocks declare in environments of their own.  `Inner n` says so of a machine:
whatever it is still to declare goes into an environment made after the first `n`.
An expression starts so with every environment that there is, and so does a
statement that declares nothing, because nothing is declared as a branch or as the
body of a loop.

A declaration waits for a value or for the end of a module, and has added nothing
until that is there; then it adds its own name, or fails.
-/
import Lox.Proofs.Described
import Lox.Proofs.Kept
import Lox.Proofs.Lexical
import Lox.Proofs.Onto

namespace Lox

/-! ## Scopes of a store -/

namespace Store

/-- The first `n` environments hold the names, have the marks and are inside of what
they were, and none is lost. -/
structure SameScopes (n : Nat) (s s' : Store) : Prop where
  size : s.environments.size ≤ s'.environments.size
  binds : ∀ e < n, ∀ x, s'.binds e x = s.binds e x
  marks : ∀ e < n, ∀ x, s'.isReadOnly e x = s.isReadOnly e x
  links : ∀ e < n, s'.enclosing? e = s.enclosing? e

/-- Of the environments of `s`, `env` has one name more, which it did not hold, and
which is read-only if `marked` is true; else they are as they were. -/
structure Declared (env : EnvironmentId) (name : String) (marked : Bool) (s s' : Store) :
    Prop where
  size : s.environments.size ≤ s'.environments.size
  undeclared : s.binds env name = false
  binds : ∀ e < s.environments.size, ∀ x,
    s'.binds e x = (s.binds e x || decide (e = env ∧ x = name))
  marks : ∀ e < s.environments.size, ∀ x,
    s'.isReadOnly e x = (s.isReadOnly e x || decide (marked = true ∧ e = env ∧ x = name))
  links : ∀ e < s.environments.size, s'.enclosing? e = s.enclosing? e

variable {n : Nat} {s s' s'' : Store}

theorem SameScopes.refl : SameScopes n s s :=
  ⟨Nat.le_refl _, fun _ _ _ => rfl, fun _ _ _ => rfl, fun _ _ => rfl⟩

theorem SameScopes.trans (h : SameScopes n s s') (h' : SameScopes n s' s'') :
    SameScopes n s s'' where
  size := Nat.le_trans h.size h'.size
  binds e he x := (h'.binds e he x).trans (h.binds e he x)
  marks e he x := (h'.marks e he x).trans (h.marks e he x)
  links e he := (h'.links e he).trans (h.links e he)

/-- What keeps everything, and adds names and marks further inside only, leaves the
scopes as they were. -/
theorem Kept.sameScopes {new adds : EnvironmentId → String → Prop} (h : Kept new adds s s')
    (hn : n ≤ s.environments.size) (hnew : ∀ e x, new e x → n ≤ e)
    (hadds : ∀ e x, adds e x → n ≤ e) : SameScopes n s s' where
  size := h.size
  binds e he x := by
    refine Bool.eq_iff_iff.mpr ⟨fun hb => ?_, fun hb => ?_⟩
    · rcases h.added hb with hold | hge | ha
      · exact hold
      · exact absurd he (Nat.not_lt_of_le (Nat.le_trans hn hge))
      · exact absurd he (Nat.not_lt_of_le (hadds e x ha))
    · obtain ⟨v, hv⟩ := Option.isSome_iff_exists.mp hb
      exact Option.isSome_iff_exists.mpr ⟨v, h.names hv⟩
  marks e he x := by
    refine Bool.eq_iff_iff.mpr ⟨fun hm => ?_, h.marks⟩
    rcases h.marked hm with hold | hm
    · exact hold
    · exact absurd he (Nat.not_lt_of_le (hnew e x hm))
  links e he := h.links e (Nat.lt_of_lt_of_le he hn)

/-- What keeps everything and adds nothing leaves the scopes as they were. -/
theorem sameScopes_of_kept (h : Kept (fun _ _ => False) (fun _ _ => False) s s')
    (hn : n ≤ s.environments.size) : SameScopes n s s' :=
  h.sameScopes hn (fun _ _ => False.elim) fun _ _ => False.elim

/-- To change what a name stands for is to leave the scopes as they were. -/
theorem sameScopes_put {e : EnvironmentId} {x : String} (h : s.binds e x = true) (v : Value) :
    SameScopes n s (s.put e x v) where
  size := by simp
  binds f _ y := by
    refine Bool.eq_iff_iff.mpr ⟨fun hb => ?_, fun hb => ?_⟩
    · rcases binds_of_put hb with hold | ⟨rfl, rfl⟩
      · exact hold
      · exact h
    · rw [binds, getLocal?_put]
      split
      · rfl
      · exact hb
  marks f _ y := by simp
  links f _ := by simp

/-- A name is added to an environment of which the scopes were left alone. -/
theorem Declared.of_define {env : EnvironmentId} {name : Token} {v : Value}
    (h : SameScopes s.environments.size s s') (henv : env < s.environments.size)
    (hd : s'.define env name v = .ok s'') : Declared env name.lexeme false s s'' := by
  obtain ⟨hb, rfl⟩ := define_eq_ok.mp hd
  refine ⟨by simpa using h.size, ?_, fun e he x => ?_, fun e he x => ?_, fun e he => ?_⟩
  · exact (h.binds env henv name.lexeme).symm.trans hb
  · rw [Store.binds, getLocal?_put, ← h.binds e he x]
    have hlt : env < s'.environments.size := Nat.lt_of_lt_of_le henv h.size
    by_cases heq : e = env ∧ x = name.lexeme
    · simp [heq, hlt]
    · rw [if_neg fun h => heq ⟨h.1, h.2.2⟩, decide_eq_false heq, Bool.or_false]
      rfl
  · simp [h.marks e he x]
  · simp [h.links e he]

/-- The name that was added is made read-only. -/
theorem Declared.protect {env : EnvironmentId} {name : String}
    (h : Declared env name false s s') (henv : env < s.environments.size) :
    Declared env name true s (s'.protect env name) where
  size := by simpa using h.size
  undeclared := h.undeclared
  binds e he x := by simpa [Store.binds] using h.binds e he x
  marks e he x := by
    have hlt : env < s'.environments.size := Nat.lt_of_lt_of_le henv h.size
    rw [isReadOnly_protect, h.marks e he x]
    simp [hlt, Bool.or_comm]
  links e he := by simpa using h.links e he

theorem Declared.of_defineReadOnly {env : EnvironmentId} {name : Token} {v : Value}
    (h : SameScopes s.environments.size s s') (henv : env < s.environments.size)
    (hd : s'.defineReadOnly env name v = .ok s'') : Declared env name.lexeme true s s'' := by
  obtain ⟨hb, rfl⟩ := defineReadOnly_eq_ok.mp hd
  exact (Declared.of_define h henv (define_eq_ok.mpr ⟨hb, rfl⟩)).protect henv

end Store

/-! ## Statements that declare nothing -/

/-- Nothing is declared by the statement itself: neither by it nor as a branch or as
the body of a loop. -/
inductive Stmt.Quiet : Stmt → Prop
  | branch {condition onTrue onFalse} : Quiet onTrue → (∀ st ∈ onFalse, Quiet st) →
      Quiet (.branch condition onTrue onFalse)
  | whileLoop {condition body step} : Quiet body → Quiet (.whileLoop condition body step)
  | print {e} : Quiet (.print e)
  | expression {e} : Quiet (.expression e)
  | block {body} : Quiet (.block body)
  | functionDecl {d} : d.name = none → Quiet (.functionDecl d)
  | returnWith {keyword e} : Quiet (.returnWith keyword e)
  | breakLoop {keyword} : Quiet (.breakLoop keyword)
  | continueLoop {keyword} : Quiet (.continueLoop keyword)

theorem Stmt.Quiet.declares {st : Stmt} (h : st.Quiet) : st.declares = none := by
  cases h with
  | functionDecl hd => exact hd
  | _ => rfl

/-- What a text declares nothing with is quiet throughout. -/
theorem WordedStmt.quiet {st : Stmt} (h : WordedStmt st) (hd : st.declares = none) :
    st.Quiet := by
  cases h with
  | @branch _ onTrue onFalse _ ht htn hf hfn =>
      refine .branch (ht.quiet htn) ?_
      cases onFalse with
      | none => exact nofun
      | some onFalse =>
          rintro st ⟨⟩
          exact (hf onFalse rfl).quiet (hfn onFalse rfl)
  | whileLoop _ hb hbn _ => exact .whileLoop (hb.quiet hbn)
  | functionDecl _ => exact .functionDecl hd
  | print _ => exact .print
  | expression _ => exact .expression
  | block _ => exact .block
  | returnWith _ => exact .returnWith
  | breakLoop => exact .breakLoop
  | continueLoop => exact .continueLoop
  | varDecl | letDecl | classDecl | moduleDecl => cases hd
termination_by sizeOf st

/-- Resolving adds no declaration. -/
theorem Context.quiet_stmt {st : Stmt} (h : st.Quiet) (c : Context) : (c.stmt st).Quiet := by
  induction h generalizing c with
  | @branch condition onTrue onFalse _ _ iht ihf =>
      cases onFalse with
      | none => exact .branch (iht c) nofun
      | some st =>
          refine .branch (iht c) ?_
          rintro st' ⟨⟩
          exact ihf st rfl (c.after onTrue)
  | whileLoop _ ih => exact .whileLoop (ih c.looping)
  | @functionDecl d hd => exact .functionDecl ((c.declares_stmt (.functionDecl d)).trans hd)
  | print => exact .print
  | expression => exact .expression
  | block => exact .block
  | returnWith => exact .returnWith
  | breakLoop => exact .breakLoop
  | continueLoop => exact .continueLoop

/-! ## What a machine is still to declare -/

/-- What the frame declares, or lets be declared, is outside of the first `n`
environments. -/
def Frame.Inner (n : Nat) : Frame → Prop
  | .varDecl _ env | .letDecl _ env | .superclass _ _ _ env | .moduleBody _ _ env
  | .sequence _ env => n ≤ env
  | .branch onTrue onFalse env => n ≤ env ∨ onTrue.Quiet ∧ ∀ st ∈ onFalse, st.Quiet
  | .loopTest _ body _ env | .loopStep _ body _ env | .loopBody _ body _ env =>
    n ≤ env ∨ body.Quiet
  | _ => True

def Control.Inner (n : Nat) : Control → Prop
  | .execute st env => n ≤ env ∨ st.Quiet
  | _ => True

namespace Machine

/-- Nothing that the machine is still to declare goes into the first `n`
environments. -/
structure Inner (n : Nat) (m : Machine) : Prop where
  control : m.control.Inner n
  stack : ∀ frame ∈ m.stack, frame.Inner n

theorem Inner.due {n : Nat} {m : Machine} (h : m.Inner n) {env : EnvironmentId} {x : Token}
    (hdue : m.due = some (env, x)) : n ≤ env := by
  obtain ⟨control, stack, s⟩ := m
  obtain ⟨hc, hk⟩ := h
  have htop : ∀ {frame rest}, stack = frame :: rest → frame.due = some (env, x) → n ≤ env := by
    intro frame rest hstack hframe
    have hin : frame.Inner n := hk frame (hstack ▸ List.mem_cons_self)
    cases frame with
    | varDecl | letDecl | superclass | moduleBody =>
        cases hframe
        exact hin
    | _ => cases hframe
  cases control with
  | evaluate | unwind => cases hdue
  | execute st e =>
      obtain ⟨y, hy, hpair⟩ := Option.map_eq_some_iff.mp hdue
      cases hpair
      rcases hc with hle | hquiet
      · exact hle
      · exact absurd (hquiet.declares.symm.trans hy) nofun
  | value | done =>
      cases stack with
      | nil => cases hdue
      | cons frame rest => exact htop rfl hdue

/-- A machine that declares nothing in the first environments marks nothing there. -/
theorem Inner.marks {n : Nat} {m : Machine} (h : m.Inner n)
    (hn : n ≤ m.state.store.environments.size) {e : EnvironmentId} {x : String}
    (hmarks : m.Marks e x) : n ≤ e := by
  cases hmarks with
  | lambda _ => exact hn
  | letDecl => exact h.stack _ List.mem_cons_self
  | moduleDecl => exact h.stack _ List.mem_cons_self

section
variable {n : Nat} {stack : List Frame} {s : State} (hk : ∀ frame ∈ stack, frame.Inner n)
include hk

theorem inner_push {control : Control} {frame : Frame} (hc : control.Inner n)
    (hframe : frame.Inner n) : Inner n ⟨control, frame :: stack, s⟩ :=
  ⟨hc, List.forall_mem_cons.mpr ⟨hframe, hk⟩⟩

theorem inner_fail (e : RuntimeError) : Inner n (fail e stack s) := ⟨trivial, hk⟩

theorem inner_yield (r : Except RuntimeError Value) : Inner n (yield r stack s) := by
  cases r <;> exact ⟨trivial, hk⟩

theorem inner_yieldWith (v : Value) (r : Except RuntimeError Store) :
    Inner n (yieldWith v r stack s) := by
  cases r <;> exact ⟨trivial, hk⟩

theorem inner_doneWith (r : Except RuntimeError Store) : Inner n (doneWith r stack s) := by
  cases r <;> exact ⟨trivial, hk⟩

/-- The environment of a call is a new one. -/
theorem inner_enter (hn : n ≤ s.store.environments.size) (f : Closure)
    (arguments : List Value) : Inner n (enter f arguments stack s) := by
  unfold enter
  dsimp only
  split
  · have hbody : ∀ frame ∈ Frame.functionBody f :: stack, frame.Inner n :=
      List.forall_mem_cons.mpr ⟨trivial, hk⟩
    exact inner_push hbody trivial hn
  · exact inner_fail hk _

theorem inner_invoke (hn : n ≤ s.store.environments.size) (c : Callable)
    (arguments : List Value) : Inner n (invoke c arguments stack s) := by
  cases c with
  | function f => exact inner_enter (s := s.note _) hk hn f arguments
  | native n => exact inner_yield hk _
  | «class» c =>
      show Inner n (construct c arguments stack (s.note _))
      unfold construct
      cases c.findMethod? FunctionDecl.initializerName with
      | none => exact ⟨trivial, hk⟩
      | some init =>
          have hmade : ∀ frame ∈ Frame.constructed (s.store.newInstance c).1 :: stack,
              frame.Inner n := List.forall_mem_cons.mpr ⟨trivial, hk⟩
          refine inner_enter hmade ?_ _ arguments
          exact Nat.le_trans hn (Store.size_newEnvironment s.store _ ▸ Nat.le_succ _)

theorem inner_applyNext (hn : n ≤ s.store.environments.size) (callee : Value)
    (earlier : List Value) (paren : Token) (later : List Expr) (env : EnvironmentId) :
    Inner n (applyNext callee earlier paren later env stack s) := by
  cases later with
  | cons e es => exact inner_push hk trivial trivial
  | nil =>
      show Inner n (apply callee earlier.reverse paren stack s)
      unfold apply
      split
      · split
        · exact inner_fail hk _
        · split
          · exact inner_fail hk _
          · have hcall : ∀ frame ∈ Frame.activeCall paren :: stack, frame.Inner n :=
              List.forall_mem_cons.mpr ⟨trivial, hk⟩
            exact inner_invoke (s := { s with callDepth := s.callDepth + 1 }) hcall hn _ _
      · exact inner_fail hk _

theorem inner_arrayNext (bracket : Token) (size : Option Nat) (earlier : List Value)
    (later : List Expr) (env : EnvironmentId) :
    Inner n (arrayNext bracket size earlier later env stack s) := by
  cases later with
  | cons e es => exact inner_push hk trivial trivial
  | nil =>
      unfold arrayNext
      dsimp only
      split <;> exact ⟨trivial, hk⟩

theorem inner_evaluate (e : Expr) (env : EnvironmentId) : Inner n (evaluate e env stack s) := by
  cases e with
  | literal | grouping => exact ⟨trivial, hk⟩
  | «variable» | receiver => exact inner_yield hk _
  | superMethod =>
      simp only [evaluate]
      split <;> exact ⟨trivial, hk⟩
  | function d =>
      simp only [evaluate, lambda]
      split
      · exact inner_yieldWith hk _ _
      · exact ⟨trivial, hk⟩
  | array bracket size es =>
      cases size with
      | none => exact inner_arrayNext hk ..
      | some => exact inner_push hk trivial trivial
  | _ => exact inner_push hk trivial trivial

theorem inner_loopNext {condition : Expr} {body : Stmt} {step : Option Expr}
    {env : EnvironmentId} (h : n ≤ env ∨ body.Quiet) :
    Inner n (loopNext condition body step env stack s) := by
  cases step <;> exact inner_push hk trivial h

theorem inner_defineClass (name : Token) (superclass : Option Class) (ms : List FunctionDecl)
    (env : EnvironmentId) : Inner n (defineClass name superclass ms env stack s) := by
  cases superclass <;> exact inner_doneWith hk _

theorem inner_execute (hn : n ≤ s.store.environments.size) {st : Stmt} {env : EnvironmentId}
    (h : n ≤ env ∨ st.Quiet) : Inner n (execute st env stack s) := by
  -- a declaration that waits for something goes into `env` itself
  have hdeclares : ∀ x, st.declares = some x → n ≤ env := by
    intro x hx
    rcases h with hle | hquiet
    · exact hle
    · exact absurd (hquiet.declares.symm.trans hx) nofun
  cases st with
  | print | expression => exact inner_push hk trivial trivial
  | varDecl name e =>
      cases e with
      | none => exact inner_doneWith hk _
      | some e => exact inner_push hk trivial (hdeclares name rfl)
  | letDecl name e => exact inner_push hk trivial (hdeclares name rfl)
  | block body => exact inner_push hk trivial hn
  | branch condition onTrue onFalse =>
      refine inner_push hk trivial (h.imp_right fun hquiet => ?_)
      cases hquiet with
      | branch ht hf => exact ⟨ht, hf⟩
  | whileLoop condition body step =>
      refine inner_push hk trivial (h.imp_right fun hquiet => ?_)
      cases hquiet with
      | whileLoop hb => exact hb
  | functionDecl d =>
      simp only [execute]
      split
      · exact inner_doneWith hk _
      · exact ⟨trivial, hk⟩
  | classDecl name e ms =>
      cases e with
      | none => exact inner_defineClass hk name none ms env
      | some e => exact inner_push hk trivial (hdeclares name rfl)
  | returnWith keyword e =>
      cases e with
      | none => exact ⟨trivial, hk⟩
      | some e => exact inner_push hk trivial trivial
  | breakLoop | continueLoop => exact ⟨trivial, hk⟩
  | moduleDecl name body =>
      have hmodule : ∀ frame ∈ Frame.moduleBody name s.store.environments.size env :: stack,
          frame.Inner n := List.forall_mem_cons.mpr ⟨hdeclares name rfl, hk⟩
      exact inner_push hmodule trivial hn

theorem inner_resume (hn : n ≤ s.store.environments.size) {frame : Frame}
    (h : frame.Inner n) (v : Value) : Inner n (resume v frame stack s) := by
  cases frame with
  | unary | binary => exact inner_yield hk _
  | binaryRight => exact inner_push hk trivial trivial
  | assign => exact inner_yieldWith hk _ _
  | callee | argument => exact inner_applyNext hk hn ..
  | arrayElement => exact inner_arrayNext hk ..
  | varDecl | letDecl => exact inner_doneWith hk _
  | loopStep => exact inner_push hk trivial h
  | print =>
      simp only [resume, printValue]
      split <;> exact ⟨trivial, hk⟩
  | get =>
      simp only [resume]
      split
      · split <;> exact ⟨trivial, hk⟩
      · split <;> exact ⟨trivial, hk⟩
      · exact inner_fail hk _
  | setObject =>
      simp only [resume]
      split
      · exact inner_push hk trivial trivial
      · exact inner_push hk trivial trivial
      · exact inner_fail hk _
  | setMember =>
      simp only [resume]
      split
      · exact inner_fail hk _
      · split <;> exact ⟨trivial, hk⟩
  | arraySize =>
      simp only [resume]
      split
      · exact inner_arrayNext hk ..
      · exact inner_fail hk _
  | indexObject | setIndexObject | setIndexAt =>
      simp only [resume]
      split
      · exact inner_push hk trivial trivial
      · exact inner_fail hk _
  | index =>
      simp only [resume]
      split
      · split <;> exact ⟨trivial, hk⟩
      · exact inner_fail hk _
  | logical | setIndex =>
      simp only [resume]
      split <;> exact ⟨trivial, hk⟩
  | branch onTrue onFalse env =>
      simp only [resume]
      split
      · exact ⟨h.imp_right And.left, hk⟩
      · cases onFalse with
        | none => exact ⟨trivial, hk⟩
        | some st => exact ⟨h.imp_right fun hquiet => hquiet.2 st rfl, hk⟩
  | loopTest =>
      simp only [resume]
      split
      · exact inner_push hk h h
      · exact ⟨trivial, hk⟩
  | superclass =>
      simp only [resume]
      split
      · exact inner_defineClass hk ..
      · exact inner_fail hk _
  | _ => exact ⟨trivial, hk⟩

theorem inner_proceed {frame : Frame} (h : frame.Inner n) :
    Inner n (proceed frame stack s) := by
  cases frame with
  | sequence later env =>
      cases later with
      | nil => exact ⟨trivial, hk⟩
      | cons st later => exact inner_push hk (.inl h) h
  | loopBody => exact inner_loopNext hk h
  | moduleBody => exact inner_doneWith hk _
  | functionBody => exact inner_yield hk _
  | _ => exact ⟨trivial, hk⟩

theorem inner_unwind {frame : Frame} (h : frame.Inner n) (signal : Signal) :
    Inner n (unwind signal frame stack s) := by
  cases frame with
  | loopBody =>
      cases signal with
      | continuing => exact inner_loopNext hk h
      | _ => exact ⟨trivial, hk⟩
  | functionBody =>
      cases signal with
      | returning => exact inner_yield hk _
      | _ => exact ⟨trivial, hk⟩
  | activeCall => cases signal <;> exact ⟨trivial, hk⟩
  | _ => exact ⟨trivial, hk⟩

end

/-- A machine that declares nothing in the first environments moves on to one. -/
theorem Inner.step {n : Nat} {m : Machine} (h : m.Inner n)
    (hn : n ≤ m.state.store.environments.size) : m.step.Inner n := by
  obtain ⟨control, stack, s⟩ := m
  obtain ⟨hc, hk⟩ := h
  cases control with
  | evaluate e env => exact inner_evaluate hk e env
  | execute st env => exact inner_execute hk hn hc
  | value v =>
      cases stack with
      | nil => exact ⟨hc, hk⟩
      | cons frame stack =>
          obtain ⟨hframe, hk⟩ := List.forall_mem_cons.mp hk
          exact inner_resume hk hn hframe v
  | done =>
      cases stack with
      | nil => exact ⟨hc, hk⟩
      | cons frame stack =>
          obtain ⟨hframe, hk⟩ := List.forall_mem_cons.mp hk
          exact inner_proceed hk hframe
  | unwind signal =>
      cases stack with
      | nil => exact ⟨hc, hk⟩
      | cons frame stack =>
          obtain ⟨hframe, hk⟩ := List.forall_mem_cons.mp hk
          exact inner_unwind hk hframe signal

/-- One move of it leaves their scopes as they were. -/
theorem Inner.sameScopes_step {n : Nat} {m : Machine} (h : m.Inner n)
    (hn : n ≤ m.state.store.environments.size) :
    Store.SameScopes n m.state.store m.step.state.store := by
  rcases m.kept_step with hkept | ⟨e, x, v, hrebinds, hput⟩
  · refine hkept.sameScopes hn (fun e x hmarks => h.marks hn hmarks) ?_
    rintro e x ⟨name, hdue, rfl⟩
    exact h.due hdue
  · rw [hput]
    cases hrebinds with
    | assign _ hb | setMember _ hb => exact Store.sameScopes_put hb v

/-- So does a whole run. -/
theorem Inner.sameScopes_run {n : Nat} {m : Machine} (h : m.Inner n)
    (hn : n ≤ m.state.store.environments.size) (moves : Nat) :
    Store.SameScopes n m.state.store (run moves m).state.store := by
  induction moves generalizing m with
  | zero => exact .refl
  | succ moves ih =>
      rw [run_succ]
      have hstep := h.sameScopes_step hn
      exact hstep.trans (ih (h.step hn) (Nat.le_trans hn hstep.size))

end Machine

/-! ## Declarations -/

/-- What a frame declares. -/
def Frame.declaration? : Frame → Option (EnvironmentId × Declaration)
  | .varDecl name env => some (env, ⟨name, .variable⟩)
  | .letDecl name env => some (env, ⟨name, .constant⟩)
  | .superclass name _ _ env => some (env, ⟨name, .class⟩)
  | .moduleBody name _ env => some (env, ⟨name, .module⟩)
  | _ => none

namespace Machine

/-- The declaration `d` in `env`, which began with the store `s₀`, has come to its end. -/
inductive Declared (s₀ : Store) (env : EnvironmentId) (d : Declaration) : Machine → Prop
  | done {s} : Store.Declared env d.name.lexeme d.readOnly s₀ s.store →
      Declared s₀ env d ⟨.done, [], s⟩
  | failed {signal s} : Store.SameScopes s₀.environments.size s₀ s.store →
      Declared s₀ env d ⟨.unwind signal, [], s⟩

theorem Declared.hasHalted {s₀ : Store} {env : EnvironmentId} {d : Declaration} {m : Machine}
    (h : Declared s₀ env d m) : m.hasHalted = true := by
  cases h <;> rfl

section
variable {s₀ : Store} {env : EnvironmentId} (henv : env < s₀.environments.size) {s : State}
  (hs : Store.SameScopes s₀.environments.size s₀ s.store)
include henv hs

theorem Declared.of_define {d : Declaration} (hd : d.readOnly = false) (v : Value) :
    Declared s₀ env d (doneWith (s.store.define env d.name v) [] s) := by
  cases h : s.store.define env d.name v with
  | ok store => exact .done (hd ▸ .of_define hs henv h)
  | error e => exact .failed hs

theorem Declared.of_defineReadOnly {d : Declaration} (hd : d.readOnly = true) (v : Value) :
    Declared s₀ env d (doneWith (s.store.defineReadOnly env d.name v) [] s) := by
  cases h : s.store.defineReadOnly env d.name v with
  | ok store => exact .done (hd ▸ .of_defineReadOnly hs henv h)
  | error e => exact .failed hs

/-- The superclass and the methods of a class go into environments of their own. -/
theorem Declared.of_defineClass (name : Token) (superclass : Option Class)
    (ms : List FunctionDecl) :
    Declared s₀ env ⟨name, .class⟩ (defineClass name superclass ms env [] s) := by
  have hfinish : ∀ scope store, Store.SameScopes s₀.environments.size s₀ store →
      Declared s₀ env ⟨name, .class⟩ (finishClass name superclass ms env scope store [] s) := by
    intro scope store hstore
    have hmade : Store.SameScopes s₀.environments.size store
        (makeMethods store scope [] ms).2.newIdentity.2 :=
      Store.sameScopes_of_kept ((kept_makeMethods store scope [] ms).trans
        (Store.kept_of_environments rfl)) hstore.size
    exact Declared.of_define (d := ⟨name, .class⟩) (s := { s with store := _, events := _ }) henv
      (hstore.trans hmade) rfl _
  cases superclass with
  | none => exact hfinish env s.store hs
  | some above =>
      have hscope := Store.sameScopes_of_kept (Store.kept_newEnvironment s.store
        [(superName, .callable (.class above))] (some env)) hs.size
      exact hfinish _ _ (hs.trans hscope)

/-- What a declaration waited for is there, or a signal has come instead: this is the
last move of the declaration. -/
theorem Declared.of_frame {frame : Frame} {d : Declaration}
    (hframe : frame.declaration? = some (env, d)) {control : Control}
    (hfits : control.Fits [frame]) (hcontrol : Machine.hasHalted ⟨control, [], s⟩ = true) :
    Declared s₀ env d (step ⟨control, [frame], s⟩) := by
  have hunwind : ∀ signal, Declared s₀ env d (step ⟨.unwind signal, [frame], s⟩) := by
    intro signal
    cases frame with
    | varDecl | letDecl | superclass | moduleBody => cases signal <;> exact .failed hs
    | _ => cases hframe
  cases control with
  | evaluate | execute => cases hcontrol
  | unwind signal => exact hunwind signal
  | value v =>
      cases frame with
      | varDecl name env' =>
          cases hframe
          exact Declared.of_define henv hs (d := ⟨name, .variable⟩) rfl v
      | letDecl name env' =>
          cases hframe
          exact Declared.of_defineReadOnly henv hs (d := ⟨name, .constant⟩) rfl v
      | superclass name site ms env' =>
          cases hframe
          simp only [step, resume]
          split
          · exact Declared.of_defineClass henv hs name _ ms
          · exact .failed hs
      | moduleBody => cases hfits
      | _ => cases hframe
  | done =>
      cases frame with
      | moduleBody name members env' =>
          cases hframe
          exact Declared.of_defineReadOnly (s := s.note _) henv hs (d := ⟨name, .module⟩) rfl _
      | varDecl | letDecl | superclass => cases hfits
      | _ => cases hframe

end

theorem Declared.of_halted {s₀ : Store} {env : EnvironmentId}
    (henv : env < s₀.environments.size) {m : Machine}
    (hm : Store.SameScopes s₀.environments.size s₀ m.state.store) {frame : Frame}
    {d : Declaration} (hframe : frame.declaration? = some (env, d))
    (hfits : m.control.Fits (m.onto [frame]).stack) (hhalted : m.hasHalted = true) :
    Declared s₀ env d (m.onto [frame]).step := by
  obtain ⟨control, stack, s⟩ := m
  cases stack with
  | nil => exact .of_frame henv hm hframe hfits hhalted
  | cons top stack => cases control <;> cases hhalted

/-- The first move of a declaration is its last, or it leaves a frame that declares
under a machine that declares nothing. -/
theorem execute_declaration {st : Stmt} {d : Declaration} (hd : st.declaration? = some d)
    {env : EnvironmentId} {s : State} (henv : env < s.store.environments.size) :
    Declared s.store env d (execute st env [] s) ∨
      ∃ (m : Machine) (frame : Frame), execute st env [] s = m.onto [frame] ∧
        frame.declaration? = some (env, d) ∧ m.Inner s.store.environments.size ∧
        Store.SameScopes s.store.environments.size s.store m.state.store := by
  have hwait : ∀ e frame, frame.declaration? = some (env, d) →
      ∃ (m : Machine) (frame' : Frame),
        (⟨.evaluate e env, [frame], s⟩ : Machine) = m.onto [frame'] ∧
        frame'.declaration? = some (env, d) ∧ m.Inner s.store.environments.size ∧
        Store.SameScopes s.store.environments.size s.store m.state.store :=
    fun e frame hframe =>
      ⟨⟨.evaluate e env, [], s⟩, frame, rfl, hframe, ⟨trivial, List.forall_mem_nil _⟩, .refl⟩
  cases st with
  | varDecl name e =>
      cases hd
      cases e with
      | none => exact .inl (Declared.of_define henv .refl (d := ⟨name, .variable⟩) rfl .nil)
      | some e => exact .inr (hwait e (.varDecl name env) rfl)
  | letDecl name e =>
      cases hd
      exact .inr (hwait e (.letDecl name env) rfl)
  | functionDecl f =>
      obtain ⟨name, hname, rfl⟩ := Option.map_eq_some_iff.mp hd
      simp only [execute, hname]
      have hmade : Store.SameScopes s.store.environments.size s.store
          (s.store.newClosure f env false).2 :=
        Store.sameScopes_of_kept (Store.kept_of_environments rfl) (Nat.le_refl _)
      exact .inl (Declared.of_define (s := { s with store := _ }) henv hmade
        (d := ⟨name, .function⟩) rfl _)
  | classDecl name e ms =>
      cases hd
      cases e with
      | none => exact .inl (Declared.of_defineClass henv .refl name none ms)
      | some e => exact .inr (hwait e (.superclass name (e.name?.getD name) ms env) rfl)
  | moduleDecl name body =>
      cases hd
      have hmade := Store.sameScopes_of_kept
        (Store.kept_newEnvironment s.store [] (some env)) (Nat.le_refl _)
      have hbody : Inner s.store.environments.size ⟨.done,
          [.sequence body s.store.environments.size],
          { s with store := (s.store.child env).2 }⟩ :=
        ⟨trivial, List.forall_mem_singleton.mpr (Nat.le_refl _)⟩
      exact .inr ⟨_, .moduleBody name s.store.environments.size env, rfl, rfl, hbody, hmade⟩
  | _ => cases hd

theorem Stacked.run {m : Machine} (h : m.Stacked) (moves : Nat) : (run moves m).Stacked := by
  induction moves generalizing m with
  | zero => exact h
  | succ moves ih =>
      rw [run_succ]
      exact ih h.step

/-- A declaration that waits for something has come to its end or has left the scopes
as they were. -/
theorem run_waiting {s₀ : Store} {env : EnvironmentId} {d : Declaration} {m : Machine}
    {frame : Frame} (henv : env < s₀.environments.size)
    (hframe : frame.declaration? = some (env, d)) (hm : m.Inner s₀.environments.size)
    (hsame : Store.SameScopes s₀.environments.size s₀ m.state.store)
    (hstacked : (m.onto [frame]).Stacked) (moves : Nat) :
    Declared s₀ env d (run moves (m.onto [frame])) ∨
      (run moves (m.onto [frame])).hasHalted = false ∧
        Store.SameScopes s₀.environments.size s₀ (run moves (m.onto [frame])).state.store := by
  have hinside := hsame.trans (hm.sameScopes_run hsame.size moves)
  rcases run_onto moves m [frame] with ⟨-, honto⟩ | ⟨hhalted, k, j, rfl, honto⟩
  · rw [honto]
    exact .inr ⟨hasHalted_onto _ (List.cons_ne_nil _ _), hinside⟩
  · -- after `k` moves the frame has what it waited for, and one more is the last
    have hfits := (hstacked.run k).control
    rw [run_add, honto]
    rw [honto] at hfits
    cases j with
    | zero => exact .inr ⟨hasHalted_onto _ (List.cons_ne_nil _ _), hinside⟩
    | succ j =>
        have hlast : Declared s₀ env d ((run (k + (j + 1)) m).onto [frame]).step :=
          .of_halted henv hinside hframe hfits hhalted
        rw [run_succ, run_of_hasHalted hlast.hasHalted]
        exact .inl hlast

/-- However many moves a declaration is allowed, it has come to its end or has left the
scopes as they were. -/
theorem run_declaration {st : Stmt} {d : Declaration} (hd : st.declaration? = some d)
    {env : EnvironmentId} {s : State} (henv : env < s.store.environments.size)
    (moves : Nat) :
    Declared s.store env d (run moves ⟨.execute st env, [], s⟩) ∨
      (run moves ⟨.execute st env, [], s⟩).hasHalted = false ∧
        Store.SameScopes s.store.environments.size s.store
          (run moves ⟨.execute st env, [], s⟩).state.store := by
  have hstacked : Stacked ⟨.execute st env, [], s⟩ := ⟨trivial, trivial⟩
  cases moves with
  | zero => exact .inr ⟨rfl, .refl⟩
  | succ moves =>
      rw [run_succ]
      rcases execute_declaration hd henv with h | ⟨m, frame, hfirst, hframe, hinner, hsame⟩
      · refine .inl ?_
        rw [show step ⟨.execute st env, [], s⟩ = execute st env [] s from rfl,
          run_of_hasHalted h.hasHalted]
        exact h
      · have hstep : step ⟨.execute st env, [], s⟩ = m.onto [frame] := hfirst
        rw [hstep]
        exact run_waiting henv hframe hinner hsame (hstep ▸ hstacked.step) moves

end Machine

/-! ## The theorem -/

open Store in
/-- Evaluating an expression, whatever comes of it, leaves the names, the read-only marks
and the links of all environments as they were.  Of the statements that a text can hold,
as read or resolved, those that declare nothing do so too, and a declaration adds its one
name to the environment that it runs in if it ends well, and nothing if it does not. -/
theorem scopes_grow_by_declarations (moves : Nat) (s : State) (env : EnvironmentId) :
    (∀ e, SameScopes s.store.environments.size s.store
      (State.evaluate moves e env s).2.store) ∧
    ∀ body, WasRead body → ∀ p c st₀, visitAt [body] p = some ⟨c, .stmt st₀⟩ →
      ∀ st, st = st₀ ∨ st = c.stmt st₀ →
      ∀ ending s', State.execute moves st env s = (ending, s') →
        (st.declaration? = none → SameScopes s.store.environments.size s.store s'.store) ∧
        ∀ d, st.declaration? = some d → env < s.store.environments.size →
          (ending = .answer () → Store.Declared env d.name.lexeme d.readOnly s.store s'.store) ∧
          (ending ≠ .answer () → SameScopes s.store.environments.size s.store s'.store) := by
  have hinner : ∀ control : Control, control.Inner s.store.environments.size →
      SameScopes s.store.environments.size s.store
        (Machine.run moves ⟨control, [], s⟩).state.store := by
    intro control hcontrol
    have hm : Machine.Inner s.store.environments.size ⟨control, [], s⟩ :=
      ⟨hcontrol, List.forall_mem_nil _⟩
    exact hm.sameScopes_run (Nat.le_refl _) moves
  refine ⟨fun e => hinner (.evaluate e env) trivial, ?_⟩
  intro body hbody p c st₀ hv st hst ending s' hrun
  have hending : (Machine.run moves ⟨.execute st env, [], s⟩).doneEnding = ending :=
    congrArg Prod.fst hrun
  have hstate : (Machine.run moves ⟨.execute st env, [], s⟩).state = s' :=
    congrArg Prod.snd hrun
  refine ⟨fun hnone => ?_, fun d hd henv => ?_⟩
  · have hworded : WordedStmt st₀ :=
      visitAt_worded (List.forall_mem_singleton.mpr hbody) hv
    have hquiet : st.Quiet := by
      have hdeclares := Stmt.declaration?_eq_none.mp hnone
      rcases hst with rfl | rfl
      · exact hworded.quiet hdeclares
      · exact c.quiet_stmt (hworded.quiet ((c.declares_stmt st₀).symm.trans hdeclares))
    rw [← hstate]
    exact hinner (.execute st env) (.inr hquiet)
  · have hend := Machine.run_declaration hd henv moves
    rw [hstate] at hend
    generalize Machine.run moves ⟨.execute st env, [], s⟩ = m at hending hstate hend
    subst hending hstate
    rcases hend with hdeclared | ⟨hgoing, hsame⟩
    · cases hdeclared with
      | done hdone => exact ⟨fun _ => hdone, fun hno => absurd rfl hno⟩
      | failed hsame => exact ⟨nofun, fun _ => hsame⟩
    · refine ⟨fun hanswer => ?_, fun _ => hsame⟩
      obtain ⟨hcontrol, hstack⟩ := Machine.doneEnding_eq_answer.mp hanswer
      simp [Machine.hasHalted, hcontrol, hstack] at hgoing

/-! ### One declaration -/

namespace Session

/-- The program of `var f; let x = f();`. -/
def letOfCall : List Stmt :=
  [.varDecl (nameAt "f" 5) none,
   .letDecl (nameAt "x" 12) (.call (.variable (nameAt "f" 16) none) ⟨.rightParen, ")", ⟨1, 18⟩⟩ [])]

theorem read_letOfCall : (read "var f; let x = f();").2 = .ok letOfCall := by
  with_unfolding_all rfl

/-- The globals `a` and `f`, where `f` declares a name of its own and changes `a`. -/
def withFunction : State :=
  (State.interpret 20
    [.varDecl (nameAt "a" 5) none,
     .functionDecl (.mk (nameAt "f" 12) (some (nameAt "f" 12)) []
      [.varDecl (nameAt "b" 22) (some (.literal (.boolean true))),
       .expression (.assign (nameAt "a" 25) (.variable (nameAt "b" 29) (some 0)) (some 1))])]
    (State.initial none 0)).2

/-- What the function that the `let` calls declares is nobody else's; the globals get `x`
and no other name. -/
theorem scopes_grow_letOfCall :
    ∃ st s', (Resolve.program letOfCall).1[1]? = some st ∧
      State.execute 20 st State.globals withFunction = (.answer (), s') ∧
      s'.store.getLocal? State.globals "a" = some (.boolean true) ∧
      Store.Declared State.globals "x" true withFunction.store s'.store := by
  refine ⟨_, _, rfl, rfl, rfl, ?_⟩
  exact (((scopes_grow_by_declarations 20 withFunction State.globals).2 letOfCall
    ⟨_, read_letOfCall⟩ [0, 0] _ _ rfl _ (.inr rfl) _ _ rfl).2 _ rfl (by decide)).1 rfl

end Session

end Lox
