/-
# What a machine waits for, and what it is to define

Every frame waits either for a value or for the end of statements, and leaves
either a value or the end of a statement behind.  The two match wherever one frame
stands on another: `Stacked.step`.

A declaration that is being executed has a name and an environment that it is to
be defined in; `due` says which, of a control and of a frame.  The name is the one that
is declared at the place of the declaration: `Coherent.declares`.
-/
import Lox.Proofs.Coherent

namespace Lox

/-! ## Values and ends of statements -/

namespace Frame

/-- Whether the frame waits for a value, and not for the end of statements. -/
def takesValue : Frame → Bool
  | .sequence .. | .loopBody .. | .moduleBody .. | .functionBody _ => false
  | _ => true

/-- Whether the frame leaves a value behind, and not the end of a statement. -/
def givesValue : Frame → Bool
  | .print | .discard | .varDecl .. | .letDecl .. | .branch .. | .loopTest .. | .loopStep ..
  | .superclass .. | .returnWith | .sequence .. | .loopBody .. | .moduleBody .. => false
  | _ => true

end Frame

/-- The top frame waits for a value if `value` is true, and for the end of
statements otherwise. -/
def Takes (value : Bool) : List Frame → Prop
  | [] => True
  | frame :: _ => frame.takesValue = value

/-- Every frame leaves behind what the one below waits for. -/
def Stacked : List Frame → Prop
  | [] => True
  | frame :: stack => Takes frame.givesValue stack ∧ Stacked stack

/-- The control leaves behind what the top frame waits for. -/
def Control.Fits (stack : List Frame) : Control → Prop
  | .evaluate .. | .value _ => Takes true stack
  | .execute .. | .done => Takes false stack
  | .unwind _ => True

/-- What is waited for is what will be there. -/
structure Machine.Stacked (m : Machine) : Prop where
  control : m.control.Fits m.stack
  stack : Lox.Stacked m.stack

namespace Machine

section
variable {stack : List Frame} {s : State} (hk : Lox.Stacked stack)
include hk

theorem stacked_fail (e : RuntimeError) : (fail e stack s).Stacked := ⟨trivial, hk⟩

theorem stacked_yield (h : Takes true stack) (r : Except RuntimeError Value) :
    (yield r stack s).Stacked := by
  cases r with
  | ok v => exact ⟨h, hk⟩
  | error e => exact stacked_fail hk e

theorem stacked_yieldWith (h : Takes true stack) (v : Value) (r : Except RuntimeError Store) :
    (yieldWith v r stack s).Stacked := by
  cases r with
  | ok store => exact ⟨h, hk⟩
  | error e => exact stacked_fail hk e

theorem stacked_doneWith (h : Takes false stack) (r : Except RuntimeError Store) :
    (doneWith r stack s).Stacked := by
  cases r with
  | ok store => exact ⟨h, hk⟩
  | error e => exact stacked_fail hk e

theorem stacked_enter (h : Takes true stack) (f : Closure) (arguments : List Value) :
    (enter f arguments stack s).Stacked := by
  unfold enter
  dsimp only
  split
  · exact ⟨rfl, rfl, h, hk⟩
  · exact stacked_fail hk _

theorem stacked_invoke (h : Takes true stack) (c : Callable) (arguments : List Value) :
    (invoke c arguments stack s).Stacked := by
  cases c with
  | function f => exact stacked_enter hk h f arguments
  | native n => exact stacked_yield hk h _
  | «class» c =>
      show (construct c arguments stack _).Stacked
      unfold construct
      dsimp only
      split
      · rename_i init _
        have hmade : ∀ i, Lox.Stacked (.constructed i :: stack) := fun i => ⟨h, hk⟩
        exact stacked_enter (hmade _) rfl _ arguments
      · exact ⟨h, hk⟩

theorem stacked_applyNext (h : Takes true stack) (callee : Value) (earlier : List Value)
    (paren : Token) (later : List Expr) (env : EnvironmentId) :
    (applyNext callee earlier paren later env stack s).Stacked := by
  cases later with
  | cons e es => exact ⟨rfl, h, hk⟩
  | nil =>
      show (apply callee earlier.reverse paren stack s).Stacked
      have hcall : Lox.Stacked (.activeCall paren :: stack) := ⟨h, hk⟩
      unfold apply
      split
      · split
        · exact stacked_fail hk _
        · split
          · exact stacked_fail hk _
          · exact stacked_invoke hcall rfl _ _
      · exact stacked_fail hk _

theorem stacked_arrayNext (h : Takes true stack) (bracket : Token) (size : Option Nat)
    (earlier : List Value) (later : List Expr) (env : EnvironmentId) :
    (arrayNext bracket size earlier later env stack s).Stacked := by
  cases later with
  | cons e es => exact ⟨rfl, h, hk⟩
  | nil =>
      unfold arrayNext
      dsimp only
      split
      · exact ⟨h, hk⟩
      · exact stacked_fail hk _

theorem stacked_evaluate (h : Takes true stack) (e : Expr) (env : EnvironmentId) :
    (evaluate e env stack s).Stacked := by
  cases e with
  | literal | grouping => exact ⟨h, hk⟩
  | «variable» | receiver => exact stacked_yield hk h _
  | superMethod =>
      simp only [evaluate]
      split
      · exact ⟨h, hk⟩
      · exact stacked_fail hk _
  | function d =>
      simp only [evaluate, lambda]
      split
      · exact stacked_yieldWith hk h _ _
      · exact ⟨h, hk⟩
  | array bracket size es =>
      cases size with
      | none => exact stacked_arrayNext hk h ..
      | some => exact ⟨rfl, h, hk⟩
  | _ => exact ⟨rfl, h, hk⟩

theorem stacked_loopNext (h : Takes false stack) (condition : Expr) (body : Stmt)
    (step : Option Expr) (env : EnvironmentId) :
    (loopNext condition body step env stack s).Stacked := by
  cases step <;> exact ⟨rfl, h, hk⟩

theorem stacked_defineClass (h : Takes false stack) (name : Token) (superclass : Option Class)
    (ms : List FunctionDecl) (env : EnvironmentId) :
    (defineClass name superclass ms env stack s).Stacked := by
  cases superclass <;> exact stacked_doneWith hk h _

theorem stacked_execute (h : Takes false stack) (st : Stmt) (env : EnvironmentId) :
    (execute st env stack s).Stacked := by
  cases st with
  | varDecl name e =>
      cases e with
      | none => exact stacked_doneWith hk h _
      | some => exact ⟨rfl, h, hk⟩
  | functionDecl d =>
      simp only [execute]
      split
      · exact stacked_doneWith hk h _
      · exact ⟨h, hk⟩
  | classDecl name e ms =>
      cases e with
      | none =>
          simp only [execute]
          exact stacked_defineClass hk h ..
      | some => exact ⟨rfl, h, hk⟩
  | returnWith keyword e =>
      cases e with
      | none => exact ⟨trivial, hk⟩
      | some => exact ⟨rfl, h, hk⟩
  | breakLoop | continueLoop => exact ⟨trivial, hk⟩
  | moduleDecl => exact ⟨rfl, rfl, h, hk⟩
  | _ => exact ⟨rfl, h, hk⟩

theorem stacked_printValue (h : Takes false stack) (v : Value) :
    (printValue v stack s).Stacked := by
  unfold printValue
  split
  · exact ⟨h, hk⟩
  · exact stacked_fail hk _

/-- A frame that waits for a value gets one. -/
theorem stacked_resume {frame : Frame} (h : Takes frame.givesValue stack)
    (hframe : frame.takesValue = true) (v : Value) : (resume v frame stack s).Stacked := by
  cases frame with
  | sequence | loopBody | moduleBody | functionBody => cases hframe
  | unary | binary => exact stacked_yield hk h _
  | binaryRight | loopStep => exact ⟨rfl, h, hk⟩
  | assign => exact stacked_yieldWith hk h _ _
  | callee | argument => exact stacked_applyNext hk h ..
  | arrayElement => exact stacked_arrayNext hk h ..
  | setField | discard | constructed | activeCall => exact ⟨h, hk⟩
  | print => exact stacked_printValue hk h v
  | varDecl | letDecl => exact stacked_doneWith hk h _
  | returnWith => exact ⟨trivial, hk⟩
  | logical =>
      simp only [resume]
      split <;> exact ⟨h, hk⟩
  | get =>
      unfold resume
      dsimp only
      split
      · split
        · exact ⟨h, hk⟩
        · exact stacked_fail hk _
      · split
        · exact ⟨h, hk⟩
        · exact stacked_fail hk _
      · exact stacked_fail hk _
  | setObject =>
      simp only [resume]
      split
      · exact ⟨rfl, h, hk⟩
      · exact ⟨rfl, h, hk⟩
      · exact stacked_fail hk _
  | setMember =>
      unfold resume
      dsimp only
      split
      · exact stacked_fail hk _
      · split
        · exact ⟨h, hk⟩
        · exact stacked_fail hk _
  | arraySize =>
      unfold resume
      dsimp only
      split
      · exact stacked_arrayNext hk h ..
      · exact stacked_fail hk _
  | indexObject | setIndexObject | setIndexAt =>
      simp only [resume]
      split
      · exact ⟨rfl, h, hk⟩
      · exact stacked_fail hk _
  | index =>
      simp only [resume]
      split
      · split
        · exact ⟨h, hk⟩
        · exact stacked_fail hk _
      · exact stacked_fail hk _
  | setIndex =>
      simp only [resume]
      split
      · exact ⟨h, hk⟩
      · exact stacked_fail hk _
  | branch =>
      simp only [resume]
      split
      · exact ⟨h, hk⟩
      · split <;> exact ⟨h, hk⟩
  | loopTest =>
      simp only [resume]
      split
      · exact ⟨rfl, h, hk⟩
      · exact ⟨h, hk⟩
  | superclass =>
      unfold resume
      dsimp only
      split
      · exact stacked_defineClass hk h ..
      · exact stacked_fail hk _

/-- A frame that waits for the end of statements gets to know of it. -/
theorem stacked_proceed {frame : Frame} (h : Takes frame.givesValue stack)
    (hframe : frame.takesValue = false) : (proceed frame stack s).Stacked := by
  cases frame with
  | sequence later env =>
      cases later with
      | nil => exact ⟨h, hk⟩
      | cons st later => exact ⟨rfl, h, hk⟩
  | loopBody => exact stacked_loopNext hk h ..
  | moduleBody => exact stacked_doneWith hk h _
  | functionBody f => exact stacked_yield hk h _
  | _ => cases hframe

theorem stacked_unwind {frame : Frame} (h : Takes frame.givesValue stack) (signal : Signal) :
    (unwind signal frame stack s).Stacked := by
  cases frame with
  | loopBody =>
      cases signal with
      | continuing => exact stacked_loopNext hk h ..
      | breaking => exact ⟨h, hk⟩
      | failure | returning => exact ⟨trivial, hk⟩
  | functionBody =>
      cases signal with
      | returning => exact stacked_yield hk h _
      | _ => exact ⟨trivial, hk⟩
  | activeCall => cases signal <;> exact ⟨trivial, hk⟩
  | _ => exact ⟨trivial, hk⟩

end

/-- A move leaves behind what is waited for. -/
theorem Stacked.step {m : Machine} (h : m.Stacked) : m.step.Stacked := by
  obtain ⟨control, stack, s⟩ := m
  obtain ⟨hc, hk⟩ := h
  cases control with
  | evaluate e env => exact stacked_evaluate hk hc e env
  | execute st env => exact stacked_execute hk hc st env
  | value v =>
      cases stack with
      | nil => exact ⟨hc, hk⟩
      | cons frame stack => exact stacked_resume hk.2 hk.1 hc v
  | done =>
      cases stack with
      | nil => exact ⟨hc, hk⟩
      | cons frame stack => exact stacked_proceed hk.2 hk.1 hc
  | unwind signal =>
      cases stack with
      | nil => exact ⟨hc, hk⟩
      | cons frame stack => exact stacked_unwind hk.2 hk.1 signal

end Machine

/-! ## Declarations that are being executed -/

/-- What the control is to define, and in which environment. -/
def Control.due : Control → Option (EnvironmentId × Token)
  | .execute st env => st.declares.map (env, ·)
  | _ => none

/-- What the frame is to define, and in which environment. -/
def Frame.due : Frame → Option (EnvironmentId × Token)
  | .varDecl name env | .letDecl name env | .superclass name _ _ env
  | .moduleBody name _ env => some (env, name)
  | _ => none

/-- What the machine is to define, if it is at the beginning of a declaration or
has what the declaration waited for. -/
def Machine.due : Machine → Option (EnvironmentId × Token)
  | ⟨.value _, frame :: _, _⟩ | ⟨.done, frame :: _, _⟩ => frame.due
  | ⟨control, _, _⟩ => control.due

/-- The place of the declaration that the machine is at. -/
def Trail.declaring (t : Trail) (m : Machine) : Place :=
  match m.control with
  | .execute .. => t.here
  | _ => t.frames.headD []

/-- What a frame is to define, its declaration declares in the scopes of the environment. -/
theorem FrameOk.declares {w : World} {p : Place} {stack : List Frame} {frame : Frame}
    (h : FrameOk w p stack frame) {env : EnvironmentId} {x : Token}
    (hdue : frame.due = some (env, x)) :
    ∃ c st, w.visit p = some ⟨c, .stmt st⟩ ∧ st.declares = some x ∧ w.sites env = some c.sites := by
  cases frame with
  | varDecl | letDecl | moduleBody =>
      cases hdue
      obtain ⟨c, e, hv, hsites⟩ := h
      exact ⟨c, _, hv, rfl, hsites⟩
  | superclass =>
      cases hdue
      obtain ⟨c, e, ms, hv, -, hsites⟩ := h
      exact ⟨c, _, hv, rfl, hsites⟩
  | _ => cases hdue

/-- What a machine is to define, the declaration that it is at declares. -/
theorem Coherent.declares {texts : List (List Stmt)} {t : Trail} {m : Machine}
    (h : Coherent texts t m) {env : EnvironmentId} {x : Token} (hdue : m.due = some (env, x)) :
    ∃ c st, visitAt texts (t.declaring m) = some ⟨c, .stmt st⟩ ∧ st.declares = some x ∧
      (t.world texts m.state.store).sites env = some c.sites := by
  obtain ⟨control, stack, s⟩ := m
  obtain ⟨hcontrol, hstack, -⟩ := h
  have htop : ∀ {frame rest}, stack = frame :: rest → frame.due = some (env, x) →
      ∃ c st, visitAt texts (t.frames.headD []) = some ⟨c, .stmt st⟩ ∧ st.declares = some x ∧
        (t.world texts s.store).sites env = some c.sites := by
    rintro frame rest rfl hframe
    cases hp : t.frames with
    | nil =>
        rw [hp] at hstack
        exact hstack.elim
    | cons p ps =>
        rw [hp] at hstack
        exact hstack.1.declares hframe
  cases control with
  | evaluate | unwind => cases hdue
  | execute st e =>
      obtain ⟨c, st₀, hv, rfl, hsites, -⟩ := hcontrol
      obtain ⟨y, hy, hpair⟩ := Option.map_eq_some_iff.mp hdue
      cases hpair
      exact ⟨c, st₀, hv, (c.declares_stmt st₀).symm.trans hy, hsites⟩
  | value | done =>
      cases stack with
      | nil => cases hdue
      | cons frame rest => exact htop rfl hdue

end Lox
