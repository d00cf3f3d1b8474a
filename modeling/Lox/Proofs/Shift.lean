/-
# What a move does to the stack

A machine takes the top frame off its stack, unless it looks at an expression or at a
statement, and may push others on what is `below`.  Four kinds of moves differ in what is
taken and what is pushed: `Machine.shift`.

    call    an active call is pushed, with the beginning of what it calls on top
    leave   an active call is taken, and nothing is pushed
    open    a module is begun: its statements stand on its frame
    stay    what is taken and what is pushed stands for no call and no module

The number of active calls is kept in the state.  It goes up by one in the first kind,
down by one in the second, and stays as it is in the others.
-/
import Lox.Proofs.Calls

namespace Lox

/-! ## Frames of calls and modules -/

namespace Frame

/-- The closing parenthesis of the call expression that the frame stands for. -/
def paren? : Frame → Option Token
  | .activeCall paren => some paren
  | _ => none

/-- The frame stands neither for a call, or for something that is called, nor for a
module. -/
def Local : Frame → Prop
  | .constructed _ | .activeCall _ | .moduleBody .. | .functionBody _ => False
  | _ => True

/-- The frame is one that something called begins with. -/
def Called : Frame → Prop
  | .constructed _ | .functionBody _ | .sequence .. => True
  | _ => False

/-- A value makes the frame go on with a call, or end one. -/
def Calling : Frame → Prop
  | .callee .. | .argument .. | .activeCall _ => True
  | _ => False

theorem eq_of_paren? {frame : Frame} {paren : Token} (h : frame.paren? = some paren) :
    frame = .activeCall paren := by
  cases frame <;> cases h
  rfl

theorem paren?_of_not_calling {frame : Frame} (h : ¬ frame.Calling) : frame.paren? = none := by
  cases frame <;> first | rfl | exact absurd trivial h

theorem Local.paren?_eq_none {frame : Frame} (h : frame.Local) : frame.paren? = none := by
  cases frame <;> first | rfl | cases h

theorem Called.paren?_eq_none {frame : Frame} (h : frame.Called) : frame.paren? = none := by
  cases frame <;> first | rfl | cases h

end Frame

/-- The closing parentheses of the calls that are active on a stack, the innermost
first. -/
def activeCalls (stack : List Frame) : List Token := stack.filterMap Frame.paren?

@[simp] theorem activeCalls_nil : activeCalls [] = [] := rfl

@[simp] theorem activeCalls_activeCall (paren : Token) (stack : List Frame) :
    activeCalls (.activeCall paren :: stack) = paren :: activeCalls stack := rfl

theorem activeCalls_cons {frame : Frame} (h : frame.paren? = none) (stack : List Frame) :
    activeCalls (frame :: stack) = activeCalls stack := by
  simp only [activeCalls, List.filterMap_cons, h]

theorem activeCalls_append {pushed : List Frame} (h : ∀ frame ∈ pushed, frame.paren? = none)
    (stack : List Frame) : activeCalls (pushed ++ stack) = activeCalls stack := by
  have hnone : pushed.filterMap Frame.paren? = [] := List.filterMap_eq_nil_iff.mpr h
  rw [activeCalls, List.filterMap_append, hnone]
  rfl

namespace Machine

/-- What a move leaves of the stack, before it pushes anything. -/
def below (m : Machine) : List Frame :=
  match m.control with
  | .evaluate .. | .execute .. => m.stack
  | _ => m.stack.tail

/-- Frames with the property `P` may have been pushed on `stack`, and so many calls are
active. -/
structure Above (m : Machine) (P : Frame → Prop) (stack : List Frame) (depth : Nat) : Prop where
  stack : ∃ pushed, m.stack = pushed ++ stack ∧ ∀ frame ∈ pushed, P frame
  depth : m.state.callDepth = depth

/-- The kinds of moves. -/
inductive Shift (m : Machine) : Prop
  | call {c arguments paren stack} : m.Calls c arguments paren stack →
      m.step.Above Frame.Called (.activeCall paren :: stack) (m.state.callDepth + 1) → Shift m
  | leave {paren stack} : m.stack = .activeCall paren :: stack → m.below = stack →
      m.step.stack = stack → m.step.state.callDepth = m.state.callDepth - 1 → Shift m
  | «open» {name body env} : m.control = .execute (.moduleDecl name body) env → Shift m
  | stay : activeCalls m.stack = activeCalls m.below →
      m.step.Above Frame.Local m.below m.state.callDepth → Shift m

/-! ## Moves that stay -/

section
variable {P : Frame → Prop} {stack : List Frame} {s : State}

theorem above_here (control : Control) : Above ⟨control, stack, s⟩ P stack s.callDepth :=
  ⟨⟨[], rfl, List.forall_mem_nil _⟩, rfl⟩

theorem above_push (control : Control) {frame : Frame} (h : P frame) :
    Above ⟨control, frame :: stack, s⟩ P stack s.callDepth :=
  ⟨⟨[frame], rfl, List.forall_mem_singleton.mpr h⟩, rfl⟩

/-- What is above frames that may be pushed is above what they were pushed on. -/
theorem Above.under {frame : Frame} {m : Machine} {depth : Nat}
    (h : m.Above P (frame :: stack) depth) (hframe : P frame) : m.Above P stack depth := by
  obtain ⟨⟨pushed, hstack, hpushed⟩, hdepth⟩ := h
  refine ⟨⟨pushed ++ [frame], by rw [hstack, List.append_assoc]; rfl, ?_⟩, hdepth⟩
  exact List.forall_mem_append.mpr ⟨hpushed, List.forall_mem_singleton.mpr hframe⟩

theorem above_yield (r : Except RuntimeError Value) :
    (yield r stack s).Above P stack s.callDepth := by
  cases r <;> exact above_here _

theorem above_yieldWith (v : Value) (r : Except RuntimeError Store) :
    (yieldWith v r stack s).Above P stack s.callDepth := by
  cases r <;> exact above_here _

theorem above_doneWith (r : Except RuntimeError Store) :
    (doneWith r stack s).Above P stack s.callDepth := by
  cases r <;> exact above_here _

theorem above_arrayNext (bracket : Token) (size : Option Nat) (earlier : List Value)
    (later : List Expr) (env : EnvironmentId) :
    (arrayNext bracket size earlier later env stack s).Above Frame.Local stack s.callDepth := by
  cases later with
  | cons e es => exact above_push _ trivial
  | nil =>
      unfold arrayNext
      dsimp only
      split <;> exact above_here _

theorem above_evaluate (e : Expr) (env : EnvironmentId) :
    (evaluate e env stack s).Above Frame.Local stack s.callDepth := by
  cases e with
  | literal | grouping => exact above_here _
  | «variable» | receiver => exact above_yield _
  | superMethod =>
      simp only [evaluate]
      split <;> exact above_here _
  | function d =>
      simp only [evaluate, lambda]
      split
      · exact above_yieldWith ..
      · exact above_here _
  | array bracket size es =>
      cases size with
      | none => exact above_arrayNext ..
      | some => exact above_push _ trivial
  | _ => exact above_push _ trivial

theorem above_loopNext (condition : Expr) (body : Stmt) (step : Option Expr)
    (env : EnvironmentId) :
    (loopNext condition body step env stack s).Above Frame.Local stack s.callDepth := by
  cases step <;> exact above_push _ trivial

theorem above_defineClass (name : Token) (superclass : Option Class) (ms : List FunctionDecl)
    (env : EnvironmentId) :
    (defineClass name superclass ms env stack s).Above P stack s.callDepth := by
  cases superclass <;> exact above_doneWith _

theorem above_printValue (v : Value) : (printValue v stack s).Above P stack s.callDepth := by
  unfold printValue
  split <;> exact above_here _

theorem above_execute {st : Stmt} (h : ∀ name body, st ≠ .moduleDecl name body)
    (env : EnvironmentId) : (execute st env stack s).Above Frame.Local stack s.callDepth := by
  cases st with
  | varDecl name e =>
      cases e with
      | none => exact above_doneWith _
      | some e => exact above_push _ trivial
  | block body =>
      exact ⟨⟨[.sequence body _], rfl, List.forall_mem_singleton.mpr trivial⟩, rfl⟩
  | functionDecl d =>
      simp only [execute]
      split
      · exact above_doneWith _
      · exact above_here _
  | classDecl name e ms =>
      cases e with
      | none => exact above_defineClass name none ms env
      | some e => exact above_push _ trivial
  | returnWith keyword e =>
      cases e with
      | none => exact above_here _
      | some e => exact above_push _ trivial
  | breakLoop | continueLoop => exact above_here _
  | moduleDecl name body => exact absurd rfl (h name body)
  | print | expression | letDecl | branch | whileLoop => exact above_push _ trivial

/-- A frame that has nothing to do with calls goes on with a value. -/
theorem above_resume (v : Value) {frame : Frame} (h : ¬ frame.Calling) :
    (resume v frame stack s).Above Frame.Local stack s.callDepth := by
  cases frame with
  | callee | argument | activeCall => exact absurd trivial h
  | unary | binary => exact above_yield _
  | assign => exact above_yieldWith ..
  | binaryRight | loopStep => exact above_push _ trivial
  | arrayElement => exact above_arrayNext ..
  | print => exact above_printValue v
  | varDecl | letDecl => exact above_doneWith _
  | logical =>
      simp only [resume]
      split <;> exact above_here _
  | setObject | indexObject | setIndexObject | setIndexAt | setIndex | loopTest =>
      simp only [resume]
      split <;> first | exact above_push _ trivial | exact above_here _
  | get =>
      simp only [resume]
      split
      · split <;> exact above_here _
      · split <;> exact above_here _
      · exact above_here _
  | index =>
      simp only [resume]
      split
      · split <;> exact above_here _
      · exact above_here _
  | setMember | branch =>
      simp only [resume]
      split
      · exact above_here _
      · split <;> exact above_here _
  | arraySize =>
      simp only [resume]
      split
      · exact above_arrayNext ..
      · exact above_here _
  | superclass =>
      simp only [resume]
      split
      · exact above_defineClass ..
      · exact above_here _
  | _ => exact above_here _

theorem above_proceed (frame : Frame) :
    (proceed frame stack s).Above Frame.Local stack s.callDepth := by
  cases frame with
  | sequence later env =>
      cases later with
      | nil => exact above_here _
      | cons st later => exact above_push _ trivial
  | loopBody => exact above_loopNext ..
  | moduleBody name members env => exact above_doneWith _
  | functionBody => exact above_yield _
  | _ => exact above_here _

theorem above_unwind (signal : Signal) {frame : Frame} (hactive : frame.paren? = none) :
    (unwind signal frame stack s).Above Frame.Local stack s.callDepth := by
  cases frame with
  | activeCall => cases hactive
  | loopBody =>
      cases signal with
      | continuing => exact above_loopNext ..
      | breaking | failure | returning => exact above_here _
  | functionBody =>
      cases signal with
      | returning => exact above_yield _
      | breaking | failure | continuing => exact above_here _
  | _ => exact above_here _

/-! ## Calls -/

theorem above_enter (f : Closure) (arguments : List Value) :
    (enter f arguments stack s).Above Frame.Called stack s.callDepth := by
  unfold enter
  dsimp only
  split
  · refine ⟨⟨[.sequence _ _, .functionBody f], rfl, ?_⟩, rfl⟩
    exact List.forall_mem_cons.mpr ⟨trivial, List.forall_mem_singleton.mpr trivial⟩
  · exact above_here _

theorem above_invoke (c : Callable) (arguments : List Value) :
    (invoke c arguments stack s).Above Frame.Called stack s.callDepth := by
  cases c with
  | function f => exact above_enter f arguments
  | native n => exact above_yield _
  | «class» c =>
      show (construct c arguments stack (s.note (.called (.class c) arguments.length))).Above
        Frame.Called stack s.callDepth
      unfold construct
      dsimp only
      split
      · refine Above.under (above_enter _ arguments) ?_
        trivial
      · exact above_here _

/-- A frame of a call expression looks at the next argument, refuses the call, or makes
it. -/
theorem shift_applyNext (callee : Value) (earlier : List Value) (paren : Token)
    (later : List Expr) (env : EnvironmentId) {m : Machine}
    (hm : later = [] → ∀ c : Callable, callee = .callable c → c.arity = earlier.length →
      s.callDepth < maxCallDepth → m.Calls c earlier.reverse paren stack)
    (hstep : m.step = applyNext callee earlier paren later env stack s)
    (hcalls : activeCalls m.stack = activeCalls m.below)
    (hbelow : m.below = stack) (hs : m.state = s) : m.Shift := by
  subst hs
  have hstay : m.step.Above Frame.Local stack m.state.callDepth → m.Shift :=
    fun h => .stay hcalls (hbelow ▸ h)
  cases later with
  | cons e es =>
      refine hstay ?_
      rw [hstep]
      exact above_push _ trivial
  | nil =>
      have happly : m.step = apply callee earlier.reverse paren stack m.state := hstep
      have hfail : ∀ e, m.step = fail e stack m.state → m.Shift := by
        intro e he
        refine hstay ?_
        rw [he]
        exact above_here _
      unfold apply at happly
      cases callee with
      | callable c =>
          dsimp only at happly
          split at happly
          · exact hfail _ happly
          · rename_i harity
            split at happly
            · exact hfail _ happly
            · rename_i hdepth
              rw [List.length_reverse, ne_eq, not_not] at harity
              refine .call (hm rfl c rfl harity (Nat.lt_of_not_le hdepth)) ?_
              rw [happly]
              exact above_invoke c _
      | _ => exact hfail _ happly

end

/-- Every move is of one of the kinds, if the top frame gets what it waits for. -/
theorem shift {m : Machine} (h : m.control.Fits m.stack) : m.Shift := by
  obtain ⟨control, stack, s⟩ := m
  have hhalted : ∀ control : Control, Machine.hasHalted ⟨control, [], s⟩ = true →
      Shift ⟨control, [], s⟩ := by
    intro control hhalted
    have hbelow : below ⟨control, [], s⟩ = [] := by cases control <;> rfl
    refine .stay (congrArg activeCalls hbelow.symm) ?_
    rw [step_of_hasHalted hhalted, hbelow]
    exact above_here control
  cases control with
  | evaluate e env => exact .stay rfl (above_evaluate e env)
  | execute st env =>
      by_cases hst : ∃ name body, st = .moduleDecl name body
      · obtain ⟨name, body, rfl⟩ := hst
        exact .open rfl
      · refine .stay rfl (above_execute (fun name body heq => ?_) env)
        exact hst ⟨name, body, heq⟩
  | value v =>
      cases stack with
      | nil => exact hhalted (.value v) rfl
      | cons frame stack =>
          by_cases hcalling : frame.Calling
          · cases frame with
            | activeCall paren => exact .leave rfl rfl rfl rfl
            | callee paren es env =>
                refine shift_applyNext v [] paren es env ?_ rfl rfl rfl rfl
                rintro rfl c rfl harity hdepth
                exact .alone harity hdepth
            | argument callee earlier paren later env =>
                refine shift_applyNext callee (v :: earlier) paren later env ?_ rfl rfl rfl rfl
                rintro rfl c rfl harity hdepth
                exact .last harity hdepth
            | _ => cases hcalling
          · refine .stay (activeCalls_cons ?_ stack) (above_resume v hcalling)
            exact Frame.paren?_of_not_calling hcalling
  | done =>
      cases stack with
      | nil => exact hhalted .done rfl
      | cons frame stack =>
          refine .stay (activeCalls_cons ?_ stack) (above_proceed frame)
          cases frame <;> first | rfl | cases h
  | unwind signal =>
      cases stack with
      | nil => exact hhalted (.unwind signal) rfl
      | cons frame stack =>
          cases hactive : frame.paren? with
          | none => exact .stay (activeCalls_cons hactive stack) (above_unwind signal hactive)
          | some paren =>
              obtain rfl := Frame.eq_of_paren? hactive
              cases signal <;> exact .leave rfl rfl rfl rfl

end Machine

end Lox
