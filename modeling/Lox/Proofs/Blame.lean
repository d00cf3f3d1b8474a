/-
# Which failures blame a token

Every failure of an operator, of a check, of a lookup and of a declaration blames a token.
A machine raises a failure without one in two places only, `Machine.Raises`: where a native
function fails, and where a printed value cannot be written.
-/
import Lox.Proofs.Shift

namespace Lox

/-! ## Results -/

/-- A failure blames a token. -/
def Blames {α : Type} : Except RuntimeError α → Prop
  | .ok _ => True
  | .error e => e.token ≠ none

theorem blames_applyUnary (op : Token) (v : Value) : Blames (applyUnary op v) := by
  unfold applyUnary
  split
  · trivial
  · split
    · trivial
    · exact Option.some_ne_none _
  · exact Option.some_ne_none _

theorem blames_applyBinary (op : Token) (a b : Value) : Blames (applyBinary op a b) := by
  unfold applyBinary
  split
  · trivial
  · trivial
  · unfold applyPlus
    split <;> first | trivial | exact Option.some_ne_none _
  · split
    · unfold applyNumeric
      split <;> first | trivial | exact Option.some_ne_none _
    · exact Option.some_ne_none _

theorem blames_wholeNumber (what : String) (v : Value) (site : Token) :
    Blames (wholeNumber what v site) := by
  unfold wholeNumber
  split
  · split <;> first | trivial | exact Option.some_ne_none _
  · exact Option.some_ne_none _

theorem blames_arraySize (v : Value) (bracket : Token) : Blames (arraySize v bracket) := by
  have h := blames_wholeNumber "Array size" v bracket
  unfold arraySize
  split
  · rename_i he
    rw [he] at h
    exact h
  · split
    · exact Option.some_ne_none _
    · split <;> first | trivial | exact Option.some_ne_none _

theorem blames_arrayElements (size : Option Nat) (given : List Value) (bracket : Token) :
    Blames (arrayElements size given bracket) := by
  unfold arrayElements
  split
  · trivial
  · split <;> first | trivial | exact Option.some_ne_none _

theorem blames_asArray (v : Value) (bracket : Token) : Blames (asArray v bracket) := by
  unfold asArray
  split <;> first | trivial | exact Option.some_ne_none _

theorem blames_asIndex (v : Value) (length : Nat) (bracket : Token) :
    Blames (asIndex v length bracket) := by
  have h := blames_wholeNumber "Index" v bracket
  unfold asIndex
  split
  · rename_i he
    rw [he] at h
    exact h
  · split <;> first | trivial | exact Option.some_ne_none _

namespace Store

variable (s : Store) (env : EnvironmentId) (name : Token) (v : Value)

theorem blames_define : Blames (s.define env name v) := by
  unfold define
  split <;> first | trivial | exact Option.some_ne_none _

theorem blames_defineReadOnly : Blames (s.defineReadOnly env name v) := by
  have h := blames_define s env name v
  unfold defineReadOnly
  split
  · trivial
  · rename_i he
    rw [he] at h
    exact h

theorem blames_accessAt (d : Nat) : Blames (s.accessAt env d name) := by
  unfold accessAt scopeAt
  cases s.ancestor? env d with
  | none => exact Option.some_ne_none _
  | some f =>
      dsimp only
      split <;> first | trivial | exact Option.some_ne_none _

theorem blames_get (i : Instance) : Blames (s.get i name) := by
  unfold get
  split <;> first | trivial | exact Option.some_ne_none _

end Store

namespace Machine

section
variable (s : Store) (env : EnvironmentId) (name : Token)

theorem blames_lookUp (depth : Option Nat) : Blames (lookUp s name depth env) := by
  cases depth with
  | some d => exact s.blames_accessAt env name d
  | none =>
      unfold lookUp Store.access
      dsimp only
      split <;> first | trivial | exact Option.some_ne_none _

theorem blames_change (depth : Option Nat) (v : Value) :
    Blames (change s name depth env v) := by
  cases depth with
  | none =>
      unfold change Store.assign
      dsimp only
      cases s.holder? State.globals name.lexeme with
      | none => exact Option.some_ne_none _
      | some f => trivial
  | some d =>
      unfold change Store.assignAt Store.scopeAt
      dsimp only
      cases s.ancestor? env d with
      | none => exact Option.some_ne_none _
      | some f =>
          dsimp only
          cases s.assignLocal? f name.lexeme v with
          | none => exact Option.some_ne_none _
          | some s' => trivial

theorem blames_result (f : Closure) (v : Value) : Blames (result f v s) := by
  unfold result
  split
  · exact s.blames_accessAt ..
  · trivial

theorem blames_superclassAt (keyword : Token) (d : Nat) :
    Blames (superclassAt s keyword d env) := by
  have h := s.blames_accessAt env keyword d
  unfold superclassAt
  split
  · trivial
  · exact Option.some_ne_none _
  · rename_i he
    rw [he] at h
    exact h

theorem blames_receiverAt (keyword : Token) (d : Nat) : Blames (receiverAt s keyword d env) := by
  have h := s.blames_accessAt env (.implicitAt Store.receiverName keyword) (d - 1)
  unfold receiverAt
  split
  · trivial
  · exact Option.some_ne_none _
  · rename_i he
    rw [he] at h
    exact h

theorem blames_superMethod (keyword method : Token) (depth : Option Nat) :
    Blames (superMethod s keyword method depth env) := by
  cases depth with
  | none => exact Option.some_ne_none _
  | some d =>
      have hclass := blames_superclassAt s env keyword d
      have hreceiver := blames_receiverAt s env keyword d
      unfold superMethod
      dsimp only
      split
      · rename_i he
        rw [he] at hclass
        exact hclass
      · split
        · rename_i he
          rw [he] at hreceiver
          exact hreceiver
        · split <;> first | trivial | exact Option.some_ne_none _

end

/-- A parameter that cannot be added is blamed. -/
theorem blames_bindArguments {s : Store} {env : EnvironmentId} {ps : List Token}
    {vs : List Value} {e : RuntimeError} (h : (bindArguments s env ps vs).2 = some e) :
    e.token ≠ none := by
  induction ps generalizing s vs with
  | nil => cases h
  | cons p ps ih =>
      cases vs with
      | nil => cases h
      | cons v vs =>
          have hdefine := s.blames_define env p v
          unfold bindArguments at h
          split at h
          · exact ih h
          · rename_i he
            cases h
            rw [he] at hdefine
            exact hdefine

end Machine

/-- The control is not at a failure that blames nothing. -/
def Control.Blames : Control → Prop
  | .unwind (.failure e) => e.token ≠ none
  | _ => True

namespace Machine

/-! ## Moves that fail with a token -/

section
variable {stack : List Frame} {s : State}

theorem blames_yield {r : Except RuntimeError Value} (h : Blames r) :
    (yield r stack s).control.Blames := by
  cases r with
  | ok v => trivial
  | error e => exact h

theorem blames_yieldWith (v : Value) {r : Except RuntimeError Store} (h : Blames r) :
    (yieldWith v r stack s).control.Blames := by
  cases r with
  | ok store => trivial
  | error e => exact h

theorem blames_doneWith {r : Except RuntimeError Store} (h : Blames r) :
    (doneWith r stack s).control.Blames := by
  cases r with
  | ok store => trivial
  | error e => exact h

theorem blames_enter (f : Closure) (arguments : List Value) :
    (enter f arguments stack s).control.Blames := by
  unfold enter
  dsimp only
  split
  · trivial
  · rename_i hbind
    exact blames_bindArguments (congrArg Prod.snd hbind)

/-- Functions and classes are called without a failure that blames nothing. -/
theorem blames_invoke {c : Callable} {arguments : List Value}
    (h : ∀ n fault, c = .native n → n.apply s.now s.store arguments ≠ .error fault) :
    (invoke c arguments stack s).control.Blames := by
  cases c with
  | function f => exact blames_enter f arguments
  | native n =>
      refine blames_yield ?_
      show Lox.Blames ((n.apply s.now s.store arguments).mapError .unplaced)
      cases happly : n.apply s.now s.store arguments with
      | ok v => trivial
      | error fault => exact absurd happly (h n fault rfl)
  | «class» c =>
      show (construct c arguments stack _).control.Blames
      unfold construct
      dsimp only
      split
      · exact blames_enter _ arguments
      · trivial

/-- A call expression fails with a token, unless it calls a native function that fails. -/
theorem blames_applyNext {callee : Value} {earlier : List Value} (paren : Token)
    {later : List Expr} (env : EnvironmentId)
    (h : later = [] → ∀ n fault, callee = .callable (.native n) →
      Callable.arity (.native n) = earlier.length → s.callDepth < maxCallDepth →
      n.apply s.now s.store earlier.reverse ≠ .error fault) :
    (applyNext callee earlier paren later env stack s).control.Blames := by
  cases later with
  | cons e es => trivial
  | nil =>
      show (apply callee earlier.reverse paren stack s).control.Blames
      unfold apply
      split
      · split
        · exact Option.some_ne_none _
        · rename_i c harity
          split
          · exact Option.some_ne_none _
          · rename_i hdepth
            rw [List.length_reverse, ne_eq, not_not] at harity
            refine blames_invoke fun n fault hc => ?_
            cases hc
            exact h rfl n fault rfl harity (Nat.lt_of_not_le hdepth)
      · exact Option.some_ne_none _

theorem blames_arrayNext (bracket : Token) (size : Option Nat) (earlier : List Value)
    (later : List Expr) (env : EnvironmentId) :
    (arrayNext bracket size earlier later env stack s).control.Blames := by
  cases later with
  | cons e es => trivial
  | nil =>
      have h := blames_arrayElements size earlier.reverse bracket
      unfold arrayNext
      dsimp only
      split
      · trivial
      · rename_i he
        rw [he] at h
        exact h

theorem blames_evaluate (e : Expr) (env : EnvironmentId) :
    (evaluate e env stack s).control.Blames := by
  cases e with
  | «variable» | receiver => exact blames_yield (blames_lookUp ..)
  | superMethod keyword method depth =>
      simp only [evaluate]
      have h := blames_superMethod s.store env keyword method depth
      split
      · trivial
      · rename_i he
        rw [he] at h
        exact h
  | function d =>
      simp only [evaluate, lambda]
      split
      · exact blames_yieldWith _ (Store.blames_defineReadOnly ..)
      · trivial
  | array bracket size es =>
      cases size with
      | none => exact blames_arrayNext ..
      | some => trivial
  | _ => trivial

theorem blames_loopNext (condition : Expr) (body : Stmt) (step : Option Expr)
    (env : EnvironmentId) : (loopNext condition body step env stack s).control.Blames := by
  cases step <;> trivial

theorem blames_defineClass (name : Token) (superclass : Option Class) (ms : List FunctionDecl)
    (env : EnvironmentId) : (defineClass name superclass ms env stack s).control.Blames := by
  cases superclass <;> exact blames_doneWith (Store.blames_define ..)

theorem blames_execute (st : Stmt) (env : EnvironmentId) :
    (execute st env stack s).control.Blames := by
  cases st with
  | varDecl name e =>
      cases e with
      | none => exact blames_doneWith (Store.blames_define ..)
      | some => trivial
  | functionDecl d =>
      simp only [execute]
      split
      · exact blames_doneWith (Store.blames_define ..)
      · trivial
  | classDecl name e ms =>
      cases e with
      | none =>
          simp only [execute]
          exact blames_defineClass ..
      | some => trivial
  | returnWith keyword e => cases e <;> trivial
  | _ => trivial

/-- A frame that neither calls nor prints fails with a token. -/
theorem blames_resume (v : Value) {frame : Frame} (hcalling : ¬ frame.Calling)
    (hprint : frame ≠ .print) : (resume v frame stack s).control.Blames := by
  cases frame with
  | callee | argument | activeCall => exact absurd trivial hcalling
  | print => exact absurd rfl hprint
  | unary op => exact blames_yield (blames_applyUnary op v)
  | binary left op => exact blames_yield (blames_applyBinary op left v)
  | assign => exact blames_yieldWith v (blames_change ..)
  | arrayElement => exact blames_arrayNext ..
  | varDecl => exact blames_doneWith (Store.blames_define ..)
  | letDecl => exact blames_doneWith (Store.blames_defineReadOnly ..)
  | get name =>
      simp only [resume]
      split
      · rename_i i
        have h := s.store.blames_get name i
        split
        · trivial
        · rename_i he
          rw [he] at h
          exact h
      · split <;> first | trivial | exact Option.some_ne_none _
      · exact Option.some_ne_none _
  | setMember =>
      simp only [resume]
      split
      · exact Option.some_ne_none _
      · split <;> first | trivial | exact Option.some_ne_none _
  | arraySize bracket es env =>
      have h := blames_arraySize v bracket
      simp only [resume]
      split
      · exact blames_arrayNext ..
      · rename_i he
        rw [he] at h
        exact h
  | indexObject bracket i env =>
      have h := blames_asArray v bracket
      simp only [resume]
      split
      · trivial
      · rename_i he
        rw [he] at h
        exact h
  | setIndexObject bracket i e env =>
      have h := blames_asArray v bracket
      simp only [resume]
      split
      · trivial
      · rename_i he
        rw [he] at h
        exact h
  | index a bracket =>
      have h := blames_asIndex v (s.store.length a) bracket
      simp only [resume]
      split
      · split <;> first | trivial | exact Option.some_ne_none _
      · rename_i he
        rw [he] at h
        exact h
  | setIndexAt a bracket e env =>
      have h := blames_asIndex v (s.store.length a) bracket
      simp only [resume]
      split
      · trivial
      · rename_i he
        rw [he] at h
        exact h
  | superclass =>
      simp only [resume]
      split
      · exact blames_defineClass ..
      · exact Option.some_ne_none _
  | logical | setObject | setIndex | loopTest =>
      simp only [resume]
      split <;> first | trivial | exact Option.some_ne_none _
  | branch =>
      simp only [resume]
      split
      · trivial
      · split <;> trivial
  | _ => trivial

theorem blames_proceed (frame : Frame) : (proceed frame stack s).control.Blames := by
  cases frame with
  | sequence later => cases later <;> trivial
  | loopBody => exact blames_loopNext ..
  | moduleBody => exact blames_doneWith (Store.blames_defineReadOnly ..)
  | functionBody => exact blames_yield (blames_result ..)
  | _ => trivial

/-- Signals other than failures are caught without a failure that blames nothing. -/
theorem blames_unwind {signal : Signal} (h : ∀ e, signal ≠ .failure e) (frame : Frame) :
    (unwind signal frame stack s).control.Blames := by
  have hpass : (Control.unwind signal).Blames := by
    cases signal with
    | failure e => exact absurd rfl (h e)
    | returning | breaking | continuing => trivial
  cases frame with
  | loopBody =>
      cases signal with
      | continuing => exact blames_loopNext ..
      | breaking => trivial
      | failure | returning => exact hpass
  | functionBody =>
      cases signal with
      | returning => exact blames_yield (blames_result ..)
      | _ => exact hpass
  | activeCall =>
      cases signal with
      | failure e => exact absurd rfl (h e)
      | _ => exact hpass
  | _ => exact hpass

end

/-! ## Moves that fail without one -/

/-- The machine is about to raise the failure `e` without a token to blame: it calls a
native function that fails, or prints a value at which the writer fails. -/
inductive Raises : Machine → RuntimeError → Prop
  | native {m n arguments paren stack fault} : m.Calls (.native n) arguments paren stack →
      n.apply m.state.now m.state.store arguments = .error fault → Raises m (.unplaced fault)
  | print {v stack s reason} :
      (s.output.writeAll (s.store.pieces v ++ ["\n"])).2 = some reason →
      Raises ⟨.value v, .print :: stack, s⟩ (.unplaced (.notWritten reason))

variable {m : Machine} {e : RuntimeError}

theorem Raises.step (h : m.Raises e) : m.step.control = .unwind (.failure e) := by
  cases h with
  | @native _ n arguments paren stack fault hcalls happly =>
      rw [hcalls.step]
      show (yield ((n.apply m.state.now m.state.store arguments).mapError .unplaced)
        _ _).control = _
      rw [happly]
      rfl
  | @print v stack s reason hfailed =>
      show (printValue v stack s).control = _
      unfold printValue
      split
      · rename_i hwritten
        cases hfailed.symm.trans (congrArg Prod.snd hwritten)
      · rename_i hwritten
        cases hfailed.symm.trans (congrArg Prod.snd hwritten)
        rfl

/-- Where none of these fails and nothing is failing already, a failure blames a token. -/
theorem blames_step (h : ∀ e, m.control ≠ .unwind (.failure e)) (hraises : ∀ e, ¬ m.Raises e) :
    m.step.control.Blames := by
  obtain ⟨control, stack, s⟩ := m
  cases control with
  | evaluate e env => exact blames_evaluate e env
  | execute st env => exact blames_execute st env
  | value v =>
      cases stack with
      | nil => trivial
      | cons frame stack =>
          by_cases hcalling : frame.Calling
          · cases frame with
            | activeCall => trivial
            | callee paren es env =>
                refine blames_applyNext paren env ?_
                rintro rfl n fault rfl harity hdepth happly
                exact hraises _ (.native (.alone harity hdepth) happly)
            | argument callee earlier paren later env =>
                refine blames_applyNext paren env ?_
                rintro rfl n fault rfl harity hdepth happly
                exact hraises _ (.native (.last harity hdepth) happly)
            | _ => cases hcalling
          · by_cases hprint : frame = .print
            · subst hprint
              cases hwritten : (s.output.writeAll (s.store.pieces v ++ ["\n"])).2 with
              | none =>
                  show (printValue v stack s).control.Blames
                  unfold printValue
                  split
                  · trivial
                  · rename_i hfailed
                    cases hwritten.symm.trans (congrArg Prod.snd hfailed)
              | some reason => exact absurd (.print hwritten) (hraises _)
            · exact blames_resume v hcalling hprint
  | done =>
      cases stack with
      | nil => trivial
      | cons frame stack => exact blames_proceed frame
  | unwind signal =>
      have hsignal : ∀ e, signal ≠ .failure e := fun e he => h e (congrArg Control.unwind he)
      cases stack with
      | nil => cases signal <;> first | trivial | exact absurd rfl (hsignal _)
      | cons frame stack => exact blames_unwind hsignal frame

/-- A failure that blames nothing is raised where a native function fails or the writer
fails at a printed value. -/
theorem raises (h : ∀ e, m.control ≠ .unwind (.failure e))
    (hstep : m.step.control = .unwind (.failure e)) (he : e.token = none) : m.Raises e := by
  by_cases hraises : ∃ e', m.Raises e'
  · obtain ⟨e', hraises⟩ := hraises
    cases hraises.step.symm.trans hstep
    exact hraises
  · have hblames := blames_step h fun e' he' => hraises ⟨e', he'⟩
    rw [hstep] at hblames
    exact absurd he hblames

end Machine

end Lox
