/-
# Arrays keep their length

Whatever runs, the arrays of a store change in two moves only:

    the last element of an array expression is there    an array is made, after all others
    the value of an index assignment is there           one slot of one array is changed

So an array has in every later state the length that it was made with:
`Store.Later.sameLengths`.
An index that was checked stays good whatever runs before it is used, also if that
reaches the same array: `arrays_keep_length`, which says too how long an array is made,
and that an index assignment changes one slot and nothing else.
-/
import Lox.Proofs.Refused

namespace Lox

/-! ## Stores -/

namespace Store

/-- All arrays of `s` are arrays of `s'`, and as long. -/
structure SameLengths (s s' : Store) : Prop where
  size : s.arrays.size ≤ s'.arrays.size
  length : ∀ a < s.arrays.size, s'.length a = s.length a

variable {s s' s'' : Store}

theorem SameLengths.of_eq (h : s'.arrays = s.arrays) : s.SameLengths s' :=
  ⟨Nat.le_of_eq (congrArg Array.size h.symm), fun a _ => by simp only [Store.length, elements, h]⟩

theorem SameLengths.trans (h : s.SameLengths s') (h' : s'.SameLengths s'') :
    s.SameLengths s'' where
  size := Nat.le_trans h.size h'.size
  length a ha := (h'.length a (Nat.lt_of_lt_of_le ha h.size)).trans (h.length a ha)

theorem elements_newArray (s : Store) (es : Array Value) (a : ArrayId) :
    (s.newArray es).2.elements a = if a = s.arrays.size then es else s.elements a := by
  simp only [newArray, elements, Array.getElem?_push]
  split <;> rfl

theorem sameLengths_newArray (s : Store) (es : Array Value) :
    s.SameLengths (s.newArray es).2 where
  size := by simp [newArray]
  length a ha := by rw [length, elements_newArray, if_neg (Nat.ne_of_lt ha), length]

/-- One slot of one array is changed, to `v`, and nothing else of the store. -/
structure ChangesSlot (a : ArrayId) (i : Nat) (v : Value) (s s' : Store) : Prop where
  slot : i < s.length a
  elements : ∀ b j, s'.element? b j = if b = a ∧ j = i then some v else s.element? b j
  lengths : s'.arrays.size = s.arrays.size ∧ ∀ b, s'.length b = s.length b
  others : s'.environments = s.environments ∧ s'.fields = s.fields ∧
    s'.identities = s.identities

theorem changesSlot_of_setElement? {a : ArrayId} {i : Nat} {v : Value}
    (h : s.setElement? a i v = some s') : s.ChangesSlot a i v s' := by
  have helements := fun b j => element?_setElement? (b := b) (j := j) h
  unfold setElement? at h
  split at h <;> cases h
  rename_i hi
  refine ⟨hi, helements, ⟨Array.size_modify, fun b => ?_⟩, rfl, rfl, rfl⟩
  simp only [length, Store.elements, Array.getElem?_modify]
  split
  · cases s.arrays[b]? <;> simp
  · rfl

theorem ChangesSlot.sameLengths {a : ArrayId} {i : Nat} {v : Value}
    (h : s.ChangesSlot a i v s') : s.SameLengths s' :=
  ⟨Nat.le_of_eq h.lengths.1.symm, fun b _ => h.lengths.2 b⟩

theorem exists_setElement? {a : ArrayId} {i : Nat} (h : i < s.length a) (v : Value) :
    ∃ s', s.setElement? a i v = some s' :=
  ⟨_, if_pos h⟩

theorem exists_element? {a : ArrayId} {i : Nat} (h : i < s.length a) :
    ∃ v, s.element? a i = some v :=
  ⟨_, Array.getElem?_eq_getElem h⟩

theorem arrays_define {e : EnvironmentId} {name : Token} {v : Value}
    (h : s.define e name v = .ok s') : s'.arrays = s.arrays := by
  obtain ⟨-, rfl⟩ := define_eq_ok.mp h
  rfl

theorem arrays_defineReadOnly {e : EnvironmentId} {name : Token} {v : Value}
    (h : s.defineReadOnly e name v = .ok s') : s'.arrays = s.arrays := by
  obtain ⟨-, rfl⟩ := defineReadOnly_eq_ok.mp h
  rfl

theorem arrays_get {i : Instance} {name : Token} {v : Value}
    (h : s.get i name = .ok (v, s')) : s'.arrays = s.arrays := by
  unfold get at h
  split at h
  · rename_i p _
    cases p <;> cases h <;> rfl
  · cases h

end Store

/-! ## Moves that leave the arrays alone -/

namespace Machine

section
variable (stack : List Frame) (s : State)

theorem arrays_yield (r : Except RuntimeError Value) :
    (yield r stack s).state.store.arrays = s.store.arrays := by
  cases r <;> rfl

theorem arrays_yieldWith (v : Value) {r : Except RuntimeError Store}
    (h : ∀ store, r = .ok store → store.arrays = s.store.arrays) :
    (yieldWith v r stack s).state.store.arrays = s.store.arrays := by
  cases r with
  | ok store => exact h store rfl
  | error e => rfl

theorem arrays_doneWith {r : Except RuntimeError Store}
    (h : ∀ store, r = .ok store → store.arrays = s.store.arrays) :
    (doneWith r stack s).state.store.arrays = s.store.arrays := by
  cases r with
  | ok store => exact h store rfl
  | error e => rfl

theorem arrays_bindArguments (s : Store) (env : EnvironmentId) (ps : List Token)
    (vs : List Value) : (bindArguments s env ps vs).1.arrays = s.arrays := by
  induction ps generalizing s vs with
  | nil => simp only [bindArguments]
  | cons p ps ih =>
      cases vs with
      | nil => simp only [bindArguments]
      | cons v vs =>
          simp only [bindArguments]
          cases hd : s.define env p v with
          | error e => rfl
          | ok s' => exact (ih s' vs).trans (Store.arrays_define hd)

theorem arrays_enter (f : Closure) (arguments : List Value) :
    (enter f arguments stack s).state.store.arrays = s.store.arrays := by
  have hbound := arrays_bindArguments (s.store.child f.environment).2
    (s.store.child f.environment).1 f.declaration.params arguments
  unfold enter
  dsimp only
  split
  · rename_i hb
    exact (congrArg (fun b => b.1.arrays) hb).symm.trans hbound
  · rename_i hb
    exact (congrArg (fun b => b.1.arrays) hb).symm.trans hbound

theorem arrays_invoke (c : Callable) (arguments : List Value) :
    (invoke c arguments stack s).state.store.arrays = s.store.arrays := by
  cases c with
  | function f => exact arrays_enter stack (s.note _) f arguments
  | native n => exact arrays_yield stack (s.note _).tick _
  | «class» c =>
      simp only [invoke, construct]
      split
      · exact arrays_enter _ { s.note _ with store := _ } _ arguments
      · rfl

theorem arrays_applyNext (callee : Value) (earlier : List Value) (paren : Token)
    (later : List Expr) (env : EnvironmentId) :
    (applyNext callee earlier paren later env stack s).state.store.arrays = s.store.arrays := by
  cases later with
  | cons e es => rfl
  | nil =>
      simp only [applyNext, apply]
      split
      · split
        · rfl
        · split
          · rfl
          · exact arrays_invoke _ { s with callDepth := s.callDepth + 1 } _ _
      · rfl

theorem arrays_lambda (d : FunctionDecl) (env : EnvironmentId) :
    (lambda d env stack s).state.store.arrays = s.store.arrays := by
  unfold lambda
  split
  · exact arrays_yieldWith stack { s with store := _ } _ fun _ => Store.arrays_defineReadOnly
  · rfl

theorem arrays_loopNext (condition : Expr) (body : Stmt) (step : Option Expr)
    (env : EnvironmentId) :
    (loopNext condition body step env stack s).state.store.arrays = s.store.arrays := by
  cases step <;> rfl

theorem arrays_makeMethods (s : Store) (env : EnvironmentId) (table : Table Closure)
    (ds : List FunctionDecl) : (makeMethods s env table ds).2.arrays = s.arrays := by
  induction ds generalizing s table with
  | nil => rfl
  | cons d ds ih =>
      unfold makeMethods
      split
      · exact ih s.newIdentity.2 _
      · exact ih s table

theorem arrays_defineClass (name : Token) (superclass : Option Class) (ms : List FunctionDecl)
    (env : EnvironmentId) :
    (defineClass name superclass ms env stack s).state.store.arrays = s.store.arrays := by
  have hfinish : ∀ scope store, store.arrays = s.store.arrays →
      (finishClass name superclass ms env scope store stack s).state.store.arrays =
        s.store.arrays := fun scope store hstore =>
    (arrays_doneWith stack { s with store := _, events := _ } fun _ => Store.arrays_define).trans
      ((arrays_makeMethods store scope [] ms).trans hstore)
  cases superclass <;> exact hfinish _ _ rfl

theorem arrays_printValue (v : Value) :
    (printValue v stack s).state.store.arrays = s.store.arrays := by
  unfold printValue
  split <;> rfl

theorem arrays_execute (st : Stmt) (env : EnvironmentId) :
    (execute st env stack s).state.store.arrays = s.store.arrays := by
  cases st with
  | varDecl name e =>
      cases e with
      | none => exact arrays_doneWith stack s fun _ => Store.arrays_define
      | some => rfl
  | functionDecl d =>
      simp only [execute]
      split
      · exact arrays_doneWith stack { s with store := _ } fun _ => Store.arrays_define
      · rfl
  | classDecl name e ms =>
      cases e with
      | none =>
          simp only [execute]
          exact arrays_defineClass ..
      | some => rfl
  | returnWith keyword e => cases e <;> rfl
  | _ => rfl

theorem arrays_proceed (frame : Frame) :
    (proceed frame stack s).state.store.arrays = s.store.arrays := by
  cases frame with
  | sequence later => cases later <;> rfl
  | loopBody => exact arrays_loopNext ..
  | moduleBody =>
      exact arrays_doneWith stack (s.note _) fun _ => Store.arrays_defineReadOnly
  | functionBody => exact arrays_yield ..
  | _ => rfl

theorem arrays_unwind (signal : Signal) (frame : Frame) :
    (unwind signal frame stack s).state.store.arrays = s.store.arrays := by
  cases frame with
  | loopBody =>
      cases signal with
      | continuing => exact arrays_loopNext ..
      | _ => rfl
  | functionBody =>
      cases signal with
      | returning => exact arrays_yield ..
      | _ => rfl
  | activeCall => cases signal <;> rfl
  | _ => rfl

end

/-! ## Moves -/

/-- All parts of an array expression have their values: its size, if it is given, and the
elements `given`. -/
inductive Completes : Machine → Token → Option Nat → List Value → List Frame → Prop
  | empty {bracket env stack s} :
      Completes ⟨.evaluate (.array bracket none []) env, stack, s⟩ bracket none [] stack
  | sized {v bracket n env stack s} : arraySize v bracket = .ok n →
      Completes ⟨.value v, .arraySize bracket [] env :: stack, s⟩ bracket (some n) [] stack
  | last {v bracket size earlier env stack s} :
      Completes ⟨.value v, .arrayElement bracket size earlier [] env :: stack, s⟩ bracket size
        (v :: earlier).reverse stack

/-- What a move does to the arrays. -/
inductive Touches (m : Machine) : Prop
  | none (h : m.step.state.store.arrays = m.state.store.arrays)
  | make {bracket size given stack elements} (h : m.Completes bracket size given stack)
      (he : arrayElements size given bracket = .ok elements)
      (hstore : m.step.state.store = (m.state.store.newArray elements).2)
  | change {v a i bracket stack} (hcontrol : m.control = .value v)
      (hstack : m.stack = .setIndex a i bracket :: stack)
      (h : m.state.store.setElement? a i v = some m.step.state.store)

theorem touches_arrayNext {m : Machine} {bracket : Token} {size : Option Nat}
    {earlier : List Value} {later : List Expr} {env : EnvironmentId} {stack : List Frame}
    (h : later = [] → m.Completes bracket size earlier.reverse stack)
    (hstep : m.step = arrayNext bracket size earlier later env stack m.state) : m.Touches := by
  cases later with
  | cons e es => exact .none (by rw [hstep]; rfl)
  | nil =>
      simp only [arrayNext] at hstep
      split at hstep
      · exact .make (h rfl) ‹_› (by rw [hstep])
      · exact .none (by rw [hstep]; rfl)

theorem touches (m : Machine) : m.Touches := by
  obtain ⟨control, stack, s⟩ := m
  cases control with
  | evaluate e env =>
      cases e with
      | array bracket size es =>
          cases size with
          | some size => exact .none rfl
          | none => exact touches_arrayNext (fun h => h ▸ .empty) rfl
      | «variable» => exact .none (arrays_yield ..)
      | receiver => exact .none (arrays_yield ..)
      | function => exact .none (arrays_lambda ..)
      | superMethod =>
          refine .none ?_
          simp only [step, evaluate]
          split <;> rfl
      | _ => exact .none rfl
  | execute st env => exact .none (arrays_execute ..)
  | done =>
      cases stack with
      | nil => exact .none rfl
      | cons frame stack => exact .none (arrays_proceed ..)
  | unwind signal =>
      cases stack with
      | nil => exact .none rfl
      | cons frame stack => exact .none (arrays_unwind ..)
  | value v =>
      cases stack with
      | nil => exact .none rfl
      | cons frame stack =>
          cases frame with
          | arrayElement => exact touches_arrayNext (fun h => h ▸ .last) rfl
          | arraySize bracket es env =>
              cases hn : arraySize v bracket with
              | ok n =>
                  have hstep : step ⟨.value v, .arraySize bracket es env :: stack, s⟩ =
                      arrayNext bracket (some n) [] es env stack s := by
                    simp only [step, resume, hn]
                  exact touches_arrayNext (fun h => h ▸ .sized hn) hstep
              | error e =>
                  refine .none ?_
                  simp only [step, resume, hn]
                  rfl
          | setIndex a i bracket =>
              cases hset : s.store.setElement? a i v with
              | some store =>
                  refine .change rfl rfl (hset.trans ?_)
                  simp only [step, resume, hset]
              | none =>
                  refine .none ?_
                  simp only [step, resume, hset]
                  rfl
          | unary | binary => exact .none (arrays_yield ..)
          | callee | argument => exact .none (arrays_applyNext ..)
          | assign name depth env =>
              refine .none (arrays_yieldWith stack s v fun store hstore => ?_)
              obtain ⟨e, -, -, rfl⟩ := change_eq_ok hstore
              rfl
          | varDecl => exact .none (arrays_doneWith stack s fun _ => Store.arrays_define)
          | letDecl => exact .none (arrays_doneWith stack s fun _ => Store.arrays_defineReadOnly)
          | print => exact .none (arrays_printValue ..)
          | superclass =>
              refine .none ?_
              simp only [step, resume]
              split
              · exact arrays_defineClass ..
              · rfl
          | get =>
              refine .none ?_
              simp only [step, resume]
              split
              · split
                · exact Store.arrays_get ‹_›
                · rfl
              · split <;> rfl
              · rfl
          | setMember =>
              refine .none ?_
              simp only [step, resume]
              split
              · rfl
              · split
                · rename_i hstore
                  obtain ⟨-, rfl⟩ := Store.assignLocal?_eq_some.mp hstore
                  rfl
                · rfl
          | logical | setObject | indexObject | setIndexObject | setIndexAt | loopTest =>
              refine .none ?_
              simp only [step, resume]
              split <;> rfl
          | index | branch =>
              refine .none ?_
              simp only [step, resume]
              split
              · first | rfl | (split <;> rfl)
              · first | rfl | (split <;> rfl)
          | _ => exact .none rfl

theorem sameLengths_step (m : Machine) : m.state.store.SameLengths m.step.state.store := by
  cases m.touches with
  | none h => exact .of_eq h
  | make _ _ hstore => exact hstore ▸ Store.sameLengths_newArray ..
  | change _ _ h => exact (Store.changesSlot_of_setElement? h).sameLengths

end Machine

/-! ## Later states -/

/-- The store of a state that comes later: whatever machines run on it, and whatever is
called from outside. -/
inductive Store.Later (s : Store) : Store → Prop
  | refl : Later s s
  | move {m : Machine} : Later s m.state.store → Later s m.step.state.store
  | call {st : State} (c : Callable) (arguments : List Value) (stack : List Frame) :
      Later s st.store → Later s (Machine.invoke c arguments stack st).state.store

/-- An array has for ever the length that it has. -/
theorem Store.Later.sameLengths {s s' : Store} (h : s.Later s') : s.SameLengths s' := by
  induction h with
  | refl => exact .of_eq rfl
  | @move m _ ih => exact ih.trans (Machine.sameLengths_step m)
  | call c arguments stack _ ih =>
      exact ih.trans (.of_eq (Machine.arrays_invoke stack _ c arguments))

theorem Machine.later_run (n : Nat) (m : Machine) :
    m.state.store.Later (run n m).state.store := by
  induction n with
  | zero => exact .refl
  | succ n ih => exact run_succ_right n m ▸ ih.move

/-- The states of a session come later than those before them. -/
theorem Session.After.later {texts texts' : List (List Stmt)} {t t' : Trail} {m m' : Machine}
    (h : After texts t m texts' t' m') : m.state.store.Later m'.state.store := by
  induction h with
  | refl => exact .refl
  | move _ ih => exact ih.move
  | aside _ _ _ _ ih => exact ih
  | next _ _ _ hstart ih => exact store_start hstart ▸ ih

/-! ## The value of an expression on top of a frame -/

namespace Machine

section
variable {s s' : State} {env : EnvironmentId} {v : Value}

/-- Where an expression on top of a frame that catches nothing comes to a value, it had a
value of its own, and the frame was given it. -/
theorem answer_under {e : Expr} {frame : Frame}
    (hunwind : ∀ g s, step ⟨.unwind g, [frame], s⟩ = ⟨.unwind g, [], s⟩)
    (hdone : ∀ s, step ⟨.done, [frame], s⟩ = ⟨.done, [], s⟩) {n : Nat}
    (h : run n ⟨.evaluate e env, [frame], s⟩ = ⟨.value v, [], s'⟩) :
    ∃ moves w s₁ k, State.evaluate moves e env s = (.answer w, s₁) ∧
      run k (resume w frame [] s₁) = ⟨.value v, [], s'⟩ := by
  rcases run_onto n ⟨.evaluate e env, [], s⟩ [frame] with
    ⟨-, honto⟩ | ⟨hhalted, k, j, rfl, honto⟩
  · -- the expression has not come to its end, but the run has
    have hstack := congrArg Machine.stack (honto.symm.trans h)
    exact absurd (List.append_eq_nil_iff.mp hstack).2 (List.cons_ne_nil _ _)
  · rw [onto_mk, List.nil_append] at honto
    rw [run_add, honto] at h
    generalize hended : run (k + j) ⟨.evaluate e env, [], s⟩ = m at hhalted h
    obtain ⟨control, stack, s₁⟩ := m
    obtain rfl : stack = [] := stack_of_hasHalted hhalted
    rw [onto_mk, List.nil_append] at h
    cases j with
    | zero => cases h
    | succ j =>
        rw [run_succ] at h
        cases control with
        | evaluate | execute => cases hhalted
        | value w => exact ⟨_, w, s₁, j, evaluate_eq_answer hended, h⟩
        | done =>
            rw [hdone, run_of_hasHalted rfl] at h
            cases h
        | unwind g =>
            rw [hunwind, run_of_hasHalted rfl] at h
            cases h

theorem no_answer_fail {err : RuntimeError} {n : Nat} :
    run n (fail err [] s) ≠ ⟨.value v, [], s'⟩ := by
  intro h
  rw [run_of_hasHalted rfl] at h
  cases h

/-- An expression that has a value has made a move. -/
theorem run_evaluate_of_answer {e : Expr} {moves : Nat}
    (h : State.evaluate moves e env s = (.answer v, s')) :
    ∃ n, run n (evaluate e env [] s) = ⟨.value v, [], s'⟩ := by
  have hrun := run_of_evaluate h rfl
  cases moves with
  | zero => cases hrun
  | succ n => exact ⟨n, hrun⟩

end

end Machine

/-! ## Array expressions -/

/-- The expressions have the values `vs`, one after the other. -/
inductive Evaluates (env : EnvironmentId) : State → List Expr → List Value → State → Prop
  | nil {s} : Evaluates env s [] [] s
  | cons {moves e es v vs s s₁ s₂} : State.evaluate moves e env s = (.answer v, s₁) →
      Evaluates env s₁ es vs s₂ → Evaluates env s (e :: es) (v :: vs) s₂

/-- The length that an array expression is to have: the whole number that its size is, or
as many elements as there are. -/
inductive Sizes (env : EnvironmentId) (es : List Expr) : State → Option Expr → Nat → State → Prop
  | listed {s} : Sizes env es s none es.length s
  | given {moves e x s s₁} {n : Nat} : State.evaluate moves e env s = (.answer (.number x), s₁) →
      Number.toInt? x = some (n : Int) → Sizes env es s (some e) n s₁

/-- The given values, and `nil` as often as it takes to fill the length. -/
def filled (given : List Value) (n : Nat) : Array Value :=
  (given ++ List.replicate (n - given.length) Value.nil).toArray

theorem size_filled {given : List Value} {n : Nat} (h : given.length ≤ n) :
    (filled given n).size = n := by
  simp [filled, h]

theorem Evaluates.length {env : EnvironmentId} {s s' : State} {es : List Expr} {vs : List Value}
    (h : Evaluates env s es vs s') : vs.length = es.length := by
  induction h with
  | nil => rfl
  | cons _ _ ih => simp only [List.length_cons, ih]

theorem arrayElements_eq_ok {size : Option Nat} {given : List Value} {bracket : Token}
    {elements : Array Value} (h : arrayElements size given bracket = .ok elements) :
    given.length ≤ size.getD given.length ∧ elements = filled given (size.getD given.length) := by
  unfold arrayElements at h
  split at h
  · cases h
    simp [filled]
  · split at h <;> cases h
    rename_i hle
    exact ⟨Nat.le_of_not_lt hle, by simp [filled]⟩

theorem arraySize_eq_ok {v : Value} {bracket : Token} {n : Nat}
    (h : arraySize v bracket = .ok n) :
    ∃ x, v = .number x ∧ Number.toInt? x = some (n : Int) := by
  unfold arraySize wholeNumber at h
  split at h
  · cases h
  · rename_i x k hw
    split at hw
    · split at hw <;> cases hw
      rename_i hk
      split at h
      · cases h
      · split at h <;> cases h
        exact ⟨_, rfl, by rw [hk, Int.toNat_of_nonneg (by omega)]⟩
    · cases hw

namespace Machine

theorem arrayNext_answer {bracket : Token} {size : Option Nat} {env : EnvironmentId} {v : Value}
    {s' : State} {es : List Expr} {earlier : List Value} {s : State} {n : Nat}
    (h : run n (arrayNext bracket size earlier es env [] s) = ⟨.value v, [], s'⟩) :
    ∃ vs s₁ elements, Evaluates env s es vs s₁ ∧
      arrayElements size (earlier.reverse ++ vs) bracket = .ok elements ∧
      v = .array s₁.store.arrays.size ∧
      s' = { s₁ with store := (s₁.store.newArray elements).2 } := by
  induction es generalizing earlier s n with
  | nil =>
      simp only [arrayNext] at h
      split at h
      · rename_i elements hok
        rw [run_of_hasHalted rfl] at h
        cases h
        exact ⟨[], s, elements, .nil, by rwa [List.append_nil], rfl, rfl⟩
      · exact absurd h no_answer_fail
  | cons e es ih =>
      obtain ⟨moves, w, s₁, k, hw, hrun⟩ :=
        answer_under (fun g _ => by cases g <;> rfl) (fun _ => rfl) h
      obtain ⟨vs, s₂, elements, hvs, hok, hv, hs'⟩ := ih hrun
      refine ⟨w :: vs, s₂, elements, .cons hw hvs, ?_, hv, hs'⟩
      simpa using hok

/-- An array expression that has a value made an array of its length: the elements that it
gives, and `nil` after them. -/
theorem array_answer {bracket : Token} {size : Option Expr} {es : List Expr}
    {env : EnvironmentId} {s s' : State} {v : Value} {moves : Nat}
    (h : State.evaluate moves (.array bracket size es) env s = (.answer v, s')) :
    ∃ n s₁ vs s₂, Sizes env es s size n s₁ ∧ Evaluates env s₁ es vs s₂ ∧ es.length ≤ n ∧
      v = .array s₂.store.arrays.size ∧
      s' = { s₂ with store := (s₂.store.newArray (filled vs n)).2 } := by
  obtain ⟨k, hrun⟩ := run_evaluate_of_answer h
  cases size with
  | none =>
      obtain ⟨vs, s₂, elements, hvs, hok, hv, hs'⟩ := arrayNext_answer hrun
      obtain ⟨-, rfl⟩ := arrayElements_eq_ok hok
      exact ⟨es.length, s, vs, s₂, .listed, hvs, Nat.le_refl _, hv, hvs.length ▸ hs'⟩
  | some e =>
      obtain ⟨moves', w, s₁, k', hw, hrun⟩ :=
        answer_under (fun g _ => by cases g <;> rfl) (fun _ => rfl) hrun
      simp only [resume] at hrun
      split at hrun
      · rename_i n hn
        obtain ⟨x, rfl, hx⟩ := arraySize_eq_ok hn
        obtain ⟨vs, s₂, elements, hvs, hok, hv, hs'⟩ := arrayNext_answer hrun
        obtain ⟨hle, rfl⟩ := arrayElements_eq_ok hok
        exact ⟨n, s₁, vs, s₂, .given hw hx, hvs, hvs.length ▸ hle, hv, hs'⟩
      · exact absurd hrun no_answer_fail

/-- Nothing but the end of an array expression makes an array. -/
theorem made_by_array {m : Machine} {a : ArrayId} (hold : m.state.store.arrays.size ≤ a)
    (hnew : a < m.step.state.store.arrays.size) :
    ∃ bracket size given stack, m.Completes bracket size given stack ∧
      m.step.state.store.length a = size.getD given.length ∧
      m.step.state.store.elements a = filled given (size.getD given.length) := by
  cases m.touches with
  | none h => exact absurd (h ▸ hnew) (Nat.not_lt_of_le hold)
  | change _ _ h =>
      have hsize := (Store.changesSlot_of_setElement? h).lengths.1
      exact absurd (hsize ▸ hnew) (Nat.not_lt_of_le hold)
  | @make bracket size given stack elements hcompletes hok hstore =>
      obtain ⟨hle, rfl⟩ := arrayElements_eq_ok hok
      have hsize : m.step.state.store.arrays.size = m.state.store.arrays.size + 1 := by
        simp [hstore, Store.newArray]
      have ha : a = m.state.store.arrays.size :=
        Nat.le_antisymm (Nat.le_of_lt_succ (Nat.lt_of_lt_of_eq hnew hsize)) hold
      have helements : m.step.state.store.elements a = filled given (size.getD given.length) := by
        rw [hstore, Store.elements_newArray, if_pos ha]
      refine ⟨bracket, size, given, stack, hcompletes, ?_, helements⟩
      rw [Store.length, helements, size_filled hle]

end Machine

/-! ## Indexes -/

/-- The object is the array `a`, and the index after it is `n` and was checked. -/
inductive Picks (object : Expr) (bracket : Token) (index : Expr) (env : EnvironmentId)
    (s : State) (a : ArrayId) (n : Nat) (s₂ : State) : Prop
  | mk {moves v s₁ moves' w} : State.evaluate moves object env s = (.answer v, s₁) →
      asArray v bracket = .ok a → State.evaluate moves' index env s₁ = (.answer w, s₂) →
      asIndex w (s₂.store.length a) bracket = .ok n → Picks object bracket index env s a n s₂

theorem lt_of_asIndex {v : Value} {length : Nat} {bracket : Token} {n : Nat}
    (h : asIndex v length bracket = .ok n) : n < length := by
  unfold asIndex at h
  split at h
  · cases h
  · split at h <;> cases h
    omega

section
variable {object index e : Expr} {bracket : Token} {env : EnvironmentId} {s s₂ s₃ s' : State}
  {a : ArrayId} {n moves : Nat} {u v : Value}

theorem Picks.lt (h : Picks object bracket index env s a n s₂) : n < s₂.store.length a := by
  cases h with
  | mk _ _ _ hindex => exact lt_of_asIndex hindex

/-- A checked index is there when its value is asked for. -/
theorem Picks.read (h : Picks object bracket index env s a n s₂) :
    ∃ u moves, s₂.store.element? a n = some u ∧
      State.evaluate moves (.index object bracket index) env s = (.answer u, s₂) := by
  obtain ⟨u, hu⟩ := Store.exists_element? h.lt
  obtain ⟨hobject, harray, hi, hindex⟩ := h
  have hfirst := Machine.comes_resume hobject (.indexObject bracket index env)
  simp only [Machine.resume, harray] at hfirst
  have hsecond := Machine.comes_resume hi (.index a bracket)
  simp only [Machine.resume, hindex, hu] at hsecond
  obtain ⟨k, hk⟩ := hfirst.trans hsecond
  exact ⟨u, k + 1, hu, Machine.evaluate_eq_answer hk⟩

/-- An index that was checked is still good after the value has been evaluated, whatever
that did, and one slot is changed. -/
theorem Picks.write (h : Picks object bracket index env s a n s₂)
    (hv : State.evaluate moves e env s₂ = (.answer v, s₃)) :
    ∃ store moves', State.evaluate moves' (.setIndex object bracket index e) env s =
        (.answer v, { s₃ with store := store }) ∧ s₃.store.ChangesSlot a n v store := by
  have hlater : s₂.store.SameLengths s₃.store := by
    have hrun := Machine.run_of_evaluate hv rfl
    have hlater := (Machine.later_run moves ⟨.evaluate e env, [], s₂⟩).sameLengths
    rwa [hrun] at hlater
  have hold : a < s₂.store.arrays.size := by
    refine Nat.lt_of_not_le fun hge => ?_
    have hlt := h.lt
    simp [Store.length, Store.elements, Array.getElem?_eq_none hge] at hlt
  obtain ⟨store, hstore⟩ := Store.exists_setElement? (hlater.length a hold ▸ h.lt) v
  obtain ⟨hobject, harray, hi, hindex⟩ := h
  have hoperand := Machine.Operand.element (e := e) hobject harray hi hindex
  have hset := Machine.comes_resume hv (.setIndex a n bracket)
  simp only [Machine.resume, hstore] at hset
  obtain ⟨k, hk⟩ := hoperand.comes.trans hset
  exact ⟨store, k, Machine.evaluate_eq_answer hk, Store.changesSlot_of_setElement? hstore⟩

/-- An index assignment that has a value has picked a slot, evaluated the value, and changed
the slot. -/
theorem written_of_answer
    (h : State.evaluate moves (.setIndex object bracket index e) env s = (.answer v, s')) :
    ∃ a n s₂ moves' s₃, Picks object bracket index env s a n s₂ ∧
      State.evaluate moves' e env s₂ = (.answer v, s₃) ∧
      s' = { s₃ with store := s'.store } ∧ s₃.store.ChangesSlot a n v s'.store := by
  obtain ⟨k, hrun⟩ := Machine.run_evaluate_of_answer h
  obtain ⟨_, w, s₁, k, hobject, hrun⟩ :=
    Machine.answer_under (fun g _ => by cases g <;> rfl) (fun _ => rfl) hrun
  simp only [Machine.resume] at hrun
  obtain ⟨a, harray⟩ : ∃ a, asArray w bracket = .ok a := by
    cases harray : asArray w bracket with
    | ok a => exact ⟨a, rfl⟩
    | error err =>
        rw [harray] at hrun
        exact absurd hrun Machine.no_answer_fail
  rw [harray] at hrun
  obtain ⟨_, x, s₂, k, hi, hrun⟩ :=
    Machine.answer_under (fun g _ => by cases g <;> rfl) (fun _ => rfl) hrun
  simp only [Machine.resume] at hrun
  obtain ⟨n, hindex⟩ : ∃ n, asIndex x (s₂.store.length a) bracket = .ok n := by
    cases hindex : asIndex x (s₂.store.length a) bracket with
    | ok n => exact ⟨n, rfl⟩
    | error err =>
        rw [hindex] at hrun
        exact absurd hrun Machine.no_answer_fail
  rw [hindex] at hrun
  obtain ⟨_, y, s₃, k, hy, hrun⟩ :=
    Machine.answer_under (fun g _ => by cases g <;> rfl) (fun _ => rfl) hrun
  simp only [Machine.resume] at hrun
  obtain ⟨store, hstore⟩ : ∃ store, s₃.store.setElement? a n y = some store := by
    cases hstore : s₃.store.setElement? a n y with
    | some store => exact ⟨store, rfl⟩
    | none =>
        rw [hstore] at hrun
        exact absurd hrun Machine.no_answer_fail
  rw [hstore] at hrun
  rw [Machine.run_of_hasHalted rfl] at hrun
  cases hrun
  exact ⟨a, n, s₂, _, s₃, ⟨hobject, harray, hi, hindex⟩, hy, rfl,
    Store.changesSlot_of_setElement? hstore⟩

end

/-! ## The theorem -/

/-- An array keeps its length in all later states, which are those of a run and those of
the later moments of a session.  It was made at the end of an array expression, with the
elements given first and `nil` after them: as long as its size says, or as there are
elements.  Once an index was checked it can be read, and, whatever is evaluated first,
written to; and an index assignment that has a value has changed the one slot and nothing
else. -/
theorem arrays_keep_length :
    (∀ (n : Nat) (m : Machine), m.state.store.Later (Machine.run n m).state.store) ∧
    (∀ texts t m texts' t' m', Session.After texts t m texts' t' m' →
      m.state.store.Later m'.state.store) ∧
    (∀ s s' : Store, s.Later s' → s.SameLengths s') ∧
    (∀ (m : Machine) (a : ArrayId), m.state.store.arrays.size ≤ a →
      a < m.step.state.store.arrays.size →
      ∃ bracket size given stack, m.Completes bracket size given stack ∧
        m.step.state.store.length a = size.getD given.length ∧
        m.step.state.store.elements a = filled given (size.getD given.length)) ∧
    (∀ bracket size es env s moves v s',
      State.evaluate moves (.array bracket size es) env s = (.answer v, s') →
      ∃ n s₁ vs s₂, Sizes env es s size n s₁ ∧ Evaluates env s₁ es vs s₂ ∧ es.length ≤ n ∧
        v = .array s₂.store.arrays.size ∧
        s' = { s₂ with store := (s₂.store.newArray (filled vs n)).2 }) ∧
    (∀ object bracket index env s a n s₂, Picks object bracket index env s a n s₂ →
      (∃ u moves, s₂.store.element? a n = some u ∧
        State.evaluate moves (.index object bracket index) env s = (.answer u, s₂)) ∧
      ∀ e moves v s₃, State.evaluate moves e env s₂ = (.answer v, s₃) →
        ∃ store moves', State.evaluate moves' (.setIndex object bracket index e) env s =
            (.answer v, { s₃ with store := store }) ∧ s₃.store.ChangesSlot a n v store) ∧
    (∀ object bracket index e env s moves v s',
      State.evaluate moves (.setIndex object bracket index e) env s = (.answer v, s') →
      ∃ a n s₂ moves' s₃, Picks object bracket index env s a n s₂ ∧
        State.evaluate moves' e env s₂ = (.answer v, s₃) ∧
        s' = { s₃ with store := s'.store } ∧ s₃.store.ChangesSlot a n v s'.store) := by
  refine ⟨Machine.later_run, fun _ _ _ _ _ _ h => h.later, fun _ _ h => h.sameLengths,
    fun _ _ => Machine.made_by_array,
    fun _ _ _ _ _ _ _ _ => Machine.array_answer,
    fun _ _ _ _ _ _ _ _ h => ⟨h.read, fun _ _ _ _ => h.write⟩,
    fun _ _ _ _ _ _ _ _ _ => written_of_answer⟩

/-! ### A slot of an array that nothing else refers to -/

namespace Session

/-- The bracket of `[2:]` and of the index behind it. -/
def bracketAt (column : Nat) : Token := ⟨.leftBracket, "[", ⟨1, column⟩⟩

/-- The expression `[2:]`. -/
def twoSlots : Expr := .array (bracketAt 1) (some (.literal (.number 2))) []

/-- The state in which `[2:]` has been made. -/
def withTwoSlots : State :=
  { State.initial none 0 with
    store := ((State.initial none 0).store.newArray #[.nil, .nil]).2 }

/-- The assignment `[2:][1] = true` changes the second slot and not the first. -/
theorem arrays_keep_length_twoSlots :
    Picks twoSlots (bracketAt 5) (.literal (.number 1)) State.globals (.initial none 0) 0 1
        withTwoSlots ∧
      ∃ store moves, State.evaluate moves
          (.setIndex twoSlots (bracketAt 5) (.literal (.number 1)) (.literal (.boolean true)))
          State.globals (.initial none 0) =
            (.answer (.boolean true), { withTwoSlots with store := store }) ∧
        store.element? 0 0 = some .nil ∧ store.element? 0 1 = some (.boolean true) := by
  have hsize : arraySize (.number 2) (bracketAt 1) = .ok 2 := by
    have htwo : Number.toInt? 2 = some 2 := by decide +kernel
    simp [arraySize, wholeNumber, htwo, maxArraySize]
  have hchecked : asIndex (.number 1) 2 (bracketAt 5) = .ok 1 := by
    have hone : Number.toInt? 1 = some 1 := by decide +kernel
    simp [asIndex, wholeNumber, hone]
  have hobject : State.evaluate 3 twoSlots State.globals (.initial none 0) =
      (.answer (.array 0), withTwoSlots) := by
    refine Machine.evaluate_eq_answer ?_
    rw [Machine.run_succ, Machine.run_succ, Machine.run_succ, Machine.run_zero]
    simp only [twoSlots, Machine.step, Machine.evaluate, Value.ofLiteral, Machine.resume, hsize]
    rfl
  have hindex : State.evaluate 1 (.literal (.number 1)) State.globals withTwoSlots =
      (.answer (.number 1), withTwoSlots) := rfl
  have hvalue : State.evaluate 1 (.literal (.boolean true)) State.globals withTwoSlots =
      (.answer (.boolean true), withTwoSlots) := rfl
  have hpicks : Picks twoSlots (bracketAt 5) (.literal (.number 1)) State.globals
      (.initial none 0) 0 1 withTwoSlots := .mk hobject rfl hindex hchecked
  obtain ⟨-, -, -, -, -, hpicked, -⟩ := arrays_keep_length
  obtain ⟨-, hwrite⟩ := hpicked _ _ _ _ _ _ _ _ hpicks
  obtain ⟨store, moves, heval, hslot⟩ := hwrite _ _ _ _ hvalue
  refine ⟨hpicks, store, moves, heval, ?_, ?_⟩
  · rw [hslot.elements]
    rfl
  · rw [hslot.elements]
    rfl

end Session

end Lox
