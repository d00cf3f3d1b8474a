/-
# Writes that are refused

A write has operands, which are evaluated one after the other, and then is made or refused.
`Operand` lists them: the machine that begins an operand and the frame that waits for it.
When the operands that the write asks for are there the machine is `Writing`.

    name = value                       value
    object.name = value                object, value
    object[index] = value              object, index, value
    var name = value   let name = value   value
    class name < superclass            superclass
    module name                        its body
    var name   fun name   class name   none

A refused write leaves all that there was at this moment as it was: names and what they
stand for, read-only marks, links, fields and elements.  And a run of a write that ends with
a failure had it from an operand, or from the write that was refused:
`refused_write_changes_nothing`.
-/
import Lox.Proofs.Located
import Lox.Proofs.Rounds

namespace Lox

/-! ## What was there -/

/-- All that there is in `s` is in `s'` as it was. -/
structure Store.SameContents (s s' : Store) : Prop where
  names : ∀ e < s.environments.size, ∀ n, s'.getLocal? e n = s.getLocal? e n
  marks : ∀ e < s.environments.size, ∀ n, s'.isReadOnly e n = s.isReadOnly e n
  links : ∀ e < s.environments.size, s'.enclosing? e = s.enclosing? e
  fields : ∀ i : Instance, i.id < s.fields.size → s'.fieldsOf i = s.fieldsOf i
  elements : ∀ a < s.arrays.size, s'.elements a = s.elements a

namespace Store

variable {s s' s'' : Store}

theorem SameContents.refl (s : Store) : s.SameContents s :=
  ⟨fun _ _ _ => rfl, fun _ _ _ => rfl, fun _ _ => rfl, fun _ _ => rfl, fun _ _ => rfl⟩

/-- Only environments, fields and arrays are contents. -/
theorem SameContents.of_eq (h : s.SameContents s') (he : s''.environments = s'.environments)
    (hf : s''.fields = s'.fields) (ha : s''.arrays = s'.arrays) : s.SameContents s'' := by
  have henv : ∀ e, s''.environment e = s'.environment e := fun e => by simp only [environment, he]
  refine ⟨fun e hlt n => ?_, fun e hlt n => ?_, fun e hlt => ?_, fun i hlt => ?_, fun a hlt => ?_⟩
  · rw [← h.names e hlt n]
    simp only [getLocal?, henv]
  · rw [← h.marks e hlt n]
    simp only [isReadOnly, henv]
  · rw [← h.links e hlt]
    simp only [enclosing?, henv]
  · rw [← h.fields i hlt]
    simp only [Store.fieldsOf, hf]
  · rw [← h.elements a hlt]
    simp only [Store.elements, ha]

theorem sameContents_newEnvironment (s : Store) (env : Environment) :
    s.SameContents (s.newEnvironment env).2 := by
  refine ⟨fun e he n => ?_, fun e he n => ?_, fun e he => ?_, fun _ _ => rfl, fun _ _ => rfl⟩
  · rw [getLocal?_newEnvironment, if_neg (Nat.ne_of_lt he)]
  · rw [isReadOnly_newEnvironment, if_neg (Nat.ne_of_lt he)]
  · rw [enclosing?_newEnvironment, if_neg (Nat.ne_of_lt he)]

end Store

/-! ## Writes -/

/-- The frame makes a write when it has what it waits for, or checks what it has and looks
at the next operand of one. -/
def Frame.Writes : Frame → Prop
  | .assign .. | .setObject .. | .setField .. | .setMember .. | .setIndexObject ..
  | .setIndexAt .. | .setIndex .. | .varDecl .. | .letDecl .. | .superclass ..
  | .moduleBody .. => True
  | _ => False

/-- The construct is a write without operands. -/
inductive Control.Bare : Control → Prop
  | varDecl {name env} : Bare (.execute (.varDecl name none) env)
  | functionDecl {d env} : Bare (.execute (.functionDecl d) env)
  | classDecl {name ms env} : Bare (.execute (.classDecl name none ms) env)

namespace Machine

theorem sameContents_makeMethods {s₀ s : Store} (h : s₀.SameContents s) (env : EnvironmentId)
    (table : Table Closure) (ds : List FunctionDecl) :
    s₀.SameContents (makeMethods s env table ds).2 := by
  induction ds generalizing s table with
  | nil => exact h
  | cons d ds ih =>
      have hmade : s₀.SameContents (s.newClosure d env d.isInitializer).2 := h.of_eq rfl rfl rfl
      unfold makeMethods
      split
      · exact ih hmade _
      · exact ih h table

/-! ## Moves that are refused -/

/-- The output and the calls are as they were in `s`.  If the machine has failed, it has
nothing but `stack` left to do, and all that there was in `s` is as it was. -/
structure Spotless (m : Machine) (s : State) (stack : List Frame) : Prop where
  stack : ∀ e, m.control = .unwind (.failure e) → m.stack = stack
  contents : ∀ e, m.control = .unwind (.failure e) → s.store.SameContents m.state.store
  output : m.state.output = s.output
  depth : m.state.callDepth = s.callDepth

section
variable {stack : List Frame} {s s' : State}

theorem spotless_fail (e : RuntimeError) : Spotless (fail e stack s) s stack :=
  ⟨fun _ _ => rfl, fun _ _ => .refl _, rfl, rfl⟩

theorem spotless_of_running {m : Machine} (h : ∀ e, m.control ≠ .unwind (.failure e))
    (ho : m.state.output = s.output) (hd : m.state.callDepth = s.callDepth) :
    Spotless m s stack :=
  ⟨fun e he => absurd he (h e), fun e he => absurd he (h e), ho, hd⟩

theorem spotless_value (v : Value) (store : Store) :
    Spotless ⟨.value v, stack, { s with store := store }⟩ s stack :=
  spotless_of_running (fun _ h => by cases h) rfl rfl

theorem spotless_done : Spotless ⟨.done, stack, s⟩ s stack :=
  spotless_of_running (fun _ h => by cases h) rfl rfl

theorem spotless_await (e : Expr) (env : EnvironmentId) (frame : Frame) :
    Spotless ⟨.evaluate e env, frame :: stack, s⟩ s stack :=
  spotless_of_running (fun _ h => by cases h) rfl rfl

theorem spotless_yieldWith (v : Value) (r : Except RuntimeError Store) :
    Spotless (yieldWith v r stack s) s stack := by
  cases r with
  | ok store => exact spotless_value v store
  | error e => exact spotless_fail e

theorem spotless_doneWith (r : Except RuntimeError Store) (hs : s.store.SameContents s'.store)
    (ho : s'.output = s.output) (hd : s'.callDepth = s.callDepth) :
    Spotless (doneWith r stack s') s stack := by
  cases r with
  | ok store => exact spotless_of_running (fun _ h => by cases h) ho hd
  | error e => exact ⟨fun _ _ => rfl, fun _ _ => hs, ho, hd⟩

theorem spotless_finishClass (name : Token) (superclass : Option Class) (ms : List FunctionDecl)
    (env scope : EnvironmentId) {store : Store} (hs : s.store.SameContents store) :
    Spotless (finishClass name superclass ms env scope store stack s) s stack := by
  have hmade : s.store.SameContents (makeMethods store scope [] ms).2.newIdentity.2 :=
    (sameContents_makeMethods hs scope [] ms).of_eq rfl rfl rfl
  exact spotless_doneWith _ hmade rfl rfl

theorem spotless_defineClass (name : Token) (superclass : Option Class) (ms : List FunctionDecl)
    (env : EnvironmentId) : Spotless (defineClass name superclass ms env stack s) s stack := by
  cases superclass with
  | none => exact spotless_finishClass name none ms env env (.refl _)
  | some c =>
      exact spotless_finishClass name (some c) ms env _
        (Store.sameContents_newEnvironment s.store _)

/-- A write without operands. -/
theorem spotless_execute {st : Stmt} {env : EnvironmentId}
    (h : Control.Bare (.execute st env)) : Spotless (execute st env stack s) s stack := by
  cases h with
  | varDecl => exact spotless_doneWith _ (.refl _) rfl rfl
  | @functionDecl d env =>
      have hmade : s.store.SameContents (s.store.newClosure d env false).2 :=
        (Store.SameContents.refl _).of_eq rfl rfl rfl
      simp only [execute]
      split
      · exact spotless_doneWith _ hmade rfl rfl
      · exact spotless_of_running (fun _ h => by cases h) rfl rfl
  | @classDecl name ms env => exact spotless_defineClass name none ms env

theorem spotless_resume {frame : Frame} (h : frame.Writes) (v : Value) :
    Spotless (resume v frame stack s) s stack := by
  cases frame with
  | assign => exact spotless_yieldWith ..
  | setField => exact spotless_value ..
  | varDecl | letDecl => exact spotless_doneWith _ (.refl _) rfl rfl
  | setObject =>
      simp only [resume]
      split <;> first | exact spotless_fail _ | exact spotless_await ..
  | setMember =>
      simp only [resume]
      split
      · exact spotless_fail _
      · split <;> first | exact spotless_fail _ | exact spotless_value ..
  | setIndexObject | setIndexAt =>
      simp only [resume]
      split <;> first | exact spotless_fail _ | exact spotless_await ..
  | setIndex =>
      simp only [resume]
      split <;> first | exact spotless_fail _ | exact spotless_value ..
  | superclass name site ms env =>
      simp only [resume]
      split
      · exact spotless_defineClass ..
      · exact spotless_fail _
  | moduleBody => exact spotless_value v s.store
  | _ => cases h

theorem spotless_proceed {frame : Frame} (h : frame.Writes) :
    Spotless (proceed frame stack s) s stack := by
  cases frame with
  | moduleBody name members env => exact spotless_doneWith _ (.refl _) rfl rfl
  | sequence | loopBody | functionBody => cases h
  | _ => exact spotless_done

end

/-! ## Operands -/

/-- The machine begins an operand of the control, for which the frame waits.  The control
began in the state `s`, and the operands before this one have been evaluated. -/
inductive Operand (s : State) : Control → Machine → Frame → Prop
  | assigned {name e depth env} : Operand s (.evaluate (.assign name e depth) env)
      ⟨.evaluate e env, [], s⟩ (.assign name depth env)
  | object {object name e env} : Operand s (.evaluate (.set object name e) env)
      ⟨.evaluate object env, [], s⟩ (.setObject name e env)
  | field {object name e env moves i s₁} :
      State.evaluate moves object env s = (.answer (.instance i), s₁) →
      Operand s (.evaluate (.set object name e) env) ⟨.evaluate e env, [], s₁⟩ (.setField i name)
  | member {object name e env moves m s₁} :
      State.evaluate moves object env s = (.answer (.module m), s₁) →
      Operand s (.evaluate (.set object name e) env) ⟨.evaluate e env, [], s₁⟩ (.setMember m name)
  | array {object bracket i e env} : Operand s (.evaluate (.setIndex object bracket i e) env)
      ⟨.evaluate object env, [], s⟩ (.setIndexObject bracket i e env)
  | index {object bracket i e env moves v a s₁} :
      State.evaluate moves object env s = (.answer v, s₁) → asArray v bracket = .ok a →
      Operand s (.evaluate (.setIndex object bracket i e) env) ⟨.evaluate i env, [], s₁⟩
        (.setIndexAt a bracket e env)
  | element {object bracket i e env moves v a s₁ moves' v' n s₂} :
      State.evaluate moves object env s = (.answer v, s₁) → asArray v bracket = .ok a →
      State.evaluate moves' i env s₁ = (.answer v', s₂) →
      asIndex v' (s₂.store.length a) bracket = .ok n →
      Operand s (.evaluate (.setIndex object bracket i e) env) ⟨.evaluate e env, [], s₂⟩
        (.setIndex a n bracket)
  | initial {name e env} : Operand s (.execute (.varDecl name (some e)) env)
      ⟨.evaluate e env, [], s⟩ (.varDecl name env)
  | constant {name e env} : Operand s (.execute (.letDecl name e) env)
      ⟨.evaluate e env, [], s⟩ (.letDecl name env)
  | superclass {name e ms env} : Operand s (.execute (.classDecl name (some e) ms) env)
      ⟨.evaluate e env, [], s⟩ (.superclass name (e.name?.getD name) ms env)
  | members {name body env} : Operand s (.execute (.moduleDecl name body) env)
      ⟨.done, [.sequence body s.store.environments.size],
        { s with store := (s.store.child env).2 }⟩
      (.moduleBody name s.store.environments.size env)

/-- The machine has what the control asked for, one operand after the other, all without a
failure, and is to make the write next or to refuse it. -/
inductive Writing (s : State) : Control → Machine → Prop
  | bare {control} : control.Bare → Writing s control ⟨control, [], s⟩
  | after {control m₀ frame moves control' s₁} : Operand s control m₀ frame →
      run moves m₀ = ⟨control', [], s₁⟩ → (control' = .done ∨ ∃ v, control' = .value v) →
      Writing s control ⟨control', [frame], s₁⟩

section
variable {s s₁ : State} {control control' : Control} {m m₀ : Machine} {frame : Frame}

theorem Operand.writes (h : Operand s control m₀ frame) : frame.Writes := by
  cases h <;> trivial

/-- When an expression on top of a frame has its value, the frame is given it. -/
theorem comes_resume {moves : Nat} {e : Expr} {env : EnvironmentId} {v : Value}
    (h : State.evaluate moves e env s = (.answer v, s₁)) (frame : Frame) :
    Comes ⟨.evaluate e env, [frame], s⟩ (resume v frame [] s₁) :=
  (handsOver_evaluate h rfl [frame]).comes

/-- A control gets to each of its operands. -/
theorem Operand.comes (h : Operand s control m₀ frame) :
    Comes ⟨control, [], s⟩ (m₀.onto [frame]) := by
  have hfirst : ∀ {m : Machine}, step ⟨control, [], s⟩ = m → Comes ⟨control, [], s⟩ m :=
    fun hm => ⟨1, by rw [run_succ, run_zero, hm]⟩
  cases h with
  | assigned | object | array | initial | constant | superclass | members => exact hfirst rfl
  | @field object name e env _ _ _ hobject =>
      exact (hfirst rfl).trans (comes_resume hobject (.setObject name e env))
  | @member object name e env _ _ _ hobject =>
      exact (hfirst rfl).trans (comes_resume hobject (.setObject name e env))
  | @index object bracket i e env _ _ _ _ hobject harray =>
      have hchecked := comes_resume hobject (.setIndexObject bracket i e env)
      simp only [resume, harray] at hchecked
      exact (hfirst rfl).trans hchecked
  | @element object bracket i e env _ _ a _ _ _ _ _ hobject harray hi hindex =>
      have harrayed := comes_resume hobject (.setIndexObject bracket i e env)
      simp only [resume, harray] at harrayed
      have hindexed := comes_resume hi (.setIndexAt a bracket e env)
      simp only [resume, hindex] at hindexed
      exact ((hfirst rfl).trans harrayed).trans hindexed

theorem Writing.comes (h : Writing s control m) : Comes ⟨control, [], s⟩ m := by
  cases h with
  | bare _ => exact ⟨0, rfl⟩
  | @after m₀ frame moves control' s₁ hoperand hrun hcontrol =>
      refine hoperand.comes.trans ?_
      have hhalted : (run moves m₀).hasHalted = true := by
        rw [hrun]
        rcases hcontrol with rfl | ⟨v, rfl⟩ <;> rfl
      obtain ⟨k, -, -, honto⟩ := run_onto_of_hasHalted hhalted [frame]
      exact ⟨k, by rw [honto, hrun]; rfl⟩

/-- The write is made, or is refused without a trace. -/
theorem Writing.spotless (h : Writing s control m) : Spotless m.step m.state [] := by
  cases h with
  | bare hbare =>
      cases hbare with
      | varDecl => exact spotless_execute .varDecl
      | functionDecl => exact spotless_execute .functionDecl
      | classDecl => exact spotless_execute .classDecl
  | after hoperand _ hcontrol =>
      rcases hcontrol with rfl | ⟨v, rfl⟩
      · exact spotless_proceed hoperand.writes
      · exact spotless_resume hoperand.writes v

/-! ## Runs of a write -/

theorem hasHalted_yieldWith (v : Value) (r : Except RuntimeError Store) :
    (yieldWith v r [] s).hasHalted = true := by
  cases r <;> rfl

theorem hasHalted_doneWith (r : Except RuntimeError Store) :
    (doneWith r [] s).hasHalted = true := by
  cases r <;> rfl

theorem hasHalted_defineClass (name : Token) (superclass : Option Class)
    (ms : List FunctionDecl) (env : EnvironmentId) :
    (defineClass name superclass ms env [] s).hasHalted = true := by
  cases superclass <;> exact hasHalted_doneWith _

theorem evaluate_eq_answer {moves : Nat} {e : Expr} {env : EnvironmentId} {v : Value}
    (h : run moves ⟨.evaluate e env, [], s⟩ = ⟨.value v, [], s₁⟩) :
    State.evaluate moves e env s = (.answer v, s₁) := by
  unfold State.evaluate
  rw [h]
  rfl

/-- When an operand has been evaluated the next one is begun, or the write comes to its
end. -/
theorem Operand.next (h : Operand s control m₀ frame) {moves : Nat}
    (hrun : run moves m₀ = ⟨control', [], s₁⟩)
    (hcontrol : control' = .done ∨ ∃ v, control' = .value v) :
    (step ⟨control', [frame], s₁⟩).hasHalted = true ∨
      ∃ m₁ frame', Operand s control m₁ frame' ∧
        step ⟨control', [frame], s₁⟩ = m₁.onto [frame'] := by
  rcases hcontrol with rfl | ⟨v, rfl⟩
  · -- only a module waits for the end of statements
    refine .inl ?_
    cases h with
    | members => exact hasHalted_doneWith _
    | _ => rfl
  · cases h with
    | assigned => exact .inl (hasHalted_yieldWith ..)
    | field => exact .inl rfl
    | initial | constant => exact .inl (hasHalted_doneWith _)
    | members => exact .inl rfl
    | object =>
        cases v with
        | «instance» i => exact .inr ⟨_, _, .field (evaluate_eq_answer hrun), rfl⟩
        | module m => exact .inr ⟨_, _, .member (evaluate_eq_answer hrun), rfl⟩
        | _ => exact .inl rfl
    | member =>
        refine .inl ?_
        simp only [step, resume]
        split
        · rfl
        · split <;> rfl
    | @array object bracket i e env =>
        cases harray : asArray v bracket with
        | ok a =>
            refine .inr ⟨_, _, .index (evaluate_eq_answer hrun) harray, ?_⟩
            simp only [step, resume, harray]
            rfl
        | error err =>
            refine .inl ?_
            simp only [step, resume, harray]
            rfl
    | @index object bracket i e env _ _ a s' hobject harray =>
        cases hindex : asIndex v (s₁.store.length a) bracket with
        | ok n =>
            refine .inr ⟨_, _, .element hobject harray (evaluate_eq_answer hrun) hindex, ?_⟩
            simp only [step, resume, hindex]
            rfl
        | error err =>
            refine .inl ?_
            simp only [step, resume, hindex]
            rfl
    | element =>
        refine .inl ?_
        simp only [step, resume]
        split <;> rfl
    | superclass =>
        refine .inl ?_
        simp only [step, resume]
        split
        · exact hasHalted_defineClass ..
        · rfl

/-- A signal passes the frames of a write. -/
theorem unwind_of_writes (h : frame.Writes) (signal : Signal) (s : State) :
    step ⟨.unwind signal, [frame], s⟩ = ⟨.unwind signal, [], s⟩ := by
  cases frame <;> first | (cases signal <;> rfl) | cases h

/-- A write that ends with a failure had it from an operand or was refused. -/
theorem Operand.fails (h : Operand s control m₀ frame) {n : Nat} {err : RuntimeError}
    {s' : State} (hrun : run n (m₀.onto [frame]) = ⟨.unwind (.failure err), [], s'⟩) :
    (∃ m₁ frame' moves, Operand s control m₁ frame' ∧
      run moves m₁ = ⟨.unwind (.failure err), [], s'⟩) ∨
    ∃ m, Writing s control m ∧ m.step = ⟨.unwind (.failure err), [], s'⟩ := by
  induction n using Nat.strong_induction_on generalizing m₀ frame with
  | _ n ih =>
      rcases run_onto n m₀ [frame] with ⟨-, honto⟩ | ⟨hhalted, k, j, rfl, honto⟩
      · -- the operand has not come to its end, but the run has
        rw [hrun] at honto
        cases (List.append_eq_nil_iff.mp (congrArg Machine.stack honto).symm).2
      · rw [run_add, honto] at hrun
        generalize hended : run (k + j) m₀ = m at hhalted hrun
        obtain ⟨control', stack, s₁⟩ := m
        obtain rfl : stack = [] := stack_of_hasHalted hhalted
        cases j with
        | zero => cases hrun
        | succ j =>
            rw [run_succ, onto_mk, List.nil_append] at hrun
            -- where nothing is left to do, the run has come to its end
            have hlast : (step ⟨control', [frame], s₁⟩).hasHalted = true →
                step ⟨control', [frame], s₁⟩ = ⟨.unwind (.failure err), [], s'⟩ :=
              fun hlast => (run_of_hasHalted hlast j).symm.trans hrun
            have hoperand : control' = .done ∨ (∃ v, control' = .value v) →
                (∃ m₁ frame' moves, Operand s control m₁ frame' ∧
                  run moves m₁ = ⟨.unwind (.failure err), [], s'⟩) ∨
                ∃ m, Writing s control m ∧ m.step = ⟨.unwind (.failure err), [], s'⟩ := by
              intro hcontrol
              rcases h.next hended hcontrol with hhalted | ⟨m₁, frame', hnext, hstep⟩
              · exact .inr ⟨_, .after h hended hcontrol, hlast hhalted⟩
              · rw [hstep] at hrun
                exact ih j (by omega) hnext hrun
            cases control' with
            | evaluate | execute => cases hhalted
            | value v => exact hoperand (.inr ⟨v, rfl⟩)
            | done => exact hoperand (.inl rfl)
            | unwind signal =>
                have hpassed := unwind_of_writes h.writes signal s₁
                refine .inl ⟨m₀, frame, k + (j + 1), h, hended.trans ?_⟩
                exact hpassed.symm.trans (hlast (hpassed ▸ rfl))

end

end Machine

/-- The construct is a write. -/
def Control.Writes : Control → Prop
  | .evaluate (.assign ..) _ | .evaluate (.set ..) _ | .evaluate (.setIndex ..) _
  | .execute (.varDecl ..) _ | .execute (.letDecl ..) _ | .execute (.functionDecl _) _
  | .execute (.classDecl ..) _ | .execute (.moduleDecl ..) _ => True
  | _ => False

namespace Machine

/-- A write has no operands, or begins the first of them. -/
theorem begins_of_writes {control : Control} (h : control.Writes) (s : State) :
    control.Bare ∧ (step ⟨control, [], s⟩).hasHalted = true ∨
      ∃ m₀ frame, Operand s control m₀ frame ∧ step ⟨control, [], s⟩ = m₀.onto [frame] := by
  cases control with
  | evaluate e env =>
      cases e with
      | assign => exact .inr ⟨_, _, .assigned, rfl⟩
      | set => exact .inr ⟨_, _, .object, rfl⟩
      | setIndex => exact .inr ⟨_, _, .array, rfl⟩
      | _ => cases h
  | execute st env =>
      cases st with
      | varDecl name e =>
          cases e with
          | none => exact .inl ⟨.varDecl, hasHalted_doneWith _⟩
          | some e => exact .inr ⟨_, _, .initial, rfl⟩
      | letDecl => exact .inr ⟨_, _, .constant, rfl⟩
      | functionDecl d =>
          refine .inl ⟨.functionDecl, ?_⟩
          simp only [step, execute]
          split
          · exact hasHalted_doneWith _
          · rfl
      | classDecl name e ms =>
          cases e with
          | none => exact .inl ⟨.classDecl, hasHalted_defineClass name none ms env⟩
          | some e => exact .inr ⟨_, _, .superclass, rfl⟩
      | moduleDecl => exact .inr ⟨_, _, .members, rfl⟩
      | _ => cases h
  | _ => cases h

end Machine

/-! ## The theorem -/

/-- A write that has its operands and is refused leaves everything that was there at this
moment as it was, read-only marks included, and its run ends so.  And a run of a write that
ends with a failure, ended so for one of its operands or because the write was refused. -/
theorem refused_write_changes_nothing (s : State) (control : Control) (err : RuntimeError) :
    (∀ m, Machine.Writing s control m → m.step.control = .unwind (.failure err) →
      ∃ moves s', Machine.run moves ⟨control, [], s⟩ = ⟨.unwind (.failure err), [], s'⟩ ∧
        m.state.store.SameContents s'.store ∧ s'.output = m.state.output ∧
        s'.callDepth = m.state.callDepth) ∧
    (control.Writes → ∀ moves s',
      Machine.run moves ⟨control, [], s⟩ = ⟨.unwind (.failure err), [], s'⟩ →
      (∃ m₀ frame moves', Machine.Operand s control m₀ frame ∧
        Machine.run moves' m₀ = ⟨.unwind (.failure err), [], s'⟩) ∨
      ∃ m, Machine.Writing s control m ∧ m.step = ⟨.unwind (.failure err), [], s'⟩) := by
  refine ⟨fun m hwriting hstep => ?_, fun hwrites moves s' hrun => ?_⟩
  · obtain ⟨moves, hmoves⟩ := hwriting.comes
    have hspotless := hwriting.spotless
    refine ⟨moves + 1, m.step.state, ?_, hspotless.contents err hstep, hspotless.output,
      hspotless.depth⟩
    rw [Machine.run_succ_right, hmoves, ← hstep, ← hspotless.stack err hstep]
  · cases moves with
    | zero =>
        cases hrun
        cases hwrites
    | succ moves =>
        rw [Machine.run_succ] at hrun
        rcases Machine.begins_of_writes hwrites s with ⟨hbare, hhalted⟩ | ⟨m₀, frame, h, hstep⟩
        · rw [Machine.run_of_hasHalted hhalted] at hrun
          exact .inr ⟨_, .bare hbare, hrun⟩
        · rw [hstep] at hrun
          exact h.fails hrun

/-! ### A `let` that is refused -/

namespace Session

/-- The statement `let clock = nil;`. -/
def letClock : Stmt := .letDecl (nameAt "clock" 5) (.literal .nil)

/-- `clock` is there before anything has run.  A `let` of that name is refused, and `clock`
can be assigned to as before. -/
theorem refused_write_changes_nothing_let :
    ∃ moves s', Machine.run moves ⟨.execute letClock State.globals, [], State.initial none 0⟩ =
        ⟨.unwind (.failure (.blaming (nameAt "clock" 5) (.alreadyDefined "clock"))), [], s'⟩ ∧
      s'.store.isReadOnly State.globals "clock" = false ∧
      s'.store.getLocal? State.globals "clock" = some (.callable (.native .clock)) := by
  have hoperand : Machine.Operand (State.initial none 0) (.execute letClock State.globals)
      ⟨.evaluate (.literal .nil) State.globals, [], State.initial none 0⟩
      (.letDecl (nameAt "clock" 5) State.globals) := .constant
  have hvalue : Machine.run 1 ⟨.evaluate (.literal .nil) State.globals, [], State.initial none 0⟩ =
      ⟨.value .nil, [], State.initial none 0⟩ := rfl
  obtain ⟨moves, s', hrun, hsame, -⟩ := (refused_write_changes_nothing (State.initial none 0)
    (.execute letClock State.globals) _).1 _ (.after hoperand hvalue (.inr ⟨_, rfl⟩)) rfl
  exact ⟨moves, s', hrun, hsame.marks State.globals (by decide) "clock",
    hsame.names State.globals (by decide) "clock"⟩

end Session

end Lox
