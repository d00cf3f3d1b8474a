/-
# Equations of the machine

What the functions of the machine come to in cases that proofs meet more than
once: values that are taken from a store, events that are noted one after the other,
names that a depth leads to the globals for, the methods and the end of a class, and
runs that have come to their end.
-/
import Lox.Interpreter
import Lox.Proofs.Store

namespace Lox

namespace Store

variable {s : Store} (h : s.Linked)
include h

/-- Nothing is around the globals. -/
theorem enclosing?_globals : s.enclosing? State.globals = none := by
  cases hp : s.enclosing? State.globals with
  | none => rfl
  | some p => exact absurd (h _ p hp) (Nat.not_lt_zero p)

/-- From the globals one gets nowhere else. -/
theorem chain_globals : s.chain State.globals = [State.globals] := by
  rw [chain_eq, enclosing?_globals h]

end Store

namespace State

/-! ## The beginning -/

section
variable (limit : Option Nat) (now : ClockReading)

theorem size_initial : (State.initial limit now).store.environments.size = 1 := by
  simp [State.initial, withNatives, Native.all, Store.empty]

/-- At the beginning there are only the globals. -/
theorem enclosing?_initial (e : EnvironmentId) :
    (State.initial limit now).store.enclosing? e = none := by
  simp only [State.initial, withNatives, Native.all, List.foldl, Store.enclosing?_put,
    Store.enclosing?_newEnvironment]
  split
  · rfl
  · simp [Store.enclosing?, Store.environment, Store.empty]
    rfl

/-- At the beginning the store keeps the native functions and nothing else. -/
theorem only_initial {V : Value → Prop} (hnatives : ∀ n, V (.callable (.native n))) :
    (State.initial limit now).store.Only V := by
  have hempty : Store.empty.Only V := by
    refine ⟨fun h => ?_, fun h => ?_, fun h => ?_⟩
    · simp [Store.getLocal?, Store.environment, Store.empty, default] at h
    · simp [Store.fieldsOf, Store.empty] at h
    · simp [Store.element?, Store.elements, Store.empty] at h
  have hglobals : (Store.empty.newEnvironment default).2.Only V := by
    refine hempty.newEnvironment ?_
    intro n v h
    cases h
  have hclock := hglobals.put (hnatives .clock) globals "clock"
  exact hclock.put (hnatives .len) globals "len"

end

/-- Noted events stand before the earlier ones, the latest first. -/
theorem foldl_note (events : List Event) (s : State) :
    events.foldl State.note s = { s with events := events.reverse ++ s.events } := by
  induction events generalizing s with
  | nil => rfl
  | cons e events ih =>
      rw [List.foldl_cons, ih, List.reverse_cons, List.append_assoc]
      rfl

end State

namespace Store.Only

variable {V : Value → Prop} {s : Store} (h : s.Only V)
include h

theorem accessAt {env : EnvironmentId} {d : Nat} {name : Token} {v : Value}
    (hv : s.accessAt env d name = .ok v) : V v := by
  obtain ⟨f, -, hf⟩ := accessAt_eq_ok.mp hv
  exact h.bindings hf

theorem lookUp {env : EnvironmentId} {depth : Option Nat} {name : Token} {v : Value}
    (hv : Machine.lookUp s name depth env = .ok v) : V v := by
  cases depth with
  | some d => exact h.accessAt hv
  | none =>
      unfold Machine.lookUp Store.access at hv
      dsimp only at hv
      split at hv <;> cases hv
      rename_i hfound
      obtain ⟨f, -, hf⟩ := List.exists_of_findSome?_eq_some hfound
      exact h.bindings hf

theorem result {f : Closure} {u v : Value} (hu : V u) (hv : Machine.result f u s = .ok v) :
    V v := by
  unfold Machine.result at hv
  split at hv
  · exact h.accessAt hv
  · cases hv
    exact hu

theorem bindArguments (env : EnvironmentId) {vs : List Value} (hvs : ∀ v ∈ vs, V v)
    (ps : List Token) : (Machine.bindArguments s env ps vs).1.Only V := by
  induction ps generalizing s vs with
  | nil =>
      simp only [Machine.bindArguments]
      exact h
  | cons p ps ih =>
      cases vs with
      | nil =>
          simp only [Machine.bindArguments]
          exact h
      | cons v vs =>
          obtain ⟨hv, hvs⟩ := List.forall_mem_cons.mp hvs
          simp only [Machine.bindArguments]
          cases hd : s.define env p v with
          | error e => exact h
          | ok s' => exact ih (h.define hv hd) hvs

theorem makeMethods (env : EnvironmentId) (table : Table Closure) (ds : List FunctionDecl) :
    (Machine.makeMethods s env table ds).2.Only V := by
  induction ds generalizing s table with
  | nil => exact h
  | cons d ds ih =>
      unfold Machine.makeMethods
      split
      · exact ih h.newIdentity _
      · exact ih h table

end Store.Only

namespace Machine

/-! ## Names of the globals -/

section
variable {s : Store} {e : EnvironmentId} {d : Nat} (hroot : s.enclosing? State.globals = none)
  (hd : s.ancestor? e d = some State.globals) (name : Token)
include hroot hd

/-- A depth that leads to the globals and no depth find the same. -/
theorem lookUp_outermost : lookUp s name (some d) e = lookUp s name none e := by
  simp only [lookUp, Store.accessAt, Store.scopeAt, hd, Store.access,
    Store.chain_eq s State.globals, hroot, List.findSome?_cons, List.findSome?_nil]
  cases s.getLocal? State.globals name.lexeme <;> rfl

/-- A depth that leads to the globals and no depth change the same. -/
theorem change_outermost (v : Value) :
    change s name (some d) e v = change s name none e v := by
  simp only [change, Store.assignAt, Store.scopeAt, hd, Store.assign, Store.assignLocal?,
    Store.holder?, Store.chain_eq s State.globals, hroot, List.find?_cons, List.find?_nil]
  cases s.binds State.globals name.lexeme <;> rfl

end

/-! ## The end of a class -/

/-- What is left of `defineClass` once the scope of the methods is there. -/
def finishClass (name : Token) (superclass : Option Class) (ms : List FunctionDecl)
    (env scope : EnvironmentId) (store : Store) (stack : List Frame) (s : State) : Machine :=
  let (table, store) := makeMethods store scope [] ms
  let (identity, store) := store.newIdentity
  let c := Class.mk identity name superclass table
  let s := { s with store := store }.note (.classDefined c)
  doneWith (s.store.define env name (.callable (.class c))) stack s

theorem defineClass_none (name : Token) (ms : List FunctionDecl) (env : EnvironmentId)
    (stack : List Frame) (s : State) :
    defineClass name none ms env stack s =
      finishClass name none ms env env s.store stack s := rfl

theorem defineClass_some (name : Token) (above : Class) (ms : List FunctionDecl)
    (env : EnvironmentId) (stack : List Frame) (s : State) :
    defineClass name (some above) ms env stack s =
      finishClass name (some above) ms env
        (s.store.childWith env superName (.callable (.class above))).1
        (s.store.childWith env superName (.callable (.class above))).2 stack s := rfl

/-- The class that is made is noted. -/
theorem events_finishClass (name : Token) (superclass : Option Class)
    (ms : List FunctionDecl) (env scope : EnvironmentId) (store : Store) (stack : List Frame)
    (s : State) :
    (finishClass name superclass ms env scope store stack s).state.events =
      .classDefined (.mk (makeMethods store scope [] ms).2.newIdentity.1 name superclass
        (makeMethods store scope [] ms).1) :: s.events := by
  have hdone : ∀ r (s : State), (doneWith r stack s).state.events = s.events := by
    intro r s
    cases r <;> rfl
  exact hdone ..

/-- A name stands for the last method that was declared with it. -/
theorem declaration_makeMethods (s : Store) (env : EnvironmentId) (table : Table Closure)
    (ds : List FunctionDecl) (n : String) :
    ((makeMethods s env table ds).1.get? n).map Closure.declaration =
      (ds.reverse.find? (·.lexeme? == some n)).or ((table.get? n).map Closure.declaration) := by
  induction ds generalizing s table with
  | nil => rfl
  | cons d ds ih =>
      rw [List.reverse_cons, List.find?_append, Option.or_assoc]
      unfold makeMethods
      cases hd : d.name with
      | none =>
          have hnone : d.lexeme? = none := congrArg (Option.map Token.lexeme) hd
          rw [List.find?_singleton, hnone]
          exact ih s table
      | some name =>
          have hsome : d.lexeme? = some name.lexeme := congrArg (Option.map Token.lexeme) hd
          refine (ih _ _).trans ?_
          rw [List.find?_singleton, hsome, Table.get?_set]
          by_cases hn : name.lexeme = n
          · subst hn
            simp
          · simp [hn, Ne.symm hn]

/-- A method of a class was declared with the class, and made in the environment of its
methods. -/
theorem get?_makeMethods {s : Store} {env : EnvironmentId} {table : Table Closure}
    {ds : List FunctionDecl} {n : String} {k : Closure}
    (h : (makeMethods s env table ds).1.get? n = some k) :
    table.get? n = some k ∨ (k.declaration ∈ ds ∧ k.declaration.lexeme? = some n ∧
      k.environment = env ∧ k.isInitializer = k.declaration.isInitializer) := by
  induction ds generalizing s table with
  | nil => exact .inl h
  | cons d ds ih =>
      unfold makeMethods at h
      cases hd : d.name with
      | none =>
          rw [hd] at h
          exact (ih h).imp_right fun hmade => ⟨List.mem_cons_of_mem d hmade.1, hmade.2⟩
      | some name =>
          rw [hd] at h
          rcases ih h with hset | hmade
          · rw [Table.get?_set] at hset
            split at hset
            · rename_i hn
              cases hset
              refine .inr ⟨List.mem_cons_self, ?_, rfl, rfl⟩
              exact hn ▸ congrArg (Option.map Token.lexeme) hd
            · exact .inl hset
          · exact .inr ⟨List.mem_cons_of_mem d hmade.1, hmade.2⟩

/-! ## Runs that have ended -/

/-- Statements catch no signal. -/
theorem step_unwind_sequence (g : Signal) (sts : List Stmt) (env : EnvironmentId)
    (stack : List Frame) (s : State) :
    step ⟨.unwind g, .sequence sts env :: stack, s⟩ = ⟨.unwind g, stack, s⟩ := by
  cases g <;> rfl

theorem run_succ_right (n : Nat) (m : Machine) : run (n + 1) m = (run n m).step := by
  rw [run_add, run_succ, run_zero]

end Machine

end Lox
