/-
# What the operations of a store do to its views

A store is looked at through the names, read-only marks and links of its
environments, the fields of its instances and the elements of its arrays.  Each
operation has one lemma for each view that it can change; the other views it
leaves alone, and `simp` knows that.  The second part is about chains: they are
settled by links, and a link never changes.
-/
import Lox.Store

namespace Lox.Store

variable (s : Store) (e f : EnvironmentId) (n m : String) (v : Value)

/-! ## Environments -/

theorem environment_newEnvironment (env : Environment) :
    (s.newEnvironment env).2.environment f =
      if f = s.environments.size then env else s.environment f := by
  simp only [newEnvironment, environment, Array.getElem?_push]
  split <;> rfl

theorem environment_modify (g : Environment → Environment) :
    ({ s with environments := s.environments.modify e g } : Store).environment f =
      if f = e ∧ e < s.environments.size then g (s.environment f) else s.environment f := by
  simp only [environment, Array.getElem?_modify]
  by_cases hf : e = f
  · subst hf
    by_cases he : e < s.environments.size
    · simp [he]
    · simp [he]
  · simp [hf, Ne.symm hf]

theorem environment_of_ge {s : Store} {e : EnvironmentId} (h : s.environments.size ≤ e) :
    s.environment e = default := by
  simp [environment, Array.getElem?_eq_none h]

/-- Only what the store keeps has names. -/
theorem lt_of_getLocal? {s : Store} {e : EnvironmentId} {n : String} {v : Value}
    (h : s.getLocal? e n = some v) : e < s.environments.size := by
  refine Nat.lt_of_not_le fun hge => ?_
  rw [getLocal?, environment_of_ge hge] at h
  cases h

theorem lt_of_isReadOnly {s : Store} {e : EnvironmentId} {n : String}
    (h : s.isReadOnly e n = true) : e < s.environments.size := by
  refine Nat.lt_of_not_le fun hge => ?_
  rw [isReadOnly, environment_of_ge hge] at h
  exact absurd (of_decide_eq_true h) List.not_mem_nil

@[simp] theorem size_put : (s.put e n v).environments.size = s.environments.size := by
  simp [put]

@[simp] theorem size_protect : (s.protect e n).environments.size = s.environments.size := by
  simp [protect]

@[simp] theorem enclosing?_put : (s.put e n v).enclosing? f = s.enclosing? f := by
  rw [enclosing?, put, environment_modify]
  split <;> rfl

@[simp] theorem enclosing?_protect : (s.protect e n).enclosing? f = s.enclosing? f := by
  rw [enclosing?, protect, environment_modify]
  split <;> rfl

@[simp] theorem size_newEnvironment (env : Environment) :
    (s.newEnvironment env).2.environments.size = s.environments.size + 1 := by
  simp [newEnvironment]

theorem enclosing?_newEnvironment (env : Environment) :
    (s.newEnvironment env).2.enclosing? f =
      if f = s.environments.size then env.enclosing else s.enclosing? f := by
  rw [enclosing?, environment_newEnvironment]
  split <;> rfl

theorem getLocal?_put : (s.put e n v).getLocal? f m =
    if f = e ∧ e < s.environments.size ∧ m = n then some v else s.getLocal? f m := by
  rw [getLocal?, put, environment_modify]
  split
  · rename_i h
    rw [Table.get?_set]
    simp only [h.1, h.2, true_and]
    rfl
  · rename_i h
    rw [if_neg fun h' => h ⟨h'.1, h'.2.1⟩]
    rfl

@[simp] theorem getLocal?_protect : (s.protect e n).getLocal? f m = s.getLocal? f m := by
  rw [getLocal?, protect, environment_modify]
  split <;> rfl

theorem getLocal?_newEnvironment (env : Environment) :
    (s.newEnvironment env).2.getLocal? f m =
      if f = s.environments.size then env.bindings.get? m else s.getLocal? f m := by
  rw [getLocal?, environment_newEnvironment]
  split <;> rfl

@[simp] theorem isReadOnly_put : (s.put e n v).isReadOnly f m = s.isReadOnly f m := by
  rw [isReadOnly, put, environment_modify]
  split <;> rfl

theorem isReadOnly_protect : (s.protect e n).isReadOnly f m =
    (decide (f = e ∧ e < s.environments.size ∧ m = n) || s.isReadOnly f m) := by
  rw [isReadOnly, protect, environment_modify]
  split
  · rename_i h
    simp [isReadOnly, h, List.mem_insert_iff]
  · rename_i h
    have : ¬ (f = e ∧ e < s.environments.size ∧ m = n) := fun h' => h ⟨h'.1, h'.2.1⟩
    simp [isReadOnly, this]

theorem isReadOnly_newEnvironment (env : Environment) :
    (s.newEnvironment env).2.isReadOnly f m =
      if f = s.environments.size then decide (m ∈ env.readOnly) else s.isReadOnly f m := by
  rw [isReadOnly, environment_newEnvironment]
  split <;> rfl

/-! ## Definitions and assignments, by the store they leave -/

variable {s e n v}

theorem define_eq_ok {name : Token} {s' : Store} :
    s.define e name v = .ok s' ↔ s.binds e name.lexeme = false ∧ s' = s.put e name.lexeme v := by
  unfold define
  cases s.binds e name.lexeme <;> simp [eq_comm]

theorem defineReadOnly_eq_ok {name : Token} {s' : Store} :
    s.defineReadOnly e name v = .ok s' ↔
      s.binds e name.lexeme = false ∧
        s' = (s.put e name.lexeme v).protect e name.lexeme := by
  unfold defineReadOnly define
  cases s.binds e name.lexeme <;> simp [eq_comm]

theorem assignLocal?_eq_some {s' : Store} :
    s.assignLocal? e n v = some s' ↔ s.binds e n = true ∧ s' = s.put e n v := by
  unfold assignLocal?
  cases s.binds e n <;> simp [eq_comm]

theorem assign_eq_ok {name : Token} {s' : Store} :
    s.assign e name v = .ok s' ↔
      ∃ f, s.holder? e name.lexeme = some f ∧ s' = s.put f name.lexeme v := by
  unfold assign
  cases s.holder? e name.lexeme <;> simp [eq_comm]

theorem assignAt_eq_ok {d : Nat} {name : Token} {s' : Store} :
    s.assignAt e d name v = .ok s' ↔
      ∃ f, s.ancestor? e d = some f ∧ s.binds f name.lexeme = true ∧
        s' = s.put f name.lexeme v := by
  unfold assignAt scopeAt
  cases s.ancestor? e d with
  | none => simp
  | some f =>
      simp only [Option.some.injEq, exists_eq_left', assignLocal?]
      cases s.binds f name.lexeme <;> simp [eq_comm]

theorem accessAt_eq_ok {d : Nat} {name : Token} :
    s.accessAt e d name = .ok v ↔
      ∃ f, s.ancestor? e d = some f ∧ s.getLocal? f name.lexeme = some v := by
  unfold accessAt scopeAt
  cases s.ancestor? e d with
  | none => simp
  | some f =>
      simp only [Option.some.injEq, exists_eq_left']
      cases s.getLocal? f name.lexeme <;> simp

/-! ## Names that are added -/

theorem binds_of_put {f : EnvironmentId} {m : String} (h : (s.put e n v).binds f m = true) :
    s.binds f m = true ∨ f = e ∧ m = n := by
  rw [binds, getLocal?_put] at h
  split at h
  · rename_i heq
    exact .inr ⟨heq.1, heq.2.2⟩
  · exact .inl h

theorem binds_of_protect {f : EnvironmentId} {m : String} (h : (s.protect e n).binds f m = true) :
    s.binds f m = true := by
  rw [binds, getLocal?_protect] at h
  exact h

theorem binds_of_newEnvironment {made : Environment} (he : e < s.environments.size)
    (h : (s.newEnvironment made).2.binds e n = true) : s.binds e n = true := by
  rw [binds, getLocal?_newEnvironment, if_neg (Nat.ne_of_lt he)] at h
  exact h

/-- An environment that is made empty holds nothing. -/
theorem binds_child (s : Store) (e : EnvironmentId) (n : String) :
    (s.child e).2.binds s.environments.size n = false := by
  refine (congrArg Option.isSome (getLocal?_newEnvironment s _ _ _)).trans ?_
  rw [if_pos rfl]
  rfl

/-! ## Chains -/

variable (s) in
theorem chain_eq (e : EnvironmentId) :
    s.chain e = e :: match s.enclosing? e with
      | some p => if p < e then s.chain p else []
      | none => [] :=
  chain.eq_def s e

/-- A chain is settled by the links of its environments, which have no larger
numbers. -/
theorem chain_congr {s' : Store} {e : EnvironmentId}
    (h : ∀ f ≤ e, s'.enclosing? f = s.enclosing? f) : s'.chain e = s.chain e := by
  induction e using Nat.strongRecOn with
  | ind e ih =>
      rw [chain_eq, chain_eq s, h e (Nat.le_refl e)]
      cases s.enclosing? e with
      | none => rfl
      | some p =>
          by_cases hp : p < e
          · simp only [if_pos hp]
            rw [ih p hp fun f hf => h f (Nat.le_trans hf (Nat.le_of_lt hp))]
          · simp only [if_neg hp]

/-- Every link leads to a smaller number. -/
def Linked (s : Store) : Prop := ∀ e p, s.enclosing? e = some p → p < e

/-- Only the first environment has none around it. -/
def Rooted (s : Store) : Prop :=
  ∀ e, e < s.environments.size → s.enclosing? e = none → e = 0

/-- Every chain ends with the first environment. -/
theorem getLast?_chain (h : s.Linked) (hr : s.Rooted) {e : EnvironmentId}
    (he : e < s.environments.size) : (s.chain e).getLast? = some 0 := by
  induction e using Nat.strongRecOn with
  | ind e ih =>
      rw [chain_eq]
      cases hp : s.enclosing? e with
      | none => simp [hr e he hp]
      | some p =>
          have hlt := h e p hp
          simp only [if_pos hlt, List.getLast?_cons, ih p hlt (Nat.lt_trans hlt he),
            Option.getD_some]

/-- Among smaller numbers, a walk of `d` steps ends at the member `d` of the
chain. -/
theorem ancestor?_eq_getElem? (h : s.Linked) (e : EnvironmentId) (d : Nat) :
    s.ancestor? e d = (s.chain e)[d]? := by
  induction d generalizing e with
  | zero => rw [chain_eq]; rfl
  | succ d ih =>
      rw [chain_eq, ancestor?]
      cases hp : s.enclosing? e with
      | none => rfl
      | some p => simp only [ih p, if_pos (h e p hp), List.getElem?_cons_succ]

/-- Where a walk leads somewhere, shorter ones do. -/
theorem ancestor?_of_le {d d' : Nat} (hle : d' ≤ d) {e f : EnvironmentId}
    (h : s.ancestor? e d = some f) : ∃ g, s.ancestor? e d' = some g := by
  induction d' generalizing d e with
  | zero => exact ⟨e, rfl⟩
  | succ d' ih =>
      cases d with
      | zero => omega
      | succ d =>
          rw [ancestor?] at h ⊢
          cases hp : s.enclosing? e with
          | none =>
              rw [hp] at h
              cases h
          | some p =>
              rw [hp] at h
              exact ih (Nat.le_of_succ_le_succ hle) h

/-! ## Instances and arrays -/

variable (s)

theorem fieldsOf_newInstance (c : Class) (i : Instance) :
    (s.newInstance c).2.fieldsOf i =
      if i.id = s.fields.size then [] else s.fieldsOf i := by
  simp only [newInstance, fieldsOf, Array.getElem?_push]
  split <;> rfl

theorem fieldsOf_setField (i j : Instance) (n : String) (v : Value) :
    (s.setField i n v).fieldsOf j =
      if j.id = i.id ∧ i.id < s.fields.size then (s.fieldsOf j).set n v
      else s.fieldsOf j := by
  simp only [setField, fieldsOf, Array.getElem?_modify]
  by_cases hf : i.id = j.id
  · by_cases he : i.id < s.fields.size
    · simp [hf, hf ▸ he]
    · have : ¬ j.id < s.fields.size := hf ▸ he
      simp [hf, this]
  · simp [hf, Ne.symm hf]

theorem element?_newArray (es : Array Value) (a : ArrayId) (i : Nat) :
    (s.newArray es).2.element? a i =
      if a = s.arrays.size then es[i]? else s.element? a i := by
  simp only [newArray, element?, elements, Array.getElem?_push]
  split <;> rfl

variable {s} in
theorem element?_setElement? {a b : ArrayId} {i j : Nat} {v : Value} {s' : Store}
    (h : s.setElement? a i v = some s') :
    s'.element? b j = if b = a ∧ j = i then some v else s.element? b j := by
  unfold setElement? at h
  split at h
  · rename_i hi
    cases h
    have ha : a < s.arrays.size := by
      refine Nat.lt_of_not_le fun hge => ?_
      simp [length, elements, Array.getElem?_eq_none hge] at hi
    have hi' : i < s.arrays[a].size := by simpa [length, elements, ha] using hi
    simp only [element?, elements, Array.getElem?_modify]
    by_cases hb : a = b
    · subst hb
      by_cases hj : i = j
      · subst hj
        simp [ha, hi']
      · simp [ha, hj, Ne.symm hj]
    · simp [hb, Ne.symm hb]
  · cases h

/-! ## Values -/

/-- Every value that the store keeps has the property `V`. -/
structure Only (V : Value → Prop) (s : Store) : Prop where
  bindings : ∀ {e n v}, s.getLocal? e n = some v → V v
  fields : ∀ {i n v}, (s.fieldsOf i).get? n = some v → V v
  arrays : ∀ {a i v}, s.element? a i = some v → V v

namespace Only

variable {V : Value → Prop} {s : Store} (h : s.Only V)
include h

theorem imp {V' : Value → Prop} (himp : ∀ v, V v → V' v) : s.Only V' :=
  ⟨fun hv => himp _ (h.bindings hv), fun hv => himp _ (h.fields hv),
    fun hv => himp _ (h.arrays hv)⟩

theorem put {v : Value} (hv : V v) (e : EnvironmentId) (n : String) : (s.put e n v).Only V := by
  refine ⟨fun {f m u} hu => ?_, h.fields, h.arrays⟩
  rw [getLocal?_put] at hu
  split at hu
  · cases hu
    exact hv
  · exact h.bindings hu

theorem protect (e : EnvironmentId) (n : String) : (s.protect e n).Only V := by
  refine ⟨fun {f m u} hu => ?_, h.fields, h.arrays⟩
  rw [getLocal?_protect] at hu
  exact h.bindings hu

theorem newEnvironment {env : Environment} (hv : ∀ n v, env.bindings.get? n = some v → V v) :
    (s.newEnvironment env).2.Only V := by
  refine ⟨fun {f m u} hu => ?_, h.fields, h.arrays⟩
  rw [getLocal?_newEnvironment] at hu
  split at hu
  · exact hv m u hu
  · exact h.bindings hu

theorem child (e : EnvironmentId) : (s.child e).2.Only V := h.newEnvironment nofun

theorem childWith {v : Value} (hv : V v) (e : EnvironmentId) (n : String) :
    (s.childWith e n v).2.Only V := by
  refine h.newEnvironment fun m u hu => ?_
  simp only [Table.get?] at hu
  split at hu
  · cases hu
    exact hv
  · cases hu

theorem define {v : Value} (hv : V v) {e : EnvironmentId} {name : Token} {s' : Store}
    (hs : s.define e name v = .ok s') : s'.Only V := by
  obtain ⟨-, rfl⟩ := define_eq_ok.mp hs
  exact h.put hv e name.lexeme

theorem defineReadOnly {v : Value} (hv : V v) {e : EnvironmentId} {name : Token} {s' : Store}
    (hs : s.defineReadOnly e name v = .ok s') : s'.Only V := by
  obtain ⟨-, rfl⟩ := defineReadOnly_eq_ok.mp hs
  exact (h.put hv e name.lexeme).protect e name.lexeme

theorem newIdentity : s.newIdentity.2.Only V := ⟨h.bindings, h.fields, h.arrays⟩

theorem bindMethod {i : Instance} (hi : V (.instance i)) (m : Closure) :
    (s.bindMethod m i).2.Only V :=
  (h.childWith hi m.environment receiverName).newIdentity

theorem newInstance (c : Class) : (s.newInstance c).2.Only V := by
  refine ⟨h.bindings, fun {i n v} hv => ?_, h.arrays⟩
  rw [fieldsOf_newInstance] at hv
  split at hv
  · cases hv
  · exact h.fields hv

theorem setField {v : Value} (hv : V v) (i : Instance) (n : String) :
    (s.setField i n v).Only V := by
  refine ⟨h.bindings, fun {j m u} hu => ?_, h.arrays⟩
  rw [fieldsOf_setField] at hu
  split at hu
  · rw [Table.get?_set] at hu
    split at hu
    · cases hu
      exact hv
    · exact h.fields hu
  · exact h.fields hu

theorem newArray {elements : Array Value} (hv : ∀ (i : Nat) v, elements[i]? = some v → V v) :
    (s.newArray elements).2.Only V := by
  refine ⟨h.bindings, h.fields, fun {a i v} hi => ?_⟩
  rw [element?_newArray] at hi
  split at hi
  · exact hv i v hi
  · exact h.arrays hi

theorem setElement? {v : Value} (hv : V v) {a : ArrayId} {i : Nat} {s' : Store}
    (hs : s.setElement? a i v = some s') : s'.Only V := by
  have hlater := fun b j => element?_setElement? (b := b) (j := j) hs
  unfold Store.setElement? at hs
  split at hs
  · cases hs
    refine ⟨h.bindings, h.fields, fun {b j u} hu => ?_⟩
    rw [hlater] at hu
    split at hu
    · cases hu
      exact hv
    · exact h.arrays hu
  · cases hs

end Only

end Lox.Store
