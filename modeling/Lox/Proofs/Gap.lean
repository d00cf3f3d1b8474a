/-
# Stores that differ by what was made in between

Two runs that begin in the same state but for things that were made before the second one
make the same things, under different numbers: the second run passes over the numbers that
were given out in between.  A `Gap` says which they are.  `Store.Across` relates the stores
of the two runs: whatever the first keeps under a number, the second keeps under the number
across the gap, with the values across it too.

Only functions, arrays and environments are made by what is looked at here.  Classes,
instances and modules are the same in both runs, and so are the environments that they lead
to, which were there before: `Value.Anchored`.  So the first store must lead only to what has
been made: it is `Closed`, as it is at every moment of a session.
-/
import Lox.Proofs.Pure
import Lox.Proofs.Arrays
import Lox.Proofs.Held
import Lox.Proofs.Operand

namespace Lox

/-! ## Numbers -/

/-- How many numbers of each kind have been given out. -/
structure Extent where
  environments : Nat
  identities : Nat
  arrays : Nat

def Store.extent (s : Store) : Extent := ⟨s.environments.size, s.identities, s.arrays.size⟩

/-- The number, or if it is not below `base` the one that is `width` higher. -/
def skip (base width n : Nat) : Nat := if n < base then n else n + width

theorem skip_of_lt {base width n : Nat} (h : n < base) : skip base width n = n := if_pos h

theorem skip_of_le {base width n : Nat} (h : base ≤ n) : skip base width n = n + width :=
  if_neg (Nat.not_lt_of_le h)

theorem skip_eq_skip {base width m n : Nat} : skip base width m = skip base width n ↔ m = n := by
  unfold skip
  split <;> split <;> omega

theorem skip_lt {base width m n : Nat} (h : base ≤ n) : skip base width m < n + width ↔ m < n := by
  unfold skip
  split <;> omega

/-- The second run passes over `width` numbers, from `base` on. -/
structure Gap where
  base : Extent
  width : Extent

namespace Gap

variable (g : Gap)

def environment (e : EnvironmentId) : EnvironmentId :=
  skip g.base.environments g.width.environments e

def identity (i : Nat) : Nat := skip g.base.identities g.width.identities i

def array (a : ArrayId) : ArrayId := skip g.base.arrays g.width.arrays a

theorem environment_of_lt {e : EnvironmentId} (h : e < g.base.environments) :
    g.environment e = e := skip_of_lt h

theorem environment_inj {e f : EnvironmentId} : g.environment e = g.environment f ↔ e = f :=
  skip_eq_skip

theorem identity_inj {i j : Nat} : g.identity i = g.identity j ↔ i = j := skip_eq_skip

theorem array_inj {a b : ArrayId} : g.array a = g.array b ↔ a = b := skip_eq_skip

end Gap

/-! ## Values -/

/-- The function of the second run. -/
def Closure.across (g : Gap) (f : Closure) : Closure :=
  { f with identity := g.identity f.identity, environment := g.environment f.environment }

/-- The value of the second run. -/
def Value.across (g : Gap) : Value → Value
  | .callable (.function f) => .callable (.function (f.across g))
  | .array a => .array (g.array a)
  | v => v

/-- Of the first `n` environments are those that a method of the class is to be bound in, or
that the module keeps its members in. -/
def Value.Anchored (n : Nat) : Value → Prop
  | .callable (.class c) => ∀ x m, c.findMethod? x = some m → m.environment < n
  | .instance i => ∀ x m, i.ofClass.findMethod? x = some m → m.environment < n
  | .module m => m.environment < n
  | _ => True

/-- All numbers that the value leads to have been given out. -/
structure Value.Known (x : Extent) (v : Value) : Prop where
  function : ∀ f, v = .callable (.function f) →
    f.identity < x.identities ∧ f.environment < x.environments
  array : ∀ a, v = .array a → a < x.arrays
  anchored : v.Anchored x.environments

namespace Value

variable {g : Gap} {u v : Value}

/-- What was there is the same in both runs. -/
theorem Known.across (h : v.Known g.base) : v.across g = v := by
  unfold Value.across
  split
  · rename_i f
    obtain ⟨hidentity, henv⟩ := h.function f rfl
    have hf : f.across g = f := by
      simp only [Closure.across, Gap.identity, Gap.environment, skip_of_lt hidentity,
        skip_of_lt henv]
    rw [hf]
  · rename_i a
    rw [Gap.array, skip_of_lt (h.array a rfl)]
  · rfl

theorem Scalar.across (h : v.Scalar) : v.across g = v := by
  cases v with
  | callable | array => cases h
  | _ => rfl

theorem Scalar.anchored (h : v.Scalar) (n : Nat) : v.Anchored n := by
  cases v with
  | callable | «instance» | module => cases h
  | _ => trivial

@[simp] theorem across_ofLiteral (l : Literal) : (ofLiteral l).across g = ofLiteral l := by
  cases l <;> rfl

theorem isTruthy_across : (v.across g).isTruthy = v.isTruthy := by
  unfold across
  split <;> rfl

/-- Different things stay different. -/
theorem equals_across : (u.across g).equals (v.across g) = u.equals v := by
  have hfunction : ∀ i j, (g.identity i == g.identity j) = (i == j) := fun i j => by
    rw [Bool.eq_iff_iff, beq_iff_eq, beq_iff_eq, g.identity_inj]
  have harray : ∀ a b, (g.array a == g.array b) = (a == b) := fun a b => by
    rw [Bool.eq_iff_iff, beq_iff_eq, beq_iff_eq, g.array_inj]
  cases u with
  | callable c =>
      cases v with
      | callable d => cases c <;> cases d <;> first | rfl | exact hfunction _ _
      | _ => cases c <;> rfl
  | array a =>
      cases v with
      | array b => exact harray a b
      | callable d => cases d <;> rfl
      | _ => rfl
  | _ =>
      cases v with
      | callable d => cases d <;> rfl
      | _ => rfl

/-! ### Operators -/

theorem applyUnary_across (op : Token) : applyUnary op (v.across g) = applyUnary op v := by
  unfold applyUnary
  rw [isTruthy_across]
  cases v with
  | callable c => cases c <;> rfl
  | _ => rfl

theorem applyBinary_across (op : Token) :
    applyBinary op (u.across g) (v.across g) = applyBinary op u v := by
  have hplus : applyPlus op (u.across g) (v.across g) = applyPlus op u v := by
    cases u with
    | callable c => cases c <;> rfl
    | number x =>
        cases v with
        | callable c => cases c <;> rfl
        | _ => rfl
    | string x =>
        cases v with
        | callable c => cases c <;> rfl
        | _ => rfl
    | _ => rfl
  unfold applyBinary
  rw [equals_across, hplus]
  cases u with
  | callable c => cases c <;> rfl
  | number x =>
      cases v with
      | callable c => cases c <;> rfl
      | _ => rfl
  | _ => rfl

theorem decidedBy_across (op : Token) : decidedBy op (v.across g) = decidedBy op v := by
  unfold decidedBy
  rw [isTruthy_across]

theorem wholeNumber_across (what : String) (site : Token) :
    wholeNumber what (v.across g) site = wholeNumber what v site := by
  cases v with
  | callable c => cases c <;> rfl
  | _ => rfl

theorem arraySize_across (bracket : Token) :
    arraySize (v.across g) bracket = arraySize v bracket := by
  unfold arraySize
  rw [wholeNumber_across]

theorem asIndex_across (length : Nat) (bracket : Token) :
    asIndex (v.across g) length bracket = asIndex v length bracket := by
  unfold asIndex
  rw [wholeNumber_across]

theorem asArray_across (bracket : Token) :
    asArray (v.across g) bracket = (asArray v bracket).map g.array := by
  cases v with
  | callable c => cases c <;> rfl
  | _ => rfl

theorem arrayElements_across (size : Option Nat) (vs : List Value) (bracket : Token) :
    arrayElements size (vs.map (·.across g)) bracket =
      (arrayElements size vs bracket).map (Array.map (·.across g)) := by
  unfold arrayElements
  cases size with
  | none => simp [Except.map]
  | some n =>
      simp only [List.length_map]
      split
      · rfl
      · simp [Except.map, Value.across]

end Value

/-! ## Stores -/

namespace Store

/-- Across the gap the store `t` keeps what `s` keeps. -/
structure Across (g : Gap) (s t : Store) : Prop where
  names : ∀ e n, t.getLocal? (g.environment e) n = (s.getLocal? e n).map (·.across g)
  marks : ∀ e n, t.isReadOnly (g.environment e) n = s.isReadOnly e n
  links : ∀ e, t.enclosing? (g.environment e) = (s.enclosing? e).map g.environment
  fields : ∀ i n, (t.fieldsOf i).get? n = ((s.fieldsOf i).get? n).map (·.across g)
  elements : ∀ a, t.elements (g.array a) = (s.elements a).map (·.across g)
  environments : g.base.environments ≤ s.environments.size ∧
    t.environments.size = s.environments.size + g.width.environments
  identities : g.base.identities ≤ s.identities ∧
    t.identities = s.identities + g.width.identities
  arrays : g.base.arrays ≤ s.arrays.size ∧ t.arrays.size = s.arrays.size + g.width.arrays

/-- All numbers that the store leads to have been given out. -/
structure Closed (s : Store) : Prop where
  known : s.Only (Value.Known s.extent)
  links : ∀ {e p}, s.enclosing? e = some p → p < s.environments.size

/-- What was made between two stores. -/
def gap (s t : Store) : Gap where
  base := s.extent
  width := ⟨t.environments.size - s.environments.size, t.identities - s.identities,
    t.arrays.size - s.arrays.size⟩

section
variable {s t : Store} (ht : s.Extends t)
include ht

/-- Under numbers that the first store has not given out, there is nothing in either store. -/
theorem environment_gap_of_ge {e : EnvironmentId} (he : s.environments.size ≤ e) :
    t.environment ((s.gap t).environment e) = default ∧ s.environment e = default := by
  refine ⟨environment_of_ge ?_, environment_of_ge he⟩
  rw [Gap.environment, gap, skip_of_le (by exact he)]
  have := ht.environments
  dsimp only
  omega

theorem elements_gap_of_ge {a : ArrayId} (ha : s.arrays.size ≤ a) :
    t.elements ((s.gap t).array a) = #[] ∧ s.elements a = #[] := by
  have hge : t.arrays.size ≤ (s.gap t).array a := by
    rw [Gap.array, gap, skip_of_le (by exact ha)]
    have := ht.arrays
    dsimp only
    omega
  rw [elements, elements, Array.getElem?_eq_none hge, Array.getElem?_eq_none ha]
  exact ⟨rfl, rfl⟩

/-- The elements of what was there lead to what was there. -/
theorem Closed.elements_across (h : s.Closed) (a : ArrayId) :
    t.elements ((s.gap t).array a) = (s.elements a).map (·.across (s.gap t)) := by
  by_cases ha : a < s.arrays.size
  · have hsame : (s.gap t).array a = a := skip_of_lt ha
    rw [hsame, ht.contents.elements a ha]
    refine Array.ext_getElem? fun i => ?_
    rw [Array.getElem?_map]
    cases hv : (s.elements a)[i]? with
    | none => rfl
    | some v => rw [Option.map_some, (h.known.arrays (i := i) hv).across]
  · obtain ⟨hnew, hnone⟩ := elements_gap_of_ge ht (Nat.le_of_not_lt ha)
    rw [hnew, hnone]
    exact Array.map_empty.symm

/-- What was made in the meantime is the gap between a store and a later one. -/
theorem Closed.across (h : s.Closed) : s.Across (s.gap t) t := by
  have hold : ∀ {e}, e < s.environments.size → (s.gap t).environment e = e := fun he =>
    skip_of_lt he
  refine ⟨fun e n => ?_, fun e n => ?_, fun e => ?_, fun i n => ?_, h.elements_across ht,
    ⟨Nat.le_refl _, (Nat.add_sub_cancel' ht.environments).symm⟩,
    ⟨Nat.le_refl _, (Nat.add_sub_cancel' ht.identities).symm⟩,
    ⟨Nat.le_refl _, (Nat.add_sub_cancel' ht.arrays).symm⟩⟩
  · by_cases he : e < s.environments.size
    · rw [hold he, ht.contents.names e he]
      cases hv : s.getLocal? e n with
      | none => rfl
      | some v => rw [Option.map_some, (h.known.bindings hv).across]
    · obtain ⟨hnew, hnone⟩ := environment_gap_of_ge ht (Nat.le_of_not_lt he)
      rw [getLocal?, getLocal?, hnew, hnone]
      rfl
  · by_cases he : e < s.environments.size
    · rw [hold he, ht.contents.marks e he]
    · obtain ⟨hnew, hnone⟩ := environment_gap_of_ge ht (Nat.le_of_not_lt he)
      rw [isReadOnly, isReadOnly, hnew, hnone]
  · by_cases he : e < s.environments.size
    · rw [hold he, ht.contents.links e he]
      cases hp : s.enclosing? e with
      | none => rfl
      | some p => rw [Option.map_some, hold (h.links hp)]
    · obtain ⟨hnew, hnone⟩ := environment_gap_of_ge ht (Nat.le_of_not_lt he)
      rw [enclosing?, enclosing?, hnew, hnone]
      rfl
  · rw [fieldsOf, ht.fields, ← fieldsOf]
    cases hv : (s.fieldsOf i).get? n with
    | none => rfl
    | some v => rw [Option.map_some, (h.known.fields hv).across]

end

namespace Across

variable {g : Gap} {s t : Store} (h : s.Across g t)
include h

/-! ### What is looked up -/

theorem ancestor? (e : EnvironmentId) (d : Nat) :
    t.ancestor? (g.environment e) d = (s.ancestor? e d).map g.environment := by
  induction d generalizing e with
  | zero => rfl
  | succ d ih =>
      rw [Store.ancestor?, Store.ancestor?, h.links e]
      cases s.enclosing? e with
      | none => rfl
      | some p => exact ih p

theorem accessAt (e : EnvironmentId) (d : Nat) (name : Token) :
    t.accessAt (g.environment e) d name = (s.accessAt e d name).map (·.across g) := by
  unfold Store.accessAt scopeAt
  rw [h.ancestor? e d]
  cases s.ancestor? e d with
  | none => rfl
  | some f =>
      simp only [Option.map_some, h.names f]
      cases s.getLocal? f name.lexeme <;> rfl

/-- There is nothing but the globals around the globals, by their number. -/
theorem access_globals (hg : State.globals < g.base.environments) (name : Token) :
    t.access State.globals name = (s.access State.globals name).map (·.across g) := by
  have hchain : ∀ u : Store, u.chain State.globals = [State.globals] := fun u => by
    rw [chain_eq]
    cases u.enclosing? State.globals with
    | none => rfl
    | some p => exact congrArg _ (if_neg (Nat.not_lt_zero p))
  have hnames := h.names State.globals name.lexeme
  rw [g.environment_of_lt hg] at hnames
  simp only [access, hchain, List.findSome?_cons, List.findSome?_nil, hnames]
  cases s.getLocal? State.globals name.lexeme <;> rfl

/-- What a name stands for where there was an environment before. -/
theorem lookUp {env : EnvironmentId} (henv : env < g.base.environments) (name : Token)
    (depth : Option Nat) :
    Machine.lookUp t name depth env = (Machine.lookUp s name depth env).map (·.across g) := by
  cases depth with
  | none => exact h.access_globals (Nat.lt_of_le_of_lt (Nat.zero_le _) henv) name
  | some d =>
      have hat := h.accessAt env d name
      rwa [g.environment_of_lt henv] at hat

/-- Classes and instances are the same in both runs. -/
theorem superMethod {env : EnvironmentId} (henv : env < g.base.environments)
    (keyword name : Token) (depth : Option Nat) :
    Machine.superMethod t keyword name depth env =
      Machine.superMethod s keyword name depth env := by
  have hat : ∀ d x, t.accessAt env d x = (s.accessAt env d x).map (·.across g) := fun d x => by
    have hat := h.accessAt env d x
    rwa [g.environment_of_lt henv] at hat
  have hclass : ∀ d, Machine.superclassAt t keyword d env =
      Machine.superclassAt s keyword d env := fun d => by
    unfold Machine.superclassAt
    rw [hat]
    cases s.accessAt env d keyword with
    | error e => rfl
    | ok v =>
        cases v with
        | callable c => cases c <;> rfl
        | _ => rfl
  have hreceiver : ∀ d, Machine.receiverAt t keyword d env =
      Machine.receiverAt s keyword d env := fun d => by
    unfold Machine.receiverAt
    rw [hat]
    cases s.accessAt env (d - 1) (.implicitAt receiverName keyword) with
    | error e => rfl
    | ok v =>
        cases v with
        | callable c => cases c <;> rfl
        | _ => rfl
  unfold Machine.superMethod
  simp only [hclass, hreceiver]

theorem length (a : ArrayId) : t.length (g.array a) = s.length a := by
  rw [Store.length, Store.length, h.elements, Array.size_map]

theorem element? (a : ArrayId) (i : Nat) :
    t.element? (g.array a) i = (s.element? a i).map (·.across g) := by
  rw [Store.element?, Store.element?, h.elements, Array.getElem?_map]

/-! ### What is made -/

/-- The next environment of the second run. -/
theorem nextEnvironment : g.environment s.environments.size = t.environments.size := by
  rw [Gap.environment, skip_of_le h.environments.1, h.environments.2]

theorem nextArray : g.array s.arrays.size = t.arrays.size := by
  rw [Gap.array, skip_of_le h.arrays.1, h.arrays.2]

theorem environment_lt {e : EnvironmentId} :
    g.environment e < t.environments.size ↔ e < s.environments.size := by
  rw [h.environments.2]
  exact skip_lt h.environments.1

theorem newEnvironment {env env' : Environment}
    (hnames : ∀ n, env'.bindings.get? n = (env.bindings.get? n).map (·.across g))
    (hmarks : env'.readOnly = env.readOnly)
    (hlink : env'.enclosing = env.enclosing.map g.environment) :
    (s.newEnvironment env).2.Across g (t.newEnvironment env').2 := by
  have hnew : ∀ e, g.environment e = t.environments.size ↔ e = s.environments.size := fun e => by
    rw [← h.nextEnvironment, g.environment_inj]
  have hsize := h.environments
  refine ⟨fun e n => ?_, fun e n => ?_, fun e => ?_, h.fields, h.elements, ?_, h.identities,
    h.arrays⟩
  · rw [getLocal?_newEnvironment, getLocal?_newEnvironment]
    simp only [hnew]
    split
    · exact hnames n
    · exact h.names e n
  · rw [isReadOnly_newEnvironment, isReadOnly_newEnvironment, hmarks]
    simp only [hnew]
    split
    · rfl
    · exact h.marks e n
  · rw [enclosing?_newEnvironment, enclosing?_newEnvironment]
    simp only [hnew]
    split
    · exact hlink
    · exact h.links e
  · rw [size_newEnvironment, size_newEnvironment]
    omega

theorem child (e : EnvironmentId) : (s.child e).2.Across g (t.child (g.environment e)).2 :=
  h.newEnvironment (fun _ => rfl) rfl rfl

theorem newIdentity : s.newIdentity.2.Across g t.newIdentity.2 :=
  { h with
    identities := ⟨Nat.le_succ_of_le h.identities.1, by
      rw [Store.newIdentity, Store.newIdentity, h.identities.2, Nat.add_right_comm]⟩ }

/-- A function is the same, across the gap. -/
theorem newClosure (d : FunctionDecl) (e : EnvironmentId) (isInitializer : Bool) :
    (t.newClosure d (g.environment e) isInitializer).1 =
        (s.newClosure d e isInitializer).1.across g ∧
      (s.newClosure d e isInitializer).2.Across g
        (t.newClosure d (g.environment e) isInitializer).2 := by
  refine ⟨?_, h.newIdentity⟩
  have hnext : g.identity s.identities = t.identities := by
    rw [Gap.identity, skip_of_le h.identities.1, h.identities.2]
  simp only [Store.newClosure, Store.newIdentity, Closure.across, hnext]

theorem put (e : EnvironmentId) (n : String) (v : Value) :
    (s.put e n v).Across g (t.put (g.environment e) n (v.across g)) := by
  refine ⟨fun f m => ?_, fun f m => ?_, fun f => ?_, h.fields, h.elements, ?_, h.identities,
    h.arrays⟩
  · rw [getLocal?_put, getLocal?_put]
    simp only [h.environment_lt, g.environment_inj]
    split
    · rfl
    · exact h.names f m
  · rw [isReadOnly_put, isReadOnly_put]
    exact h.marks f m
  · rw [enclosing?_put, enclosing?_put]
    exact h.links f
  · rw [size_put, size_put]
    exact h.environments

theorem protect (e : EnvironmentId) (n : String) :
    (s.protect e n).Across g (t.protect (g.environment e) n) := by
  refine ⟨fun f m => ?_, fun f m => ?_, fun f => ?_, h.fields, h.elements, ?_, h.identities,
    h.arrays⟩
  · rw [getLocal?_protect, getLocal?_protect]
    exact h.names f m
  · rw [isReadOnly_protect, isReadOnly_protect, h.marks]
    simp only [h.environment_lt, g.environment_inj]
  · rw [enclosing?_protect, enclosing?_protect]
    exact h.links f
  · rw [size_protect, size_protect]
    exact h.environments

/-- A definition succeeds in both runs, or fails with the same error. -/
theorem defineReadOnly (e : EnvironmentId) (name : Token) (v : Value) :
    (∃ s' t', s.defineReadOnly e name v = .ok s' ∧
        t.defineReadOnly (g.environment e) name (v.across g) = .ok t' ∧ s'.Across g t') ∨
      ∃ err, s.defineReadOnly e name v = .error err ∧
        t.defineReadOnly (g.environment e) name (v.across g) = .error err := by
  have hbinds : t.binds (g.environment e) name.lexeme = s.binds e name.lexeme := by
    rw [binds, binds, h.names, Option.isSome_map]
  unfold Store.defineReadOnly define
  rw [hbinds]
  cases s.binds e name.lexeme with
  | true => exact .inr ⟨_, rfl, rfl⟩
  | false => exact .inl ⟨_, _, rfl, rfl, (h.put e name.lexeme v).protect e name.lexeme⟩

theorem newArray (vs : Array Value) :
    (s.newArray vs).2.Across g (t.newArray (vs.map (·.across g))).2 := by
  have hsize := h.arrays
  refine ⟨h.names, h.marks, h.links, h.fields, fun a => ?_, h.environments, h.identities, ?_⟩
  · have hnew : g.array a = t.arrays.size ↔ a = s.arrays.size := by
      rw [← h.nextArray, g.array_inj]
    rw [elements_newArray, elements_newArray]
    simp only [hnew]
    split
    · rfl
    · exact h.elements a
  · simp only [Store.newArray, Array.size_push]
    omega

/-- A method that is bound in an environment that was there. -/
theorem bindMethod {m : Closure} (hm : m.environment < g.base.environments) (i : Instance) :
    (t.bindMethod m i).1 = (s.bindMethod m i).1.across g ∧
      (s.bindMethod m i).2.Across g (t.bindMethod m i).2 := by
  have hscope : (s.childWith m.environment receiverName (.instance i)).2.Across g
      (t.childWith m.environment receiverName (.instance i)).2 := by
    refine h.newEnvironment (fun n => ?_) rfl ?_
    · simp only [Table.get?]
      split <;> rfl
    · rw [Option.map_some, g.environment_of_lt hm]
  have hmade := hscope.newClosure m.declaration s.environments.size m.isInitializer
  rw [h.nextEnvironment] at hmade
  exact hmade

end Across

end Store

/-! ## Sessions -/

theorem Value.Grounded.known {s : Store} {P : Class → Prop} {v : Value} (h : v.Grounded s P) :
    v.Known s.extent := by
  refine ⟨?_, ?_, ?_⟩
  · rintro f rfl
    exact ⟨h.identity, h.environment⟩
  · rintro a rfl
    exact h
  · cases v with
    | callable c =>
        cases c with
        | «class» c => exact fun x k hk => (Class.Grounded.method h hk).environment
        | _ => trivial
    | «instance» i => exact fun x k hk => (h.2.method hk).environment
    | module m => exact h
    | _ => trivial

/-- In a sound store, all numbers that it leads to have been given out. -/
theorem Store.Sound.closed {s : Store} {P : Class → Prop} (h : s.Sound P) : s.Closed := by
  refine ⟨h.only.imp fun _ hv => hv.known, ?_⟩
  intro e p hp
  have hlt : e < s.environments.size := by
    refine Nat.lt_of_not_le fun hge => ?_
    rw [enclosing?, environment_of_ge hge] at hp
    cases hp
  exact Nat.lt_trans (h.linked e p hp) hlt

/-- At every moment, all numbers that the store leads to have been given out. -/
theorem Session.Moment.closed {limit : Option Nat} {now : ClockReading} {texts : List (List Stmt)}
    {t : Trail} {m : Machine} (h : Moment limit now texts t m) : m.state.store.Closed :=
  (h.grounded (P := fun _ => True) fun _ _ _ => trivial).store.closed

end Lox
