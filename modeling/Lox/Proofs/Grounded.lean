/-
# Nothing leads to what is still to be made

A value leads to environments, to functions and arrays, to the fields of instances, and
to classes with the classes above them.  It is grounded in a store if all of these have
been made, and if of the classes that it leads to each was made after the one above it.
A store is sound if what it keeps is grounded and each environment, the globals apart, was
made inside an older one.

The operations of a store keep it so: `s.Onward P s'` says that `s'` has made more than
`s` and is sound.  The property `P` is one that the classes have beside, whatever it is; a
class has it when it is made, and keeps it since no class ever changes.
-/
import Lox.Proofs.Coherent.Result
import Lox.Proofs.Machine
import Lox.Proofs.Operand

namespace Lox

/-! ## The classes above a class -/

namespace Class

/-- The class and the classes above it, the nearest first. -/
def line : Class → List Class
  | mk identity name superclass methods =>
    mk identity name superclass methods :: match superclass with
      | some above => above.line
      | none => []

theorem line_none {c : Class} (h : c.superclass = none) : c.line = [c] := by
  obtain ⟨identity, name, superclass, methods⟩ := c
  cases h
  rfl

theorem line_some {c above : Class} (h : c.superclass = some above) :
    c.line = c :: above.line := by
  obtain ⟨identity, name, superclass, methods⟩ := c
  cases h
  rfl

theorem mem_line_self (c : Class) : c ∈ c.line := by
  cases h : c.superclass with
  | none => rw [line_none h]; exact List.mem_cons_self
  | some above => rw [line_some h]; exact List.mem_cons_self

/-- The search for a method goes along the line. -/
theorem findMethod?_eq : ∀ (c : Class) (n : String),
    c.findMethod? n = c.line.findSome? (·.methods.get? n)
  | mk identity name none methods, n => by
      have hself : (mk identity name none methods).methods = methods := rfl
      rw [line_none rfl, List.findSome?_cons, List.findSome?_nil, hself]
      cases h : methods.get? n <;> simp only [findMethod?, h]
  | mk identity name (some above) methods, n => by
      have hself : (mk identity name (some above) methods).methods = methods := rfl
      rw [line_some rfl, List.findSome?_cons, hself, ← findMethod?_eq above n]
      cases h : methods.get? n <;> simp only [findMethod?, h]

/-- A method that a class has or inherits is its own or one of a class above it. -/
theorem mem_line_of_findMethod? {c : Class} {n : String} {k : Closure}
    (h : c.findMethod? n = some k) : ∃ d ∈ c.line, d.methods.get? n = some k := by
  rw [findMethod?_eq] at h
  exact List.exists_of_findSome?_eq_some h

end Class

/-! ## Stores that have made more -/

/-- What `s` has made is there in `s'` too. -/
structure Store.Grows (s s' : Store) : Prop where
  environments : s.environments.size ≤ s'.environments.size
  identities : s.identities ≤ s'.identities
  fields : s.fields.size ≤ s'.fields.size
  arrays : s.arrays.size ≤ s'.arrays.size

namespace Store.Grows

variable {s s' s'' : Store}

theorem refl (s : Store) : s.Grows s :=
  ⟨Nat.le_refl _, Nat.le_refl _, Nat.le_refl _, Nat.le_refl _⟩

theorem trans (h : s.Grows s') (h' : s'.Grows s'') : s.Grows s'' where
  environments := Nat.le_trans h.environments h'.environments
  identities := Nat.le_trans h.identities h'.identities
  fields := Nat.le_trans h.fields h'.fields
  arrays := Nat.le_trans h.arrays h'.arrays

end Store.Grows

/-! ## What values lead to -/

/-- The function and its environment have been made. -/
structure Closure.Grounded (s : Store) (f : Closure) : Prop where
  identity : f.identity < s.identities
  environment : f.environment < s.environments.size

/-- The class and its methods have been made, and it has the property `P`. -/
structure Class.Entered (s : Store) (P : Class → Prop) (c : Class) : Prop where
  identity : c.identity < s.identities
  methods : ∀ n k, c.methods.get? n = some k → k.Grounded s
  property : P c

/-- Of the class and those above it each has been made, after the one above it, and has the
property `P`. -/
structure Class.Grounded (s : Store) (P : Class → Prop) (c : Class) : Prop where
  older : c.line.Pairwise fun d above => above.identity < d.identity
  entered : ∀ d ∈ c.line, d.Entered s P

/-- All that the value leads to has been made, and the classes that it leads to have the
property `P`. -/
def Value.Grounded (s : Store) (P : Class → Prop) : Value → Prop
  | .callable (.function f) => f.Grounded s
  | .callable (.class c) => c.Grounded s P
  | .instance i => i.id < s.fields.size ∧ i.ofClass.Grounded s P
  | .array a => a < s.arrays.size
  | .module m => m.environment < s.environments.size
  | _ => True

/-- All that the control of a machine leads to has been made. -/
def Control.Grounded (s : Store) (P : Class → Prop) : Control → Prop
  | .evaluate _ env | .execute _ env => env < s.environments.size
  | .value v | .unwind (.returning v) => v.Grounded s P
  | _ => True

/-- All that the frame leads to has been made. -/
def Frame.Grounded (s : Store) (P : Class → Prop) : Frame → Prop
  | .binary left _ => left.Grounded s P
  | .argument function earlier _ _ env =>
    (function.Grounded s P ∧ ∀ v ∈ earlier, v.Grounded s P) ∧ env < s.environments.size
  | .arrayElement _ _ earlier _ env =>
    (∀ v ∈ earlier, v.Grounded s P) ∧ env < s.environments.size
  | .setField i _ | .constructed i => (Value.instance i).Grounded s P
  | .setMember m _ => (Value.module m).Grounded s P
  | .index a _ | .setIndex a _ _ => (Value.array a).Grounded s P
  | .setIndexAt a _ _ env => (Value.array a).Grounded s P ∧ env < s.environments.size
  | .moduleBody _ members env => members < s.environments.size ∧ env < s.environments.size
  | .functionBody f => (Value.callable (.function f)).Grounded s P
  | .binaryRight _ _ env | .logical _ _ env | .assign _ _ env | .callee _ _ env
  | .setObject _ _ env | .arraySize _ _ env | .indexObject _ _ env | .setIndexObject _ _ _ env
  | .varDecl _ env | .letDecl _ env | .branch _ _ env | .loopTest _ _ _ env
  | .loopStep _ _ _ env | .superclass _ _ _ env | .sequence _ env | .loopBody _ _ _ env =>
    env < s.environments.size
  | .unary _ | .get _ | .print | .discard | .returnWith | .activeCall _ => True

/-- What the store keeps is grounded in it, and links lead to older environments, up to the
globals. -/
structure Store.Sound (P : Class → Prop) (s : Store) : Prop where
  linked : s.Linked
  rooted : s.Rooted
  globals : State.globals < s.environments.size
  only : s.Only (Value.Grounded s P)

/-- All that the machine leads to has been made, and the classes that it leads to have the
property `P`. -/
structure Machine.Grounded (P : Class → Prop) (m : Machine) : Prop where
  control : m.control.Grounded m.state.store P
  stack : ∀ frame ∈ m.stack, frame.Grounded m.state.store P
  store : m.state.store.Sound P

theorem Class.Grounded.method {s : Store} {P : Class → Prop} {c : Class} (h : c.Grounded s P)
    {n : String} {k : Closure} (hk : c.findMethod? n = some k) : k.Grounded s := by
  obtain ⟨d, hd, hown⟩ := mem_line_of_findMethod? hk
  exact (h.entered d hd).methods n k hown

theorem Class.Grounded.above {s : Store} {P : Class → Prop} {c above : Class}
    (h : c.Grounded s P) (habove : c.superclass = some above) : above.Grounded s P := by
  have hline := Class.line_some habove
  refine ⟨?_, ?_⟩
  · exact (List.pairwise_cons.mp (hline ▸ h.older)).2
  · intro d hd
    exact h.entered d (hline ▸ List.mem_cons_of_mem c hd)

theorem Value.Scalar.grounded {s : Store} {P : Class → Prop} {v : Value} (h : v.Scalar) :
    v.Grounded s P := by
  cases v with
  | callable | «instance» | array | module => cases h
  | _ => trivial

theorem grounded_asArray {s : Store} {P : Class → Prop} {v : Value} {bracket : Token}
    {a : ArrayId} (hv : v.Grounded s P) (h : asArray v bracket = .ok a) :
    (Value.array a).Grounded s P := by
  unfold asArray at h
  split at h <;> cases h
  exact hv

/-! ### In a store that has made more, and for a weaker property -/

section
variable {s s' : Store} {P P' : Class → Prop} (hs : s.Grows s') (hP : ∀ c, P c → P' c)
include hs

theorem Closure.Grounded.mono {f : Closure} (h : f.Grounded s) : f.Grounded s' :=
  ⟨Nat.lt_of_lt_of_le h.identity hs.identities,
    Nat.lt_of_lt_of_le h.environment hs.environments⟩

include hP

theorem Class.Entered.mono {c : Class} (h : c.Entered s P) : c.Entered s' P' where
  identity := Nat.lt_of_lt_of_le h.identity hs.identities
  methods n k hk := (h.methods n k hk).mono hs
  property := hP c h.property

theorem Class.Grounded.mono {c : Class} (h : c.Grounded s P) : c.Grounded s' P' :=
  ⟨h.older, fun d hd => (h.entered d hd).mono hs hP⟩

theorem Value.Grounded.mono {v : Value} (h : v.Grounded s P) : v.Grounded s' P' := by
  cases v with
  | callable c =>
      cases c with
      | function f => exact Closure.Grounded.mono hs h
      | «class» c => exact Class.Grounded.mono hs hP h
      | native => trivial
  | «instance» i => exact ⟨Nat.lt_of_lt_of_le h.1 hs.fields, h.2.mono hs hP⟩
  | array a => exact Nat.lt_of_lt_of_le h hs.arrays
  | module m => exact Nat.lt_of_lt_of_le h hs.environments
  | _ => trivial

theorem Control.Grounded.mono {control : Control} (h : control.Grounded s P) :
    control.Grounded s' P' := by
  cases control with
  | evaluate | execute => exact Nat.lt_of_lt_of_le h hs.environments
  | value v => exact Value.Grounded.mono hs hP h
  | done => trivial
  | unwind signal =>
      cases signal with
      | returning v => exact Value.Grounded.mono hs hP h
      | _ => trivial

theorem Frame.Grounded.mono {frame : Frame} (h : frame.Grounded s P) :
    frame.Grounded s' P' := by
  have hvalue : ∀ {v : Value}, v.Grounded s P → v.Grounded s' P' := fun hv => hv.mono hs hP
  have henv : ∀ {e}, e < s.environments.size → e < s'.environments.size :=
    fun he => Nat.lt_of_lt_of_le he hs.environments
  cases frame with
  | argument => exact ⟨⟨hvalue h.1.1, fun v hv => hvalue (h.1.2 v hv)⟩, henv h.2⟩
  | arrayElement => exact ⟨fun v hv => hvalue (h.1 v hv), henv h.2⟩
  | setIndexAt => exact ⟨hvalue h.1, henv h.2⟩
  | moduleBody => exact ⟨henv h.1, henv h.2⟩
  | binary left _ => exact hvalue (v := left) h
  | setField i _ | constructed i => exact hvalue (v := .instance i) h
  | setMember m _ => exact hvalue (v := .module m) h
  | index a _ | setIndex a _ _ => exact hvalue (v := .array a) h
  | functionBody f => exact hvalue (v := .callable (.function f)) h
  | unary | get | print | discard | returnWith | activeCall => trivial
  | _ => exact henv h

end

/-! ## Operations of a store -/

namespace Store

/-- `s'` has made more than `s`, and is sound. -/
structure Onward (P : Class → Prop) (s s' : Store) : Prop where
  grows : s.Grows s'
  sound : s'.Sound P

theorem Onward.trans {P : Class → Prop} {s s' s'' : Store} (h : Onward P s s')
    (h' : Onward P s' s'') : Onward P s s'' :=
  ⟨h.grows.trans h'.grows, h'.sound⟩

/-- The environment that is made is there. -/
theorem lt_newEnvironment (s : Store) (env : Environment) :
    s.environments.size < (s.newEnvironment env).2.environments.size :=
  (size_newEnvironment s env).symm ▸ Nat.lt_succ_self _

namespace Sound

variable {P : Class → Prop} {s : Store} (h : s.Sound P)
include h

theorem refl : s.Onward P s := ⟨.refl s, h⟩

/-- What leaves the links alone and keeps grounded values only. -/
theorem onward {s' : Store} (hgrows : s.Grows s')
    (hsize : s'.environments.size = s.environments.size)
    (hlinks : ∀ e, s'.enclosing? e = s.enclosing? e) (honly : s'.Only (Value.Grounded s P)) :
    s.Onward P s' where
  grows := hgrows
  sound :=
    { linked := fun e p hp => h.linked e p (hlinks e ▸ hp)
      rooted := fun e he hnone => h.rooted e (hsize ▸ he) (hlinks e ▸ hnone)
      globals := hsize.symm ▸ h.globals
      only := honly.imp fun _ hv => hv.mono hgrows fun _ hc => hc }

theorem put {v : Value} (hv : v.Grounded s P) (e : EnvironmentId) (n : String) :
    s.Onward P (s.put e n v) := by
  have hsize : (s.put e n v).environments.size = s.environments.size := size_put ..
  refine h.onward ?_ hsize (fun f => enclosing?_put ..) (h.only.put hv e n)
  exact ⟨Nat.le_of_eq hsize.symm, Nat.le_refl _, Nat.le_refl _, Nat.le_refl _⟩

theorem protect (e : EnvironmentId) (n : String) : s.Onward P (s.protect e n) := by
  have hsize : (s.protect e n).environments.size = s.environments.size := size_protect ..
  refine h.onward ?_ hsize (fun f => enclosing?_protect ..) (h.only.protect e n)
  exact ⟨Nat.le_of_eq hsize.symm, Nat.le_refl _, Nat.le_refl _, Nat.le_refl _⟩

theorem define {v : Value} (hv : v.Grounded s P) {e : EnvironmentId} {name : Token} {s' : Store}
    (hs : s.define e name v = .ok s') : s.Onward P s' := by
  obtain ⟨-, rfl⟩ := define_eq_ok.mp hs
  exact h.put hv e name.lexeme

theorem defineReadOnly {v : Value} (hv : v.Grounded s P) {e : EnvironmentId} {name : Token}
    {s' : Store} (hs : s.defineReadOnly e name v = .ok s') : s.Onward P s' := by
  obtain ⟨-, rfl⟩ := defineReadOnly_eq_ok.mp hs
  have hput := h.put hv e name.lexeme
  exact hput.trans (hput.sound.protect e name.lexeme)

/-- An environment is made inside one that there is. -/
theorem newEnvironment {env : Environment} {p : EnvironmentId} (hin : env.enclosing = some p)
    (hp : p < s.environments.size)
    (hb : ∀ n v, env.bindings.get? n = some v → v.Grounded s P) :
    s.Onward P (s.newEnvironment env).2 := by
  have hsize := size_newEnvironment s env
  have hgrows : s.Grows (s.newEnvironment env).2 :=
    ⟨hsize.symm ▸ Nat.le_succ _, Nat.le_refl _, Nat.le_refl _, Nat.le_refl _⟩
  refine ⟨hgrows, ?_, ?_, ?_, ?_⟩
  · intro f q hq
    rw [enclosing?_newEnvironment] at hq
    split at hq
    · rename_i hf
      cases hin.symm.trans hq
      exact hf ▸ hp
    · exact h.linked f q hq
  · intro f hf hnone
    rw [enclosing?_newEnvironment] at hnone
    split at hnone
    · cases hin.symm.trans hnone
    · rename_i hne
      rw [hsize] at hf
      exact h.rooted f (Nat.lt_of_le_of_ne (Nat.le_of_lt_succ hf) hne) hnone
  · exact Nat.lt_of_lt_of_le h.globals hgrows.environments
  · exact (h.only.newEnvironment hb).imp fun _ hv => hv.mono hgrows fun _ hc => hc

theorem child {e : EnvironmentId} (he : e < s.environments.size) : s.Onward P (s.child e).2 :=
  h.newEnvironment rfl he nofun

theorem childWith {e : EnvironmentId} (he : e < s.environments.size) (n : String) {v : Value}
    (hv : v.Grounded s P) : s.Onward P (s.childWith e n v).2 := by
  refine h.newEnvironment rfl he ?_
  intro m u hu
  simp only [Table.get?] at hu
  split at hu
  · cases hu
    exact hv
  · cases hu

theorem newIdentity : s.Onward P s.newIdentity.2 :=
  h.onward ⟨Nat.le_refl _, Nat.le_succ _, Nat.le_refl _, Nat.le_refl _⟩ rfl (fun _ => rfl)
    h.only.newIdentity

omit h in
/-- A function that is made in an environment that there is. -/
theorem grounded_newClosure {e : EnvironmentId} (he : e < s.environments.size) (d : FunctionDecl)
    (isInitializer : Bool) :
    (s.newClosure d e isInitializer).1.Grounded (s.newClosure d e isInitializer).2 :=
  ⟨Nat.lt_succ_self _, he⟩

theorem bindMethod {k : Closure} (hk : k.Grounded s) {i : Instance}
    (hi : (Value.instance i).Grounded s P) :
    s.Onward P (s.bindMethod k i).2 ∧ (s.bindMethod k i).1.Grounded (s.bindMethod k i).2 := by
  have hscope := h.childWith hk.environment receiverName hi
  refine ⟨hscope.trans hscope.sound.newIdentity, ?_⟩
  exact grounded_newClosure (s.lt_newEnvironment _) k.declaration k.isInitializer

theorem newInstance {c : Class} (hc : c.Grounded s P) :
    s.Onward P (s.newInstance c).2 ∧
      (Value.instance (s.newInstance c).1).Grounded (s.newInstance c).2 P := by
  have hsize : (s.newInstance c).2.fields.size = s.fields.size + 1 := Array.size_push ..
  have hgrows : s.Grows (s.newInstance c).2 :=
    ⟨Nat.le_refl _, Nat.le_refl _, hsize.symm ▸ Nat.le_succ _, Nat.le_refl _⟩
  refine ⟨h.onward hgrows rfl (fun _ => rfl) (h.only.newInstance c), ?_, ?_⟩
  · exact hsize.symm ▸ Nat.lt_succ_self s.fields.size
  · exact hc.mono hgrows fun _ hd => hd

theorem setField {v : Value} (hv : v.Grounded s P) (i : Instance) (n : String) :
    s.Onward P (s.setField i n v) := by
  refine h.onward ⟨Nat.le_refl _, Nat.le_refl _, ?_, Nat.le_refl _⟩ rfl (fun _ => rfl)
    (h.only.setField hv i n)
  exact Nat.le_of_eq (Array.size_modify ..).symm

theorem newArray {elements : Array Value}
    (hv : ∀ (i : Nat) v, elements[i]? = some v → v.Grounded s P) :
    s.Onward P (s.newArray elements).2 ∧
      (s.newArray elements).1 < (s.newArray elements).2.arrays.size := by
  have hsize : (s.newArray elements).2.arrays.size = s.arrays.size + 1 := Array.size_push ..
  refine ⟨h.onward ⟨Nat.le_refl _, Nat.le_refl _, Nat.le_refl _, ?_⟩ rfl (fun _ => rfl)
    (h.only.newArray hv), ?_⟩
  · exact hsize.symm ▸ Nat.le_succ _
  · exact hsize.symm ▸ Nat.lt_succ_self s.arrays.size

theorem setElement? {v : Value} (hv : v.Grounded s P) {a : ArrayId} {i : Nat} {s' : Store}
    (hs : s.setElement? a i v = some s') : s.Onward P s' := by
  have honly := h.only.setElement? hv hs
  unfold Store.setElement? at hs
  split at hs
  · cases hs
    refine h.onward ⟨Nat.le_refl _, Nat.le_refl _, Nat.le_refl _, ?_⟩ rfl (fun _ => rfl) honly
    exact Nat.le_of_eq (Array.size_modify ..).symm
  · cases hs

/-- What an instance yields for a property is grounded. -/
theorem get {i : Instance} (hi : (Value.instance i).Grounded s P) {name : Token} {v : Value}
    {s' : Store} (hs : s.get i name = .ok (v, s')) : s.Onward P s' ∧ v.Grounded s' P := by
  unfold Store.get property? at hs
  cases hfield : (s.fieldsOf i).get? name.lexeme with
  | some u =>
      rw [hfield] at hs
      cases hs
      exact ⟨h.refl, h.only.fields hfield⟩
  | none =>
      rw [hfield] at hs
      cases hfind : i.ofClass.findMethod? name.lexeme with
      | none => simp [hfind] at hs
      | some k =>
          rw [hfind] at hs
          cases hs
          exact h.bindMethod (hi.2.method hfind) hi

theorem bindArguments (env : EnvironmentId) {vs : List Value}
    (hvs : ∀ v ∈ vs, v.Grounded s P) (ps : List Token) :
    s.Onward P (Machine.bindArguments s env ps vs).1 := by
  induction ps generalizing s vs with
  | nil =>
      simp only [Machine.bindArguments]
      exact h.refl
  | cons p ps ih =>
      cases vs with
      | nil =>
          simp only [Machine.bindArguments]
          exact h.refl
      | cons v vs =>
          obtain ⟨hv, hvs⟩ := List.forall_mem_cons.mp hvs
          simp only [Machine.bindArguments]
          cases hd : s.define env p v with
          | error e => exact h.refl
          | ok s' =>
              have hnext := h.define hv hd
              refine hnext.trans (ih hnext.sound ?_)
              intro u hu
              exact (hvs u hu).mono hnext.grows fun _ hc => hc

/-- The methods of a class are made in an environment that there is. -/
theorem makeMethods {env : EnvironmentId} (henv : env < s.environments.size)
    {table : Table Closure} (ht : ∀ n k, table.get? n = some k → k.Grounded s)
    (ds : List FunctionDecl) :
    s.Onward P (Machine.makeMethods s env table ds).2 ∧
      ∀ n k, (Machine.makeMethods s env table ds).1.get? n = some k →
        k.Grounded (Machine.makeMethods s env table ds).2 := by
  induction ds generalizing s table with
  | nil => exact ⟨h.refl, ht⟩
  | cons d ds ih =>
      unfold Machine.makeMethods
      split
      · rename_i name _
        have hnext : s.Onward P (s.newClosure d env d.isInitializer).2 := h.newIdentity
        have htable : ∀ n k, (table.set name.lexeme (s.newClosure d env d.isInitializer).1).get? n =
            some k → k.Grounded (s.newClosure d env d.isInitializer).2 := by
          intro n k hk
          rw [Table.get?_set] at hk
          split at hk
          · cases hk
            exact grounded_newClosure henv d d.isInitializer
          · exact (ht n k hk).mono hnext.grows
        obtain ⟨hrest, hmade⟩ := ih hnext.sound henv htable
        exact ⟨hnext.trans hrest, hmade⟩
      · exact ih h henv ht

end Sound

/-- The class that a declaration makes whose methods are made in `scope`. -/
def classOf (s : Store) (name : Token) (superclass : Option Class) (ms : List FunctionDecl)
    (scope : EnvironmentId) : Class :=
  .mk (Machine.makeMethods s scope [] ms).2.identities name superclass
    (Machine.makeMethods s scope [] ms).1

/-- The class is made after the one above it. -/
theorem Sound.classOf {P : Class → Prop} {s : Store} (h : s.Sound P) (name : Token)
    {superclass : Option Class} (habove : ∀ above, superclass = some above → above.Grounded s P)
    (ms : List FunctionDecl) {scope : EnvironmentId} (hscope : scope < s.environments.size)
    (hP : P (s.classOf name superclass ms scope)) :
    s.Onward P (Machine.makeMethods s scope [] ms).2.newIdentity.2 ∧
      (s.classOf name superclass ms scope).Grounded
        (Machine.makeMethods s scope [] ms).2.newIdentity.2 P := by
  have hempty : ∀ n k, Table.get? ([] : Table Closure) n = some k → k.Grounded s := nofun
  obtain ⟨hmethods, hmade⟩ := h.makeMethods hscope hempty ms
  have hnext := hmethods.trans hmethods.sound.newIdentity
  have hself : (s.classOf name superclass ms scope).Entered
      (Machine.makeMethods s scope [] ms).2.newIdentity.2 P :=
    { identity := Nat.lt_succ_self _
      methods := fun n k hk => (hmade n k hk).mono hmethods.sound.newIdentity.grows
      property := hP }
  refine ⟨hnext, ?_⟩
  cases superclass with
  | none =>
      refine ⟨?_, ?_⟩
      · exact List.pairwise_singleton ..
      · intro d hd
        cases List.mem_singleton.mp hd
        exact hself
  | some above =>
      have hold := habove above rfl
      have hline : (s.classOf name (some above) ms scope).line =
          s.classOf name (some above) ms scope :: above.line := Class.line_some rfl
      refine ⟨?_, ?_⟩
      · rw [hline]
        refine List.pairwise_cons.mpr ⟨?_, hold.older⟩
        intro d hd
        exact Nat.lt_of_lt_of_le (hold.entered d hd).identity hmethods.grows.identities
      · rw [hline]
        refine List.forall_mem_cons.mpr ⟨hself, ?_⟩
        intro d hd
        exact (hold.entered d hd).mono hnext.grows fun _ hc => hc

end Store

/-- At the beginning there are the globals, with the native functions. -/
theorem State.sound_initial {P : Class → Prop} (limit : Option Nat) (now : ClockReading) :
    (State.initial limit now).store.Sound P := by
  have hnone := State.enclosing?_initial limit now
  have hsize := State.size_initial limit now
  refine ⟨?_, ?_, ?_, State.only_initial limit now fun _ => trivial⟩
  · intro e p h
    rw [hnone] at h
    cases h
  · intro e he _
    omega
  · exact hsize.symm ▸ Nat.one_pos

/-- A program starts among the globals. -/
theorem Store.Sound.starting {P : Class → Prop} {s : State} (h : s.store.Sound P)
    (body : List Stmt) : (s.starting body).Grounded P :=
  ⟨trivial, List.forall_mem_singleton.mpr h.globals, h⟩

end Lox
