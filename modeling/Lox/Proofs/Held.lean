/-
# What a machine holds

A value is held by a machine if it is handed on, waits in a frame or is kept by the
store.  A value is regular in a store with `n` instances if its class, when it has one or
is one, knows its methods by their own names, and initializers as such, and if it is one
of these `n` when it is an instance itself.  Every value that a session ever holds is
regular: `Moment.regular`.  So an instance that a call makes is not held before.

That is so since whatever a session holds is grounded, and a class that is declared knows
its methods from then on: `Moment.grounded`.
-/
import Lox.Proofs.After
import Lox.Proofs.Grounded.Step

namespace Lox

/-- Every value that the control hands on has the property. -/
def Control.Holds (P : Value → Prop) : Control → Prop
  | .value v | .unwind (.returning v) => P v
  | _ => True

/-- Every value that waits in the frame has the property. -/
def Frame.Holds (P : Value → Prop) : Frame → Prop
  | .binary left _ => P left
  | .argument function earlier _ _ _ => P function ∧ ∀ v ∈ earlier, P v
  | .arrayElement _ _ earlier _ _ => ∀ v ∈ earlier, P v
  | .setField i _ | .constructed i => P (.instance i)
  | .setMember m _ => P (.module m)
  | .index a _ | .setIndexAt a _ _ _ | .setIndex a _ _ => P (.array a)
  | .functionBody f => P (.callable (.function f))
  | _ => True

/-- Every value that the machine holds has the property. -/
structure Machine.Holds (P : Value → Prop) (m : Machine) : Prop where
  control : m.control.Holds P
  stack : ∀ frame ∈ m.stack, frame.Holds P
  store : m.state.store.Only P

theorem Control.Holds.imp {P Q : Value → Prop} (hPQ : ∀ v, P v → Q v) {control : Control}
    (h : control.Holds P) : control.Holds Q := by
  unfold Holds at *
  split at h
  · exact hPQ _ h
  · exact hPQ _ h
  · trivial

theorem Frame.Holds.imp {P Q : Value → Prop} (hPQ : ∀ v, P v → Q v) {frame : Frame}
    (h : frame.Holds P) : frame.Holds Q := by
  cases frame with
  | argument => exact ⟨hPQ _ h.1, fun v hv => hPQ v (h.2 v hv)⟩
  | arrayElement => exact fun v hv => hPQ v (h v hv)
  | binary | setField | constructed | setMember | index | setIndexAt | setIndex
  | functionBody => exact hPQ _ h
  | _ => trivial

theorem Machine.Holds.imp {P Q : Value → Prop} (hPQ : ∀ v, P v → Q v) {m : Machine}
    (h : m.Holds P) : m.Holds Q :=
  ⟨h.control.imp hPQ, fun frame hframe => (h.stack frame hframe).imp hPQ, h.store.imp hPQ⟩

section
variable {s : Store} {P : Class → Prop}

theorem Control.Grounded.holds {control : Control} (h : control.Grounded s P) :
    control.Holds (Value.Grounded s P) := by
  unfold Holds
  split
  · exact h
  · exact h
  · trivial

theorem Frame.Grounded.holds {frame : Frame} (h : frame.Grounded s P) :
    frame.Holds (Value.Grounded s P) := by
  cases frame with
  | argument | arrayElement | setIndexAt => exact h.1
  | binary | setField | constructed | setMember | index | setIndex | functionBody => exact h
  | _ => trivial

end

/-- A machine that is grounded holds what is grounded. -/
theorem Machine.Grounded.holds {P : Class → Prop} {m : Machine} (h : m.Grounded P) :
    m.Holds (Value.Grounded m.state.store P) :=
  ⟨h.control.holds, fun frame hframe => (h.stack frame hframe).holds, h.store.only⟩

/-! ## Instances -/

namespace Machine

theorem fields_bindArguments (s : Store) (env : EnvironmentId) (ps : List Token)
    (vs : List Value) : (bindArguments s env ps vs).1.fields = s.fields := by
  induction ps generalizing s vs with
  | nil => simp only [bindArguments]
  | cons p ps ih =>
      cases vs with
      | nil => simp only [bindArguments]
      | cons v vs =>
          simp only [bindArguments]
          cases hd : s.define env p v with
          | error e => rfl
          | ok s' =>
              obtain ⟨-, rfl⟩ := Store.define_eq_ok.mp hd
              exact ih _ vs

theorem fields_enter (f : Closure) (arguments : List Value) (stack : List Frame) (s : State) :
    (enter f arguments stack s).state.store.fields = s.store.fields := by
  have hbound := fields_bindArguments (s.store.child f.environment).2
    (s.store.child f.environment).1 f.declaration.params arguments
  unfold enter
  dsimp only
  split
  · rename_i hb
    exact (congrArg (fun b => b.1.fields) hb).symm.trans hbound
  · rename_i hb
    exact (congrArg (fun b => b.1.fields) hb).symm.trans hbound

end Machine

/-! ## Regular values -/

/-- The class knows its methods by their own names, and initializers as such. -/
def Class.Regular (c : Class) : Prop :=
  ∀ n k, c.findMethod? n = some k →
    k.declaration.lexeme? = some n ∧ k.isInitializer = k.declaration.isInitializer

/-- The value is no instance but one of the first `n`, and its class is regular. -/
def Value.Regular (n : Nat) : Value → Prop
  | .callable (.class c) => c.Regular
  | .instance i => i.id < n ∧ i.ofClass.Regular
  | _ => True

/-- There are `n` instances, and the store keeps regular values only. -/
structure Store.Regular (n : Nat) (s : Store) : Prop where
  size : s.fields.size = n
  only : s.Only (Value.Regular n)

/-- There are `n` instances, and the machine holds regular values only. -/
structure Machine.Regular (n : Nat) (m : Machine) : Prop where
  control : m.control.Holds (Value.Regular n)
  stack : ∀ frame ∈ m.stack, frame.Holds (Value.Regular n)
  store : m.state.store.Regular n

/-- The class knows its own methods by their names, and initializers as such. -/
def Class.Knows (c : Class) : Prop :=
  ∀ n k, c.methods.get? n = some k →
    k.declaration.lexeme? = some n ∧ k.isInitializer = k.declaration.isInitializer

/-- Whatever class a move makes knows its own methods. -/
theorem Machine.knows_of_mem_declared {m : Machine} {x : ClassEntry} (hx : x ∈ m.declared) :
    x.made.Knows := by
  obtain ⟨name, superclass, ms, env, scope, store, stack, -, rfl⟩ :=
    finishClass_of_mem_declared hx
  intro n k hown
  obtain ⟨-, hname, -, hinit⟩ := (get?_makeMethods hown).resolve_left nofun
  exact ⟨hname, hinit⟩

/-- What a class inherits it has from a class above it, which knows it. -/
theorem Class.Grounded.regular {s : Store} {c : Class} (h : c.Grounded s Knows) : c.Regular := by
  intro n k hk
  obtain ⟨d, hd, hown⟩ := mem_line_of_findMethod? hk
  exact (h.entered d hd).property n k hown

theorem Value.Grounded.regular {s : Store} {v : Value} (h : v.Grounded s Class.Knows) :
    v.Regular s.fields.size := by
  cases v with
  | callable c =>
      cases c with
      | «class» c => exact Class.Grounded.regular h
      | _ => trivial
  | «instance» i => exact ⟨h.1, h.2.regular⟩
  | _ => trivial

namespace Machine

/-- No value that the machine holds is an instance that is still to be made. -/
theorem Regular.holds {n : Nat} {m : Machine} (h : m.Regular n) :
    m.Holds fun v => ∀ i, v = .instance i → i.id < n := by
  have hall : m.Holds (Value.Regular n) := ⟨h.control, h.stack, h.store.only⟩
  refine hall.imp fun v hv i hi => ?_
  subst hi
  exact hv.1

end Machine

namespace Session

variable {limit : Option Nat} {now : ClockReading} {texts texts' : List (List Stmt)} {t t' : Trail}
  {m m' : Machine}

/-- Whatever a session holds is grounded, with any property that classes have when they are
made. -/
theorem Moment.grounded {P : Class → Prop}
    (hP : ∀ (m : Machine) (x : ClassEntry), x ∈ m.declared → P x.made)
    (h : Moment limit now texts t m) : m.Grounded P := by
  induction h with
  | first => exact ⟨trivial, List.forall_mem_nil _, State.sound_initial limit now⟩
  | @move texts t m _ ih => exact (ih.step (hP m)).grounded
  | aside output events clock _ ih => exact ⟨ih.control, ih.stack, ih.store⟩
  | next _ _ _ hstart ih =>
      have hstore := store_start hstart ▸ ih.store
      obtain ⟨body, events, -, -, rfl⟩ := start_eq_ok hstart
      exact Store.Sound.starting (s := events.foldl State.note (conclude _).2) hstore _

/-- Whatever a session holds is regular. -/
theorem Moment.regular (h : Moment limit now texts t m) :
    m.Regular m.state.store.fields.size := by
  have hknows := h.grounded fun _ _ hx => Machine.knows_of_mem_declared hx
  obtain ⟨hcontrol, hstack, honly⟩ := hknows.holds.imp fun _ hv => hv.regular
  exact ⟨hcontrol, hstack, rfl, honly⟩

/-- There are never fewer instances than before. -/
theorem After.instances (ha : After texts t m texts' t' m') (h : Moment limit now texts t m) :
    m.state.store.fields.size ≤ m'.state.store.fields.size := by
  induction ha with
  | refl => exact Nat.le_refl _
  | move ha ih =>
      have hgrounded := (h.after ha).grounded (P := fun _ => True) fun _ _ _ => trivial
      exact Nat.le_trans ih (hgrounded.step fun _ _ => trivial).grows.fields
  | aside _ _ _ _ ih => exact ih
  | next _ _ _ hstart ih => exact store_start hstart ▸ ih

end Session

end Lox
