/-
# Values of a program with steps moved

The same functions, classes, instances and arrays, but that the declarations of functions
may have steps moved.  A run of the second program makes more environments, so those of the
two runs have different numbers: `Twins` are what is known of which environment stands for
which, together with the scopes that are around them.  A method has the scope of `this`
around it, which is not there before the method is bound.

Such values are equal to others, shown and operated on alike, and what fails fails with the
same error.
-/
import Lox.Proofs.Moving
import Lox.Proofs.Like.Value
import Lox.Proofs.Operand

namespace Lox

/-- What is known of which environment of the second run stands for which of the first, and
of the scopes around them. -/
abbrev Twins := EnvironmentId → EnvironmentId → List Layer → Prop

/-- What is known more. -/
abbrev Twins.Le (T T' : Twins) : Prop := ∀ e e' Δ, T e e' Δ → T' e e' Δ

/-! ## Values -/

section
variable (T : Twins)

/-- The same function.  What stands between its environment and its declaration is the
scope of `this` for a method and nothing otherwise.  The environment of an initializer,
which is asked for its instance, is of a scope of both programs. -/
structure MovedClosure (between : List Layer → List Layer) (f f' : Closure) : Prop where
  identity : f'.identity = f.identity
  isInitializer : f'.isInitializer = f.isInitializer
  declaration : ∃ Δ, T f.environment f'.environment Δ ∧
    MovedDecl (between Δ) f.declaration f'.declaration ∧ (f.isInitializer = true → Leads Δ 0 0)

/-- The same method, which is not bound yet. -/
abbrev MovedMethod := MovedClosure T (.own :: ·)

inductive MovedClass : Class → Class → Prop
  | base {i x ms ms'} : LikeTable (MovedMethod T) ms ms' →
      MovedClass (.mk i x none ms) (.mk i x none ms')
  | derived {i x c c' ms ms'} : MovedClass c c' → LikeTable (MovedMethod T) ms ms' →
      MovedClass (.mk i x (some c) ms) (.mk i x (some c') ms')

inductive MovedCallable : Callable → Callable → Prop
  | function {f f'} : MovedClosure T id f f' → MovedCallable (.function f) (.function f')
  | class {c c'} : MovedClass T c c' → MovedCallable (.class c) (.class c')
  | native (n : Native) : MovedCallable (.native n) (.native n)

structure MovedInstance (i i' : Instance) : Prop where
  id : i'.id = i.id
  ofClass : MovedClass T i.ofClass i'.ofClass

/-- The same module, its members in a scope of both programs. -/
structure MovedModule (m m' : Module) : Prop where
  name : m'.name = m.name
  environment : ∃ Δ, T m.environment m'.environment (.own :: Δ)

inductive MovedValue : Value → Value → Prop
  | nil : MovedValue .nil .nil
  | boolean (b : Bool) : MovedValue (.boolean b) (.boolean b)
  | number (x : Float) : MovedValue (.number x) (.number x)
  | string (t : String) : MovedValue (.string t) (.string t)
  | callable {c c'} : MovedCallable T c c' → MovedValue (.callable c) (.callable c')
  | instance {i i'} : MovedInstance T i i' → MovedValue (.instance i) (.instance i')
  | array (a : ArrayId) : MovedValue (.array a) (.array a)
  | module {m m'} : MovedModule T m m' → MovedValue (.module m) (.module m')

end

/-- Two results that belong together, or the same failure. -/
inductive SameResult {α : Type} (P : α → α → Prop) :
    Except RuntimeError α → Except RuntimeError α → Prop
  | ok {a a'} : P a a' → SameResult P (.ok a) (.ok a')
  | error (e : RuntimeError) : SameResult P (.error e) (.error e)

theorem SameResult.of_eq {α : Type} {P : α → α → Prop} {r r' : Except RuntimeError α}
    (h : r' = r) (hP : ∀ a, r = .ok a → P a a) : SameResult P r r' := by
  subst h
  cases r' with
  | ok a => exact .ok (hP a rfl)
  | error e => exact .error e

section
variable {T T' : Twins} (hT : T.Le T')
include hT

theorem MovedClosure.mono {between : List Layer → List Layer} {f f' : Closure}
    (h : MovedClosure T between f f') : MovedClosure T' between f f' := by
  obtain ⟨Δ, hΔ, hd, hscope⟩ := h.declaration
  exact ⟨h.identity, h.isInitializer, Δ, hT _ _ _ hΔ, hd, hscope⟩

theorem MovedClass.mono {c c' : Class} (h : MovedClass T c c') : MovedClass T' c c' := by
  induction h with
  | base hms => exact .base (hms.mono fun _ _ hf => hf.mono hT)
  | derived _ hms ih => exact .derived ih (hms.mono fun _ _ hf => hf.mono hT)

theorem MovedInstance.mono {i i' : Instance} (h : MovedInstance T i i') :
    MovedInstance T' i i' :=
  ⟨h.id, h.ofClass.mono hT⟩

theorem MovedModule.mono {m m' : Module} (h : MovedModule T m m') : MovedModule T' m m' := by
  obtain ⟨Δ, hΔ⟩ := h.environment
  exact ⟨h.name, Δ, hT _ _ _ hΔ⟩

theorem MovedValue.mono {v v' : Value} (h : MovedValue T v v') : MovedValue T' v v' := by
  cases h with
  | callable hc =>
      refine .callable ?_
      cases hc with
      | function hf => exact .function (hf.mono hT)
      | «class» hc => exact .class (hc.mono hT)
      | native n => exact .native n
  | «instance» hi => exact .instance (hi.mono hT)
  | module hm => exact .module (hm.mono hT)
  | nil => exact .nil
  | boolean b => exact .boolean b
  | number x => exact .number x
  | string t => exact .string t
  | array a => exact .array a

theorem moved_values_mono {vs vs' : List Value} (h : List.Forall₂ (MovedValue T) vs vs') :
    List.Forall₂ (MovedValue T') vs vs' :=
  h.imp fun _ _ hv => hv.mono hT

end

/-! ## What such values have in common -/

section
variable {T : Twins}

theorem MovedClosure.arity {between : List Layer → List Layer} {f f' : Closure}
    (h : MovedClosure T between f f') : f'.declaration.arity = f.declaration.arity := by
  obtain ⟨Δ, -, hd, -⟩ := h.declaration
  exact congrArg List.length hd.params

theorem MovedClass.name {c c' : Class} (h : MovedClass T c c') : c'.name = c.name := by
  cases h <;> rfl

theorem MovedClass.identity {c c' : Class} (h : MovedClass T c c') :
    c'.identity = c.identity := by
  cases h <;> rfl

theorem MovedClass.findMethod? {c c' : Class} (h : MovedClass T c c') (n : String) :
    Option.Rel (MovedMethod T) (c.findMethod? n) (c'.findMethod? n) := by
  induction h with
  | base hms =>
      have hm := hms.get? n
      simp only [Class.findMethod?]
      revert hm
      generalize Table.get? _ n = o, Table.get? _ n = o'
      rintro (hm | _)
      · exact .some hm
      · exact .none
  | derived _ hms ih =>
      have hm := hms.get? n
      simp only [Class.findMethod?]
      revert hm
      generalize Table.get? _ n = o, Table.get? _ n = o'
      rintro (hm | _)
      · exact .some hm
      · exact ih

theorem MovedCallable.arity {c c' : Callable} (h : MovedCallable T c c') :
    c'.arity = c.arity := by
  cases h with
  | function hf => exact hf.arity
  | «class» hc =>
      have hm := hc.findMethod? FunctionDecl.initializerName
      simp only [Callable.arity]
      revert hm
      generalize Class.findMethod? _ _ = o, Class.findMethod? _ _ = o'
      rintro (hm | _)
      · exact hm.arity
      · rfl
  | native n => rfl

theorem MovedCallable.pieces {c c' : Callable} (h : MovedCallable T c c') :
    c'.pieces = c.pieces := by
  cases h with
  | function hf =>
      obtain ⟨Δ, -, hd, -⟩ := hf.declaration
      simp only [Callable.pieces, Closure.pieces, FunctionDecl.lexeme?, hd.name]
  | «class» hc => simp only [Callable.pieces, Class.pieces, hc.name]
  | native n => rfl

theorem MovedValue.akin {v v' : Value} (h : MovedValue T v v') : v.Akin v' := by
  cases h <;> constructor

theorem MovedValue.of_scalar {v : Value} (h : v.Scalar) : MovedValue T v v := by
  cases v with
  | nil => exact .nil
  | boolean b => exact .boolean b
  | number x => exact .number x
  | string t => exact .string t
  | _ => cases h

/-! ## Operators -/

theorem moved_applyUnary (op : Token) {v v' : Value} (hv : MovedValue T v v') :
    SameResult (MovedValue T) (applyUnary op v) (applyUnary op v') :=
  .of_eq (hv.akin.applyUnary op) fun _ h => .of_scalar (scalar_applyUnary h)

theorem moved_applyBinary (op : Token) {u u' v v' : Value} (hu : MovedValue T u u')
    (hv : MovedValue T v v') (hequals : u'.equals v' = u.equals v) :
    SameResult (MovedValue T) (applyBinary op u v) (applyBinary op u' v') :=
  .of_eq (hv.akin.applyBinary op hu.akin hequals) fun _ h => .of_scalar (scalar_applyBinary h)

theorem moved_arrayElements (size : Option Nat) {vs vs' : List Value}
    (hvs : List.Forall₂ (MovedValue T) vs vs') (bracket : Token) :
    SameResult (fun a a' => List.Forall₂ (MovedValue T) a.toList a'.toList)
      (arrayElements size vs bracket) (arrayElements size vs' bracket) := by
  cases size with
  | none => exact .ok hvs
  | some n =>
      unfold arrayElements
      dsimp only
      rw [← hvs.length_eq]
      split
      · exact .error _
      · refine .ok ?_
        simp only [Array.toList_append, Array.toList_replicate]
        refine List.rel_append hvs ?_
        rw [List.forall₂_same]
        intro v hv
        rw [List.eq_of_mem_replicate hv]
        exact .nil

end

end Lox
