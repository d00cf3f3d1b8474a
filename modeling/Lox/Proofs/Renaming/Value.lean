/-
# Values of a program with a renamed scope

The same functions, classes, instances and arrays, but that the declarations of
functions may have names renamed.  What a function's declaration may differ in depends
on how far the function's environment is from one of a renamed scope: `Bearings` are
what is known of this.  A method has the scope of `this` around it, which is not there
before the method is bound.

Such values are equal to others, shown and operated on alike.
-/
import Lox.Proofs.Renaming
import Lox.Proofs.Like.Value

namespace Lox

/-- What is known of how far out from an environment that of a renamed scope is, or that
there is none. -/
abbrev Bearings := EnvironmentId → Option Nat → Prop

/-! ## Values -/

section
variable (ρ : Renaming) (B : Bearings)

/-- The same function.  What stands between its environment and its declaration is
`inner` for a method and `id` otherwise. -/
structure RenamedClosure (between : Option Nat → Option Nat) (f f' : Closure) : Prop where
  identity : f'.identity = f.identity
  environment : f'.environment = f.environment
  isInitializer : f'.isInitializer = f.isInitializer
  declaration : ∃ k, B f.environment k ∧
    RenamedDecl ρ (between k) f.declaration f'.declaration

inductive RenamedClass : Class → Class → Prop
  | base {i x ms ms'} : LikeTable (RenamedClosure ρ B inner) ms ms' →
      RenamedClass (.mk i x none ms) (.mk i x none ms')
  | derived {i x c c' ms ms'} : RenamedClass c c' →
      LikeTable (RenamedClosure ρ B inner) ms ms' →
      RenamedClass (.mk i x (some c) ms) (.mk i x (some c') ms')

inductive RenamedCallable : Callable → Callable → Prop
  | function {f f'} : RenamedClosure ρ B id f f' → RenamedCallable (.function f) (.function f')
  | class {c c'} : RenamedClass ρ B c c' → RenamedCallable (.class c) (.class c')
  | native (n : Native) : RenamedCallable (.native n) (.native n)

structure RenamedInstance (i i' : Instance) : Prop where
  id : i'.id = i.id
  ofClass : RenamedClass ρ B i.ofClass i'.ofClass

/-- The members of a module are no renamed scope. -/
inductive RenamedValue : Value → Value → Prop
  | nil : RenamedValue .nil .nil
  | boolean (b : Bool) : RenamedValue (.boolean b) (.boolean b)
  | number (x : Float) : RenamedValue (.number x) (.number x)
  | string (t : String) : RenamedValue (.string t) (.string t)
  | callable {c c'} : RenamedCallable ρ B c c' → RenamedValue (.callable c) (.callable c')
  | instance {i i'} : RenamedInstance ρ B i i' → RenamedValue (.instance i) (.instance i')
  | array (a : ArrayId) : RenamedValue (.array a) (.array a)
  | module {m k} : B m.environment k → k ≠ some 0 → RenamedValue (.module m) (.module m)

/-- The same error, or one of the name that is renamed. -/
inductive RenamedError : RuntimeError → RuntimeError → Prop
  | same (e : RuntimeError) : RenamedError e e
  | renamed (x : Token) (f : Fault) :
      RenamedError (.blaming x f) (.blaming (ρ.token x) (ρ.fault f))

/-- Two results that belong together, or failures that do. -/
inductive RenamedResult {α β : Type} (P : α → β → Prop) :
    Except RuntimeError α → Except RuntimeError β → Prop
  | ok {a b} : P a b → RenamedResult P (.ok a) (.ok b)
  | error {e e'} : RenamedError ρ e e' → RenamedResult P (.error e) (.error e')

end

section
variable {ρ : Renaming} {B B' : Bearings} (hB : ∀ e k, B e k → B' e k)
include hB

theorem RenamedClosure.mono {between : Option Nat → Option Nat} {f f' : Closure}
    (h : RenamedClosure ρ B between f f') : RenamedClosure ρ B' between f f' := by
  obtain ⟨k, hk, hd⟩ := h.declaration
  exact ⟨h.identity, h.environment, h.isInitializer, k, hB _ _ hk, hd⟩

theorem RenamedClass.mono {c c' : Class} (h : RenamedClass ρ B c c') :
    RenamedClass ρ B' c c' := by
  induction h with
  | base hms => exact .base (hms.mono fun _ _ hf => hf.mono hB)
  | derived _ hms ih => exact .derived ih (hms.mono fun _ _ hf => hf.mono hB)

theorem RenamedInstance.mono {i i' : Instance} (h : RenamedInstance ρ B i i') :
    RenamedInstance ρ B' i i' :=
  ⟨h.id, h.ofClass.mono hB⟩

theorem RenamedValue.mono {v v' : Value} (h : RenamedValue ρ B v v') :
    RenamedValue ρ B' v v' := by
  cases h with
  | callable hc =>
      refine .callable ?_
      cases hc with
      | function hf => exact .function (hf.mono hB)
      | «class» hc => exact .class (hc.mono hB)
      | native n => exact .native n
  | «instance» hi => exact .instance (hi.mono hB)
  | module hm hk => exact .module (hB _ _ hm) hk
  | nil => exact .nil
  | boolean b => exact .boolean b
  | number x => exact .number x
  | string t => exact .string t
  | array a => exact .array a

theorem renamed_values_mono {vs vs' : List Value} (h : List.Forall₂ (RenamedValue ρ B) vs vs') :
    List.Forall₂ (RenamedValue ρ B') vs vs' :=
  h.imp fun _ _ hv => hv.mono hB

end

/-! ## Errors -/

section
variable {ρ : Renaming}

/-- The token that is blamed stands for itself. -/
theorem RenamedError.blaming {here : Prop} {x x' : Token} (h : ρ.Names here x x') {f : Fault}
    (hf : ρ.fault f = f) : RenamedError ρ (.blaming x f) (.blaming x' f) := by
  by_cases hh : here
  · obtain ⟨rfl, -⟩ := h.renamed hh
    have := RenamedError.renamed (ρ := ρ) x f
    rwa [hf] at this
  · rw [h.kept hh]
    exact .same _

/-- The fault speaks of the token that is blamed. -/
theorem RenamedError.naming {here : Prop} {x x' : Token} (h : ρ.Names here x x')
    {f : String → Fault} (hf : ∀ n, ρ.fault (f n) = f (ρ.word n)) :
    RenamedError ρ (.blaming x (f x.lexeme)) (.blaming x' (f x'.lexeme)) := by
  by_cases hh : here
  · obtain ⟨rfl, -⟩ := h.renamed hh
    have := RenamedError.renamed (ρ := ρ) x (f x.lexeme)
    rwa [hf] at this
  · rw [h.kept hh]
    exact .same _

theorem RenamedError.orAt {e e' : RuntimeError} (h : RenamedError ρ e e') (x : Token) :
    RenamedError ρ (e.orAt x) (e'.orAt x) := by
  cases h with
  | same e => exact .same _
  | renamed y f => exact .renamed y f

end

/-! ## What such values have in common -/

section
variable {ρ : Renaming} {B : Bearings}

theorem RenamedClosure.arity {between : Option Nat → Option Nat} {f f' : Closure}
    (h : RenamedClosure ρ B between f f') : f'.declaration.arity = f.declaration.arity := by
  obtain ⟨k, -, hd⟩ := h.declaration
  exact hd.arity

theorem RenamedClass.identity {c c' : Class} (h : RenamedClass ρ B c c') :
    c'.identity = c.identity := by
  cases h <;> rfl

theorem RenamedClass.name {c c' : Class} (h : RenamedClass ρ B c c') : c'.name = c.name := by
  cases h <;> rfl

theorem RenamedClass.findMethod? {c c' : Class} (h : RenamedClass ρ B c c') (n : String) :
    Option.Rel (RenamedClosure ρ B inner) (c.findMethod? n) (c'.findMethod? n) := by
  induction h with
  | base hms =>
      have hm := hms.get? n
      simp only [Class.findMethod?]
      revert hm
      generalize Table.get? _ n = o, Table.get? _ n = o'
      rintro (hm | _)
      · exact .some hm
      · exact .none
  | derived _ hms ih =>
      have hm := hms.get? n
      simp only [Class.findMethod?]
      revert hm
      generalize Table.get? _ n = o, Table.get? _ n = o'
      rintro (hm | _)
      · exact .some hm
      · exact ih

theorem RenamedCallable.arity {c c' : Callable} (h : RenamedCallable ρ B c c') :
    c'.arity = c.arity := by
  cases h with
  | function hf => exact hf.arity
  | «class» hc =>
      have hm := hc.findMethod? FunctionDecl.initializerName
      simp only [Callable.arity]
      revert hm
      generalize Class.findMethod? _ _ = o, Class.findMethod? _ _ = o'
      rintro (hm | _)
      · exact hm.arity
      · rfl
  | native n => rfl

theorem RenamedValue.isTruthy {v v' : Value} (h : RenamedValue ρ B v v') :
    v'.isTruthy = v.isTruthy := by
  cases h <;> rfl

theorem RenamedValue.equals {u u' v v' : Value} (hu : RenamedValue ρ B u u')
    (hv : RenamedValue ρ B v v') : u'.equals v' = u.equals v := by
  cases hu <;> cases hv <;> try rfl
  case callable.callable hc _ _ hd =>
      cases hc <;> cases hd <;> try rfl
      case function.function hf _ _ hg =>
          simp only [Value.equals, Callable.same, hf.identity, hg.identity]
      case class.class hc _ _ hd =>
          simp only [Value.equals, Callable.same, hc.identity, hd.identity]
  case instance.instance hi _ _ hj => simp only [Value.equals, hi.id, hj.id]

/-- A function is shown by its own name, which is kept. -/
theorem RenamedCallable.pieces {c c' : Callable} (h : RenamedCallable ρ B c c') :
    c'.pieces = c.pieces := by
  cases h with
  | function hf =>
      obtain ⟨k, -, hd⟩ := hf.declaration
      simp only [Callable.pieces, Closure.pieces, FunctionDecl.lexeme?, hd.name]
  | «class» hc => simp only [Callable.pieces, Class.pieces, hc.name]
  | native n => rfl

/-! ## Operators -/

variable {u u' v v' : Value}

theorem renamed_applyUnary (op : Token) (hv : RenamedValue ρ B v v') :
    RenamedResult ρ (RenamedValue ρ B) (applyUnary op v) (applyUnary op v') := by
  unfold applyUnary
  rw [hv.isTruthy]
  split
  · exact .ok (.boolean _)
  · cases hv with
    | number x => exact .ok (.number _)
    | _ => exact .error (.same _)
  · exact .error (.same _)

theorem renamed_applyNumeric (op : Token) (x y : Float) :
    RenamedResult ρ (RenamedValue ρ B) (applyNumeric op x y) (applyNumeric op x y) := by
  unfold applyNumeric
  cases op.kind with
  | minus | star | slash => exact .ok (.number _)
  | greater | greaterEqual | less | lessEqual => exact .ok (.boolean _)
  | _ => exact .error (.same _)

theorem renamed_applyBinary (op : Token) (hu : RenamedValue ρ B u u')
    (hv : RenamedValue ρ B v v') :
    RenamedResult ρ (RenamedValue ρ B) (applyBinary op u v) (applyBinary op u' v') := by
  unfold applyBinary
  rw [hu.equals hv]
  split
  · exact .ok (.boolean _)
  · exact .ok (.boolean _)
  · cases hu <;> cases hv <;> try exact .error (.same _)
    case number.number => exact .ok (.number _)
    case string.string => exact .ok (.string _)
  · cases hu <;> cases hv <;> try exact .error (.same _)
    exact renamed_applyNumeric op _ _

theorem renamed_decidedBy (op : Token) (hv : RenamedValue ρ B v v') :
    decidedBy op v' = decidedBy op v := by
  unfold decidedBy
  rw [hv.isTruthy]

/-! ## Sizes and indexes -/

/-- A number is itself. -/
theorem renamed_wholeNumber (hv : RenamedValue ρ B v v') (what : String) (bracket : Token) :
    wholeNumber what v' bracket = wholeNumber what v bracket := by
  cases hv <;> rfl

theorem renamed_arraySize (hv : RenamedValue ρ B v v') (bracket : Token) :
    arraySize v' bracket = arraySize v bracket := by
  unfold arraySize
  rw [renamed_wholeNumber hv]

theorem renamed_asIndex (hv : RenamedValue ρ B v v') (length : Nat) (bracket : Token) :
    asIndex v' length bracket = asIndex v length bracket := by
  unfold asIndex
  rw [renamed_wholeNumber hv]

theorem renamed_asArray (hv : RenamedValue ρ B v v') (bracket : Token) :
    asArray v' bracket = asArray v bracket := by
  cases hv <;> rfl

theorem renamed_arrayElements (size : Option Nat) {vs vs' : List Value}
    (hvs : List.Forall₂ (RenamedValue ρ B) vs vs') (bracket : Token) :
    RenamedResult ρ (fun a a' => List.Forall₂ (RenamedValue ρ B) a.toList a'.toList)
      (arrayElements size vs bracket) (arrayElements size vs' bracket) := by
  cases size with
  | none => exact .ok hvs
  | some n =>
      unfold arrayElements
      dsimp only
      rw [← hvs.length_eq]
      split
      · exact .error (.same _)
      · refine .ok ?_
        simp only [Array.toList_append, Array.toList_replicate]
        refine List.rel_append hvs ?_
        rw [List.forall₂_same]
        intro v hv
        rw [List.eq_of_mem_replicate hv]
        exact .nil

end

end Lox
