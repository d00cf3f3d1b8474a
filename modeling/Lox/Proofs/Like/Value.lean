/-
# Values that are alike

What a program makes of alike programs is alike: functions with alike
declarations, classes with alike methods, the same scalars and the same numbers
of instances, arrays and environments.

A depth that only one of two programs has leads to the globals, if the function
is as far from them as its likeness says.  `Distances` are what is known of how
far environments are from the globals, and `Within` is what a piece of program
needs of them.  A method has the scope of `this` around it, which is not there
before the method is bound.

Alike values are equal to others, shown and operated on alike.
-/
import Lox.Proofs.Like
import Lox.Operator

namespace Lox

/-- A likeness of programs that may run: alike tokens are read alike, and where
depths differ one leads to the globals and the other is missing. -/
structure Likeness.OfRuns (R : Likeness) : Prop where
  lexeme : ∀ {t t'}, R.token t t' → t'.lexeme = t.lexeme
  kind : ∀ {t t'}, R.token t t' → t'.kind = t.kind
  implicit : ∀ {t t'} (n : String), R.token t t' → R.token (.implicitAt n t) (.implicitAt n t')
  name : ∀ {n n'}, R.name n n' → R.token n n'
  depth : ∀ {m d d'}, R.depth m d d' → d' = d ∨ d = none ∧ ∃ k, m = some k ∧ d' = some k

/-- What is known of how far environments are from the globals. -/
abbrev Distances := EnvironmentId → Nat → Prop

/-- The environment is as far from the globals as it has to be. -/
def Within (W : Distances) (m : Option Nat) (e : EnvironmentId) : Prop := ∀ k, m = some k → W e k

/-! ## Lists and tables -/

section
variable {α β : Type}

theorem like_getElem? {P : α → α → Prop} {l l' : List α} (h : List.Forall₂ P l l') (i : Nat) :
    Option.Rel P l[i]? l'[i]? := by
  induction h generalizing i with
  | nil => exact .none
  | cons hab _ ih =>
      cases i with
      | zero => exact .some hab
      | succ i => exact ih i

theorem like_modify {P : α → α → Prop} {f f' : α → α} (hf : ∀ a a', P a a' → P (f a) (f' a'))
    {l l' : List α} (h : List.Forall₂ P l l') (i : Nat) :
    List.Forall₂ P (l.modify i f) (l'.modify i f') := by
  induction h generalizing i with
  | nil =>
      cases i <;> exact .nil
  | cons hab hl ih =>
      cases i with
      | zero => exact .cons (hf _ _ hab) hl
      | succ i => exact .cons hab (ih i)

theorem like_concat {P : α → α → Prop} {l l' : List α} (h : List.Forall₂ P l l') {a a' : α}
    (ha : P a a') : List.Forall₂ P (l ++ [a]) (l' ++ [a']) :=
  List.rel_append h (.cons ha .nil)

theorem like_map {P : α → α → Prop} {f f' : α → β} (hf : ∀ a a', P a a' → f' a' = f a)
    {l l' : List α} (h : List.Forall₂ P l l') : l'.map f' = l.map f := by
  induction h with
  | nil => rfl
  | cons hab _ ih => rw [List.map_cons, List.map_cons, hf _ _ hab, ih]

theorem like_isSome {P : α → α → Prop} {o o' : Option α} (h : Option.Rel P o o') :
    o'.isSome = o.isSome := by
  cases h <;> rfl

/-- Tables with the same names, which stand for alike things. -/
def LikeTable (P : α → α → Prop) : Table α → Table α → Prop :=
  List.Forall₂ fun x x' => x'.1 = x.1 ∧ P x.2 x'.2

variable {P : α → α → Prop} {t t' : Table α}

theorem LikeTable.get? (h : LikeTable P t t') (n : String) :
    Option.Rel P (t.get? n) (t'.get? n) := by
  induction h with
  | nil => exact .none
  | @cons x x' _ _ hx _ ih =>
      obtain ⟨k, a⟩ := x
      obtain ⟨k', a'⟩ := x'
      obtain ⟨rfl, ha⟩ := hx
      simp only [Table.get?]
      split
      · exact .some ha
      · exact ih

theorem LikeTable.set (h : LikeTable P t t') (n : String) {a a' : α} (ha : P a a') :
    LikeTable P (t.set n a) (t'.set n a') := by
  induction h with
  | nil => exact .cons ⟨rfl, ha⟩ .nil
  | @cons x x' _ _ hx hl ih =>
      obtain ⟨k, b⟩ := x
      obtain ⟨k', b'⟩ := x'
      obtain ⟨rfl, hb⟩ := hx
      simp only [Table.set]
      split
      · exact .cons ⟨rfl, ha⟩ hl
      · exact .cons ⟨rfl, hb⟩ ih

theorem LikeTable.mono {Q : α → α → Prop} (h : LikeTable P t t')
    (hPQ : ∀ a a', P a a' → Q a a') : LikeTable Q t t' :=
  List.Forall₂.imp (fun _ _ hx => ⟨hx.1, hPQ _ _ hx.2⟩) h

end

/-! ## Values -/

section
variable (R : Likeness) (W : Distances)

/-- The same function of alike declarations.  What stands between its
environment and its declaration is `inner` for a method and `id` otherwise. -/
structure LikeClosure (between : Option Nat → Option Nat) (f f' : Closure) : Prop where
  identity : f'.identity = f.identity
  environment : f'.environment = f.environment
  isInitializer : f'.isInitializer = f.isInitializer
  declaration : ∃ m, Within W m f.environment ∧ LikeDecl R (between m) f.declaration f'.declaration

inductive LikeClass : Class → Class → Prop
  | base {i n n' ms ms'} : R.name n n' → LikeTable (LikeClosure R W inner) ms ms' →
      LikeClass (.mk i n none ms) (.mk i n' none ms')
  | derived {i n n' c c' ms ms'} : R.name n n' → LikeClass c c' →
      LikeTable (LikeClosure R W inner) ms ms' →
      LikeClass (.mk i n (some c) ms) (.mk i n' (some c') ms')

inductive LikeCallable : Callable → Callable → Prop
  | function {f f'} : LikeClosure R W id f f' → LikeCallable (.function f) (.function f')
  | class {c c'} : LikeClass R W c c' → LikeCallable (.class c) (.class c')
  | native (n : Native) : LikeCallable (.native n) (.native n)

structure LikeInstance (i i' : Instance) : Prop where
  id : i'.id = i.id
  ofClass : LikeClass R W i.ofClass i'.ofClass

inductive LikeValue : Value → Value → Prop
  | nil : LikeValue .nil .nil
  | boolean (b : Bool) : LikeValue (.boolean b) (.boolean b)
  | number (x : Float) : LikeValue (.number x) (.number x)
  | string (t : String) : LikeValue (.string t) (.string t)
  | callable {c c'} : LikeCallable R W c c' → LikeValue (.callable c) (.callable c')
  | instance {i i'} : LikeInstance R W i i' → LikeValue (.instance i) (.instance i')
  | array (a : ArrayId) : LikeValue (.array a) (.array a)
  | module (m : Module) : LikeValue (.module m) (.module m)

/-- The same fault at alike tokens. -/
structure LikeError (e e' : RuntimeError) : Prop where
  fault : e'.fault = e.fault
  token : Option.Rel R.token e.token e'.token

/-- Two results that are alike, or alike failures. -/
inductive LikeResult {α : Type} (P : α → α → Prop) :
    Except RuntimeError α → Except RuntimeError α → Prop
  | ok {a a'} : P a a' → LikeResult P (.ok a) (.ok a')
  | error {e e'} : LikeError R e e' → LikeResult P (.error e) (.error e')

end

section
variable {R : Likeness} {W W' : Distances} (hW : ∀ e k, W e k → W' e k)
include hW

theorem Within.mono {m : Option Nat} {e : EnvironmentId} (h : Within W m e) : Within W' m e :=
  fun k hk => hW e k (h k hk)

theorem LikeClosure.mono {between : Option Nat → Option Nat} {f f' : Closure}
    (h : LikeClosure R W between f f') : LikeClosure R W' between f f' := by
  obtain ⟨m, hm, hd⟩ := h.declaration
  exact ⟨h.identity, h.environment, h.isInitializer, m, hm.mono hW, hd⟩

theorem LikeClass.mono {c c' : Class} (h : LikeClass R W c c') : LikeClass R W' c c' := by
  induction h with
  | base hn hms => exact .base hn (hms.mono fun _ _ hf => hf.mono hW)
  | derived hn _ hms ih => exact .derived hn ih (hms.mono fun _ _ hf => hf.mono hW)

theorem LikeInstance.mono {i i' : Instance} (h : LikeInstance R W i i') : LikeInstance R W' i i' :=
  ⟨h.id, h.ofClass.mono hW⟩

theorem LikeCallable.mono {c c' : Callable} (h : LikeCallable R W c c') :
    LikeCallable R W' c c' := by
  cases h with
  | function hf => exact .function (hf.mono hW)
  | «class» hc => exact .class (hc.mono hW)
  | native n => exact .native n

theorem LikeValue.mono {v v' : Value} (h : LikeValue R W v v') : LikeValue R W' v v' := by
  cases h with
  | callable hc => exact .callable (hc.mono hW)
  | «instance» hi => exact .instance (hi.mono hW)
  | nil => exact .nil
  | boolean b => exact .boolean b
  | number x => exact .number x
  | string t => exact .string t
  | array a => exact .array a
  | module m => exact .module m

end

/-! ## What alike values have in common -/

section
variable {R : Likeness} {W : Distances}

theorem LikeError.blaming {t t' : Token} (h : R.token t t') (f : Fault) :
    LikeError R (.blaming t f) (.blaming t' f) :=
  ⟨rfl, .some h⟩

theorem LikeError.unplaced (f : Fault) : LikeError R (.unplaced f) (.unplaced f) :=
  ⟨rfl, .none⟩

theorem LikeError.orAt {e e' : RuntimeError} (h : LikeError R e e') {t t' : Token}
    (ht : R.token t t') : LikeError R (e.orAt t) (e'.orAt t') := by
  obtain ⟨fault, token⟩ := e
  obtain ⟨fault', token'⟩ := e'
  obtain ⟨rfl, htoken⟩ := h
  cases htoken with
  | none => exact ⟨rfl, .some ht⟩
  | some h => exact ⟨rfl, .some h⟩

theorem LikeDecl.arity {m : Option Nat} {d d' : FunctionDecl} (h : LikeDecl R m d d') :
    d'.arity = d.arity :=
  h.params.length_eq.symm

theorem Likeness.OfRuns.lexeme_name (hR : R.OfRuns) {n n' : Token} (h : R.name n n') :
    n'.lexeme = n.lexeme :=
  hR.lexeme (hR.name h)

theorem LikeClass.identity {c c' : Class} (h : LikeClass R W c c') : c'.identity = c.identity := by
  cases h <;> rfl

theorem LikeClass.name {c c' : Class} (h : LikeClass R W c c') : R.name c.name c'.name := by
  cases h with
  | base hn _ => exact hn
  | derived hn _ _ => exact hn

theorem LikeClass.findMethod? {c c' : Class} (h : LikeClass R W c c') (n : String) :
    Option.Rel (LikeClosure R W inner) (c.findMethod? n) (c'.findMethod? n) := by
  induction h with
  | base _ hms =>
      have hm := hms.get? n
      simp only [Class.findMethod?]
      revert hm
      generalize Table.get? _ n = o, Table.get? _ n = o'
      rintro (hm | _)
      · exact .some hm
      · exact .none
  | derived _ _ hms ih =>
      have hm := hms.get? n
      simp only [Class.findMethod?]
      revert hm
      generalize Table.get? _ n = o, Table.get? _ n = o'
      rintro (hm | _)
      · exact .some hm
      · exact ih

theorem LikeCallable.arity {c c' : Callable} (h : LikeCallable R W c c') : c'.arity = c.arity := by
  cases h with
  | function hf =>
      obtain ⟨m, -, hd⟩ := hf.declaration
      exact hd.arity
  | «class» hc =>
      have hm := hc.findMethod? FunctionDecl.initializerName
      simp only [Callable.arity]
      revert hm
      generalize Class.findMethod? _ _ = o, Class.findMethod? _ _ = o'
      rintro (hm | _)
      · obtain ⟨m, -, hd⟩ := hm.declaration
        exact hd.arity
      · rfl
  | native n => rfl

theorem LikeValue.isTruthy {v v' : Value} (h : LikeValue R W v v') : v'.isTruthy = v.isTruthy := by
  cases h <;> rfl

theorem LikeCallable.same {c c' d d' : Callable} (hc : LikeCallable R W c c')
    (hd : LikeCallable R W d d') : c'.same d' = c.same d := by
  cases hc <;> cases hd <;> try rfl
  case function.function hf _ _ hg => simp only [Callable.same, hf.identity, hg.identity]
  case class.class hc _ _ hd => simp only [Callable.same, hc.identity, hd.identity]

theorem LikeValue.equals {u u' v v' : Value} (hu : LikeValue R W u u') (hv : LikeValue R W v v') :
    u'.equals v' = u.equals v := by
  cases hu <;> cases hv <;> try rfl
  case callable.callable hc _ _ hd => exact hc.same hd
  case instance.instance hi _ _ hj => simp only [Value.equals, hi.id, hj.id]

theorem LikeCallable.pieces (hR : R.OfRuns) {c c' : Callable} (h : LikeCallable R W c c') :
    c'.pieces = c.pieces := by
  cases h with
  | function hf =>
      obtain ⟨m, -, hd⟩ := hf.declaration
      simp only [Callable.pieces, Closure.pieces, hd.lexeme? hR.lexeme_name]
  | «class» hc => simp only [Callable.pieces, Class.pieces, hR.lexeme_name hc.name]
  | native n => rfl

end

/-! ## Operators -/

section
variable {R : Likeness} (hR : R.OfRuns) {W : Distances} {op op' : Token} (hop : R.token op op')
  {u u' v v' : Value}
include hR hop

theorem like_unknownOperator : LikeError R (unknownOperator op) (unknownOperator op') := by
  unfold unknownOperator
  rw [hR.lexeme hop]
  exact .blaming hop _

theorem like_applyUnary (hv : LikeValue R W v v') :
    LikeResult R (LikeValue R W) (applyUnary op v) (applyUnary op' v') := by
  unfold applyUnary
  rw [hR.kind hop, hv.isTruthy]
  split
  · exact .ok (.boolean _)
  · cases hv with
    | number x => exact .ok (.number _)
    | _ => exact .error (.blaming hop _)
  · exact .error (like_unknownOperator hR hop)

theorem like_applyNumeric (x y : Float) :
    LikeResult R (LikeValue R W) (applyNumeric op x y) (applyNumeric op' x y) := by
  unfold applyNumeric
  rw [hR.kind hop]
  cases op.kind with
  | minus | star | slash => exact .ok (.number _)
  | greater | greaterEqual | less | lessEqual => exact .ok (.boolean _)
  | _ => exact .error (like_unknownOperator hR hop)

omit hR in
theorem like_applyPlus (hu : LikeValue R W u u') (hv : LikeValue R W v v') :
    LikeResult R (LikeValue R W) (applyPlus op u v) (applyPlus op' u' v') := by
  cases hu <;> cases hv <;> try exact .error (.blaming hop _)
  case number.number => exact .ok (.number _)
  case string.string => exact .ok (.string _)

theorem like_applyBinary (hu : LikeValue R W u u') (hv : LikeValue R W v v') :
    LikeResult R (LikeValue R W) (applyBinary op u v) (applyBinary op' u' v') := by
  unfold applyBinary
  rw [hR.kind hop, hu.equals hv]
  split
  · exact .ok (.boolean _)
  · exact .ok (.boolean _)
  · exact like_applyPlus hop hu hv
  · cases hu <;> cases hv <;> try exact .error (.blaming hop _)
    exact like_applyNumeric hR hop _ _

theorem like_decidedBy (hv : LikeValue R W v v') : decidedBy op' v' = decidedBy op v := by
  unfold decidedBy
  rw [hR.kind hop, hv.isTruthy]

end

/-! ## Sizes and indexes -/

section
variable {R : Likeness} {W : Distances} {bracket bracket' : Token}
  (hb : R.token bracket bracket') {v v' : Value}
include hb

theorem like_wholeNumber (what : String) (hv : LikeValue R W v v') :
    LikeResult R Eq (wholeNumber what v bracket) (wholeNumber what v' bracket') := by
  cases hv with
  | number x =>
      simp only [wholeNumber]
      split
      · exact .ok rfl
      · exact .error (.blaming hb _)
  | _ => exact .error (.blaming hb _)

theorem like_arraySize (hv : LikeValue R W v v') :
    LikeResult R Eq (arraySize v bracket) (arraySize v' bracket') := by
  have hn := like_wholeNumber hb "Array size" hv
  unfold arraySize
  revert hn
  generalize wholeNumber _ v bracket = r, wholeNumber _ v' bracket' = r'
  rintro (⟨⟨⟩⟩ | he)
  · dsimp only
    split
    · exact .error (.blaming hb _)
    · split
      · exact .error (.blaming hb _)
      · exact .ok rfl
  · exact .error he

theorem like_asIndex (hv : LikeValue R W v v') (length : Nat) :
    LikeResult R Eq (asIndex v length bracket) (asIndex v' length bracket') := by
  have hn := like_wholeNumber hb "Index" hv
  unfold asIndex
  revert hn
  generalize wholeNumber _ v bracket = r, wholeNumber _ v' bracket' = r'
  rintro (⟨⟨⟩⟩ | he)
  · dsimp only
    split
    · exact .error (.blaming hb _)
    · exact .ok rfl
  · exact .error he

theorem like_asArray (hv : LikeValue R W v v') :
    LikeResult R Eq (asArray v bracket) (asArray v' bracket') := by
  cases hv with
  | array a => exact .ok rfl
  | _ => exact .error (.blaming hb _)

theorem like_arrayElements (size : Option Nat) {vs vs' : List Value}
    (hvs : List.Forall₂ (LikeValue R W) vs vs') :
    LikeResult R (fun a a' => List.Forall₂ (LikeValue R W) a.toList a'.toList)
      (arrayElements size vs bracket) (arrayElements size vs' bracket') := by
  cases size with
  | none => exact .ok hvs
  | some n =>
      unfold arrayElements
      dsimp only
      rw [← hvs.length_eq]
      split
      · exact .error (.blaming hb _)
      · refine .ok ?_
        simp only [Array.toList_append, Array.toList_replicate]
        refine List.rel_append hvs ?_
        rw [List.forall₂_same]
        intro v hv
        rw [List.eq_of_mem_replicate hv]
        exact .nil

end

end Lox
