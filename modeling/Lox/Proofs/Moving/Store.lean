/-
# Stores of a program with steps moved

The same instances and arrays under the same numbers, and the same names in environments
that stand for each other.  The second store holds more environments: those of the blocks
around the bodies of loops whose step was moved.  Nothing is ever declared in them, and
no depth leads there, so nothing is said of what they hold.

`Twinned` keeps in order what is known of the environments: a scope outwards in both
programs is a link outwards in both stores, and a scope that was added is a link in the
second store alone.  So a depth and the depth that it became lead to environments that
stand for each other (`Twinned.reaches`), and every operation of a store, given what
belongs together, leaves such stores and has such results.
-/
import Lox.Proofs.Moving.Value
import Lox.Proofs.Like.Store

namespace Lox

/-! ## Environments -/

/-- What is known of environments is so.  Environments of scopes that both programs have
stand for one another, one for one. -/
structure Twinned (T : Twins) (s s' : Store) : Prop where
  known : ∀ {e e' Δ}, T e e' Δ → e < s.environments.size ∧ e' < s'.environments.size
  unique : ∀ {e e' f f' Δ Δ'}, T e e' (.own :: Δ) → T f f' (.own :: Δ') → (f' = e' ↔ f = e)
  own : ∀ {e e' l Δ}, T e e' (.own :: l :: Δ) →
    ∃ p p', s.enclosing? e = some p ∧ s'.enclosing? e' = some p' ∧ T p p' (l :: Δ)
  added : ∀ {e x Δ}, T e x (.added :: Δ) → ∃ e', s'.enclosing? x = some e' ∧ T e e' Δ
  globals : T State.globals State.globals [.own]
  root : s.enclosing? State.globals = none
  root' : s'.enclosing? State.globals = none

/-- One pair more is known of. -/
def Twins.add (T : Twins) (e e' : EnvironmentId) (Δ : List Layer) : Twins :=
  fun f f' Δ' => T f f' Δ' ∨ f = e ∧ f' = e' ∧ Δ' = Δ

theorem Twins.le_add (T : Twins) (e e' : EnvironmentId) (Δ : List Layer) : T.Le (T.add e e' Δ) :=
  fun _ _ _ => .inl

namespace Twinned

variable {T : Twins} {s s' : Store} (h : Twinned T s s')
include h

/-- Depths that belong together lead to environments that stand for each other. -/
theorem reaches {Δ : List Layer} {d d' : Nat} (hd : Leads Δ d d') {e e' : EnvironmentId}
    (he : T e e' Δ) : ∃ f f' Δ', s.ancestor? e d = some f ∧ s'.ancestor? e' d' = some f' ∧
      T f f' (.own :: Δ') := by
  induction hd generalizing e e' with
  | here => exact ⟨e, e', _, rfl, rfl, he⟩
  | @own Δ d d' hd ih =>
      cases Δ with
      | nil => cases hd
      | cons l Δ =>
          obtain ⟨p, p', hp, hp', hpp⟩ := h.own he
          obtain ⟨f, f', Δ', hf, hf', hff⟩ := ih hpp
          refine ⟨f, f', Δ', ?_, ?_, hff⟩
          · rw [Store.ancestor?, hp]
            exact hf
          · rw [Store.ancestor?, hp']
            exact hf'
  | added hd ih =>
      obtain ⟨p', hp', hpp⟩ := h.added he
      obtain ⟨f, f', Δ', hf, hf', hff⟩ := ih hpp
      refine ⟨f, f', Δ', hf, ?_, hff⟩
      rw [Store.ancestor?, hp']
      exact hf'

theorem congr {u u' : Store} (hsize : u.environments.size = s.environments.size)
    (hsize' : u'.environments.size = s'.environments.size)
    (hlinks : ∀ e, u.enclosing? e = s.enclosing? e)
    (hlinks' : ∀ e, u'.enclosing? e = s'.enclosing? e) : Twinned T u u' where
  known he := hsize ▸ hsize' ▸ h.known he
  unique := h.unique
  own he := by
    rw [hlinks, hlinks']
    exact h.own he
  added he := by
    rw [hlinks']
    exact h.added he
  globals := h.globals
  root := (hlinks _).trans h.root
  root' := (hlinks' _).trans h.root'

/-- Links of environments that are known stay when further ones are made. -/
theorem enclosing?_newEnvironment {e e' : EnvironmentId} {Δ : List Layer} (he : T e e' Δ)
    (env env' : Environment) :
    (s.newEnvironment env).2.enclosing? e = s.enclosing? e ∧
      (s'.newEnvironment env').2.enclosing? e' = s'.enclosing? e' := by
  obtain ⟨hlt, hlt'⟩ := h.known he
  rw [Store.enclosing?_newEnvironment, Store.enclosing?_newEnvironment,
    if_neg (Nat.ne_of_lt hlt), if_neg (Nat.ne_of_lt hlt')]
  exact ⟨rfl, rfl⟩

/-- Both programs enter a scope. -/
theorem newEnvironment {env env' : Environment} {p p' : EnvironmentId} {Δ : List Layer}
    (hp : env.enclosing = some p) (hp' : env'.enclosing = some p') (hpp : T p p' Δ) :
    Twinned (T.add s.environments.size s'.environments.size (.own :: Δ))
      (s.newEnvironment env).2 (s'.newEnvironment env').2 := by
  have hlinks {e e' Δ} (he : T e e' Δ) := h.enclosing?_newEnvironment he env env'
  refine ⟨?_, ?_, ?_, ?_, .inl h.globals, ?_, ?_⟩
  · rintro e e' Δ' (he | ⟨rfl, rfl, -⟩) <;>
      rw [Store.size_newEnvironment, Store.size_newEnvironment]
    · exact (h.known he).imp Nat.lt_succ_of_lt Nat.lt_succ_of_lt
    · exact ⟨Nat.lt_succ_self _, Nat.lt_succ_self _⟩
  · rintro e e' f f' Δ₁ Δ₂ (he | ⟨rfl, rfl, -⟩) (hf | ⟨rfl, rfl, -⟩)
    · exact h.unique he hf
    · exact iff_of_false (Nat.ne_of_gt (h.known he).2) (Nat.ne_of_gt (h.known he).1)
    · exact iff_of_false (Nat.ne_of_lt (h.known hf).2) (Nat.ne_of_lt (h.known hf).1)
    · exact iff_of_true rfl rfl
  · rintro e e' l Δ' (he | ⟨rfl, rfl, heq⟩)
    · rw [(hlinks he).1, (hlinks he).2]
      obtain ⟨q, q', hq, hq', hqq⟩ := h.own he
      exact ⟨q, q', hq, hq', .inl hqq⟩
    · cases heq
      refine ⟨p, p', ?_, ?_, .inl hpp⟩ <;>
        rwa [Store.enclosing?_newEnvironment, if_pos rfl]
  · rintro e x Δ' (he | ⟨-, -, heq⟩)
    · rw [(hlinks he).2]
      obtain ⟨e', he', hee⟩ := h.added he
      exact ⟨e', he', .inl hee⟩
    · cases heq
  · exact (hlinks h.globals).1.trans h.root
  · exact (hlinks h.globals).2.trans h.root'

/-- The second program enters a block that the first one does not have. -/
theorem addEnvironment {env' : Environment} {e e' : EnvironmentId} {Δ : List Layer}
    (he' : env'.enclosing = some e') (he : T e e' Δ) :
    Twinned (T.add e s'.environments.size (.added :: Δ)) s (s'.newEnvironment env').2 := by
  have hlinks {k k' Δ} (hk : T k k' Δ) := (h.enclosing?_newEnvironment hk default env').2
  refine ⟨?_, ?_, ?_, ?_, .inl h.globals, h.root, ?_⟩
  · rintro k k' Δ' (hk | ⟨rfl, rfl, -⟩) <;> rw [Store.size_newEnvironment]
    · exact (h.known hk).imp_right Nat.lt_succ_of_lt
    · exact ⟨(h.known he).1, Nat.lt_succ_self _⟩
  · rintro k k' f f' Δ₁ Δ₂ (hk | ⟨-, -, heq⟩) (hf | ⟨-, -, heq'⟩)
    · exact h.unique hk hf
    · cases heq'
    · cases heq
    · cases heq
  · rintro k k' l Δ' (hk | ⟨-, -, heq⟩)
    · rw [hlinks hk]
      obtain ⟨q, q', hq, hq', hqq⟩ := h.own hk
      exact ⟨q, q', hq, hq', .inl hqq⟩
    · cases heq
  · rintro k x Δ' (hk | ⟨rfl, rfl, heq⟩)
    · rw [hlinks hk]
      obtain ⟨k', hk', hkk⟩ := h.added hk
      exact ⟨k', hk', .inl hkk⟩
    · cases heq
      refine ⟨e', ?_, .inl he⟩
      rwa [Store.enclosing?_newEnvironment, if_pos rfl]
  · exact (hlinks h.globals).trans h.root'

end Twinned

/-! ## Stores -/

section
variable (T : Twins)

structure MovedEnvironment (e e' : Environment) : Prop where
  bindings : LikeTable (MovedValue T) e.bindings e'.bindings
  readOnly : e'.readOnly = e.readOnly

inductive MovedProperty : Store.Property → Store.Property → Prop
  | field {v v'} : MovedValue T v v' → MovedProperty (.field v) (.field v')
  | method {f f'} : MovedMethod T f f' → MovedProperty (.method f) (.method f')

/-- Stores that belong together. -/
structure MovedStore (s s' : Store) : Prop where
  environment : ∀ {e e' Δ}, T e e' (.own :: Δ) →
    MovedEnvironment T (s.environment e) (s'.environment e')
  fields : List.Forall₂ (LikeTable (MovedValue T)) s.fields.toList s'.fields.toList
  arrays : List.Forall₂ (fun a a' => List.Forall₂ (MovedValue T) a.toList a'.toList)
    s.arrays.toList s'.arrays.toList
  identities : s'.identities = s.identities
  twinned : Twinned T s s'

end

theorem MovedEnvironment.mono {T T' : Twins} (hT : T.Le T') {e e' : Environment}
    (h : MovedEnvironment T e e') : MovedEnvironment T' e e' :=
  ⟨h.bindings.mono fun _ _ hv => hv.mono hT, h.readOnly⟩

namespace MovedStore

variable {T : Twins} {s s' : Store} (h : MovedStore T s s')
include h

/-! ## Views -/

theorem fieldsOf {i i' : Instance} (hi : i'.id = i.id) :
    LikeTable (MovedValue T) (s.fieldsOf i) (s'.fieldsOf i') := by
  have hf := like_getElem? h.fields i.id
  simp only [Array.getElem?_toList] at hf
  unfold Store.fieldsOf
  rw [hi]
  revert hf
  generalize s.fields[i.id]? = o, s'.fields[i.id]? = o'
  rintro (hf | _)
  · exact hf
  · exact .nil

theorem elements (a : ArrayId) :
    List.Forall₂ (MovedValue T) (s.elements a).toList (s'.elements a).toList := by
  have ha := like_getElem? h.arrays a
  simp only [Array.getElem?_toList] at ha
  unfold Store.elements
  revert ha
  generalize s.arrays[a]? = o, s'.arrays[a]? = o'
  rintro (ha | _)
  · exact ha
  · exact .nil

theorem length (a : ArrayId) : s'.length a = s.length a := by
  simpa [Store.length] using (h.elements a).length_eq.symm

theorem element? (a : ArrayId) (i : Nat) :
    Option.Rel (MovedValue T) (s.element? a i) (s'.element? a i) := by
  simpa only [Store.element?, Array.getElem?_toList] using like_getElem? (h.elements a) i

/-! ## Text and equality -/

theorem piecesWithin : ∀ (depth : Nat) (path : List ArrayId) {v v' : Value},
    MovedValue T v v' → s'.piecesWithin depth path v' = s.piecesWithin depth path v
  | 0, _, _, _, .array a => rfl
  | depth + 1, path, _, _, .array a => by
      simp only [Store.piecesWithin,
        like_map (fun _ _ hv => piecesWithin depth (a :: path) hv) (h.elements a)]
  | _, _, _, _, .callable hc => by simp only [Store.piecesWithin, hc.pieces]
  | _, _, _, _, .instance hi => by simp only [Store.piecesWithin, hi.ofClass.name]
  | _, _, _, _, .module hm => by simp only [Store.piecesWithin, hm.name]
  | _, _, _, _, .nil | _, _, _, _, .boolean _ | _, _, _, _, .number _
  | _, _, _, _, .string _ => by simp only [Store.piecesWithin]

theorem pieces {v v' : Value} (hv : MovedValue T v v') : s'.pieces v' = s.pieces v := by
  have hsize : s'.arrays.size = s.arrays.size := by simpa using h.arrays.length_eq.symm
  unfold Store.pieces
  rw [hsize]
  exact h.piecesWithin _ _ hv

/-- Modules are the same if their environments are, and these stand for one another one
for one. -/
theorem equals {u u' v v' : Value} (hu : MovedValue T u u') (hv : MovedValue T v v') :
    u'.equals v' = u.equals v := by
  cases hu <;> cases hv <;> try rfl
  case callable.callable hc _ _ hd =>
      cases hc <;> cases hd <;> try rfl
      case function.function hf _ _ hg =>
          simp only [Value.equals, Callable.same, hf.identity, hg.identity]
      case class.class hc _ _ hd =>
          simp only [Value.equals, Callable.same, hc.identity, hd.identity]
  case instance.instance hi _ _ hj => simp only [Value.equals, hi.id, hj.id]
  case module.module hm _ _ hn =>
      obtain ⟨_, hm⟩ := hm.environment
      obtain ⟨_, hn⟩ := hn.environment
      simp only [Value.equals]
      rw [Bool.eq_iff_iff, beq_iff_eq, beq_iff_eq]
      exact h.twinned.unique hn hm

/-! ## Operations on environments -/

/-- Whatever becomes of the rest, the environments are the same. -/
theorem beside {u u' : Store} (henv : u.environments = s.environments)
    (henv' : u'.environments = s'.environments)
    (hfields : List.Forall₂ (LikeTable (MovedValue T)) u.fields.toList u'.fields.toList)
    (harrays : List.Forall₂ (fun a a' => List.Forall₂ (MovedValue T) a.toList a'.toList)
      u.arrays.toList u'.arrays.toList) (hidentities : u'.identities = u.identities) :
    MovedStore T u u' := by
  have hsame : ∀ e, u.environment e = s.environment e := fun e => by
    rw [Store.environment, henv, Store.environment]
  have hsame' : ∀ e, u'.environment e = s'.environment e := fun e => by
    rw [Store.environment, henv', Store.environment]
  refine ⟨fun he => ?_, hfields, harrays, hidentities, h.twinned.congr ?_ ?_ ?_ ?_⟩
  · rw [hsame, hsame']
    exact h.environment he
  · rw [henv]
  · rw [henv']
  · exact fun e => congrArg Environment.enclosing (hsame e)
  · exact fun e => congrArg Environment.enclosing (hsame' e)

section
variable {e e' : EnvironmentId} {Δ : List Layer} (he : T e e' (.own :: Δ))
include he

theorem getLocal? (n : String) :
    Option.Rel (MovedValue T) (s.getLocal? e n) (s'.getLocal? e' n) :=
  (h.environment he).bindings.get? n

theorem binds (n : String) : s'.binds e' n = s.binds e n :=
  like_isSome (h.getLocal? he n)

theorem isReadOnly (n : String) : s'.isReadOnly e' n = s.isReadOnly e n := by
  unfold Store.isReadOnly
  rw [(h.environment he).readOnly]

/-- A change of environments that stand for each other that keeps their links. -/
theorem modify {f f' : Environment → Environment}
    (hf : ∀ env env', MovedEnvironment T env env' → MovedEnvironment T (f env) (f' env'))
    (hl : ∀ env, (f env).enclosing = env.enclosing)
    (hl' : ∀ env, (f' env).enclosing = env.enclosing) :
    MovedStore T { s with environments := s.environments.modify e f }
      { s' with environments := s'.environments.modify e' f' } := by
  have hlinks : ∀ (u : Store) (k : EnvironmentId) {g : Environment → Environment},
      (∀ env, (g env).enclosing = env.enclosing) → ∀ i,
      ({ u with environments := u.environments.modify k g } : Store).enclosing? i
        = u.enclosing? i := by
    intro u k g hg i
    rw [Store.enclosing?, Store.environment_modify]
    split
    · exact hg _
    · rfl
  refine ⟨fun {k k' Δ'} hk => ?_, h.fields, h.arrays, h.identities,
    h.twinned.congr (by simp) (by simp) (hlinks s e hl) (hlinks s' e' hl')⟩
  obtain ⟨hlt, hlt'⟩ := h.twinned.known he
  have hiff := h.twinned.unique he hk
  rw [Store.environment_modify, Store.environment_modify]
  by_cases hke : k = e
  · rw [if_pos ⟨hke, hlt⟩, if_pos ⟨hiff.mpr hke, hlt'⟩]
    exact hf _ _ (h.environment hk)
  · rw [if_neg fun hand => hke hand.1, if_neg fun hand => hke (hiff.mp hand.1)]
    exact h.environment hk

theorem put (n : String) {v v' : Value} (hv : MovedValue T v v') :
    MovedStore T (s.put e n v) (s'.put e' n v') :=
  h.modify he (fun _ _ henv => ⟨henv.bindings.set n hv, henv.readOnly⟩) (fun _ => rfl)
    fun _ => rfl

theorem protect (n : String) : MovedStore T (s.protect e n) (s'.protect e' n) :=
  h.modify he (fun _ _ henv => ⟨henv.bindings, congrArg (·.insert n) henv.readOnly⟩)
    (fun _ => rfl) fun _ => rfl

theorem define (x : Token) {v v' : Value} (hv : MovedValue T v v') :
    SameResult (MovedStore T) (s.define e x v) (s'.define e' x v') := by
  unfold Store.define
  rw [h.binds he]
  split
  · exact .error _
  · exact .ok (h.put he x.lexeme hv)

theorem defineReadOnly (x : Token) {v v' : Value} (hv : MovedValue T v v') :
    SameResult (MovedStore T) (s.defineReadOnly e x v) (s'.defineReadOnly e' x v') := by
  have hd := h.define he x hv
  unfold Store.defineReadOnly
  revert hd
  generalize s.define e x v = r, s'.define e' x v' = r'
  rintro (hs | _)
  · exact .ok (hs.protect he x.lexeme)
  · exact .error _

theorem assignLocal? (n : String) {v v' : Value} (hv : MovedValue T v v') :
    Option.Rel (MovedStore T) (s.assignLocal? e n v) (s'.assignLocal? e' n v') := by
  unfold Store.assignLocal?
  rw [h.binds he]
  split
  · exact .some (h.put he n hv)
  · exact .none

end

/-- What the stores hold belongs together also when more is known of their environments,
and no more of those that stand for one another. -/
theorem extend {T' : Twins} {u u' : Store} (hT : T.Le T') (htwinned : Twinned T' u u')
    (henv : ∀ {e e' Δ}, T' e e' (.own :: Δ) →
      MovedEnvironment T' (u.environment e) (u'.environment e'))
    (hfields : u.fields = s.fields) (hfields' : u'.fields = s'.fields)
    (harrays : u.arrays = s.arrays) (harrays' : u'.arrays = s'.arrays)
    (hidentities : u.identities = s.identities) (hidentities' : u'.identities = s'.identities) :
    MovedStore T' u u' where
  environment := henv
  fields := by
    rw [hfields, hfields']
    exact h.fields.imp fun _ _ hf => hf.mono fun _ _ hv => hv.mono hT
  arrays := by
    rw [harrays, harrays']
    exact h.arrays.imp fun _ _ ha => moved_values_mono hT ha
  identities := by rw [hidentities, hidentities', h.identities]
  twinned := htwinned

/-- Both programs enter a scope. -/
theorem newEnvironment {env env' : Environment} (henv : MovedEnvironment T env env')
    {p p' : EnvironmentId} {Δ : List Layer} (hp : env.enclosing = some p)
    (hp' : env'.enclosing = some p') (hpp : T p p' Δ) :
    ∃ T' : Twins, T.Le T' ∧
      T' (s.newEnvironment env).1 (s'.newEnvironment env').1 (.own :: Δ) ∧
      MovedStore T' (s.newEnvironment env).2 (s'.newEnvironment env').2 := by
  have hT := T.le_add s.environments.size s'.environments.size (.own :: Δ)
  refine ⟨_, hT, .inr ⟨rfl, rfl, rfl⟩, h.extend hT (h.twinned.newEnvironment hp hp' hpp) ?_
    rfl rfl rfl rfl rfl rfl⟩
  rintro e e' Δ' (he | ⟨rfl, rfl, -⟩)
  · obtain ⟨hlt, hlt'⟩ := h.twinned.known he
    rw [Store.environment_newEnvironment, Store.environment_newEnvironment,
      if_neg (Nat.ne_of_lt hlt), if_neg (Nat.ne_of_lt hlt')]
    exact (h.environment he).mono hT
  · rw [Store.environment_newEnvironment, Store.environment_newEnvironment, if_pos rfl, if_pos rfl]
    exact henv.mono hT

theorem child {p p' : EnvironmentId} {Δ : List Layer} (hpp : T p p' Δ) :
    ∃ T' : Twins, T.Le T' ∧ T' (s.child p).1 (s'.child p').1 (.own :: Δ) ∧
      MovedStore T' (s.child p).2 (s'.child p').2 := by
  have henv : MovedEnvironment T ⟨[], [], some p⟩ ⟨[], [], some p'⟩ := ⟨.nil, rfl⟩
  exact h.newEnvironment henv rfl rfl hpp

theorem childWith {p p' : EnvironmentId} {Δ : List Layer} (hpp : T p p' Δ) (n : String)
    {v v' : Value} (hv : MovedValue T v v') :
    ∃ T' : Twins, T.Le T' ∧ T' (s.childWith p n v).1 (s'.childWith p' n v').1 (.own :: Δ) ∧
      MovedStore T' (s.childWith p n v).2 (s'.childWith p' n v').2 := by
  have henv : MovedEnvironment T ⟨[(n, v)], [], some p⟩ ⟨[(n, v')], [], some p'⟩ :=
    ⟨.cons ⟨rfl, hv⟩ .nil, rfl⟩
  exact h.newEnvironment henv rfl rfl hpp

/-- The second program enters a block that the first one does not have. -/
theorem addedChild {e e' : EnvironmentId} {Δ : List Layer} (he : T e e' Δ) :
    ∃ T' : Twins, T.Le T' ∧ T' e (s'.child e').1 (.added :: Δ) ∧
      MovedStore T' s (s'.child e').2 := by
  have hT := T.le_add e s'.environments.size (.added :: Δ)
  refine ⟨_, hT, .inr ⟨rfl, rfl, rfl⟩, h.extend hT (h.twinned.addEnvironment rfl he) ?_
    rfl rfl rfl rfl rfl rfl⟩
  rintro k k' Δ' (hk | ⟨-, -, heq⟩)
  · rw [Store.child, Store.environment_newEnvironment,
      if_neg (Nat.ne_of_lt (h.twinned.known hk).2)]
    exact (h.environment hk).mono hT
  · cases heq

/-! ## Names -/

section
variable {e e' : EnvironmentId} {Δ : List Layer} (he : T e e' Δ)
include he

theorem accessAt {d d' : Nat} (hd : Leads Δ d d') (x : Token) :
    SameResult (MovedValue T) (s.accessAt e d x) (s'.accessAt e' d' x) := by
  obtain ⟨f, f', Δ', hf, hf', hff⟩ := h.twinned.reaches hd he
  have hv := h.getLocal? hff x.lexeme
  unfold Store.accessAt Store.scopeAt
  rw [hf, hf']
  dsimp only
  revert hv
  generalize s.getLocal? f x.lexeme = o, s'.getLocal? f' x.lexeme = o'
  rintro (hv | _)
  · exact .ok hv
  · exact .error _

theorem assignAt {d d' : Nat} (hd : Leads Δ d d') (x : Token) {v v' : Value}
    (hv : MovedValue T v v') :
    SameResult (MovedStore T) (s.assignAt e d x v) (s'.assignAt e' d' x v') := by
  obtain ⟨f, f', Δ', hf, hf', hff⟩ := h.twinned.reaches hd he
  have hs := h.assignLocal? hff x.lexeme hv
  unfold Store.assignAt Store.scopeAt
  rw [hf, hf']
  dsimp only
  revert hs
  generalize s.assignLocal? f x.lexeme v = o, s'.assignLocal? f' x.lexeme v' = o'
  rintro (hs | _)
  · exact .ok hs
  · exact .error _

omit he in
theorem access_globals (x : Token) :
    SameResult (MovedValue T) (s.access State.globals x) (s'.access State.globals x) := by
  have hv := h.getLocal? h.twinned.globals x.lexeme
  unfold Store.access
  rw [Store.chain_eq, Store.chain_eq, h.twinned.root, h.twinned.root']
  simp only [List.findSome?_cons, List.findSome?_nil]
  revert hv
  generalize s.getLocal? _ _ = o, s'.getLocal? _ _ = o'
  rintro (hv | _)
  · exact .ok hv
  · exact .error _

omit he in
theorem assign_globals (x : Token) {v v' : Value} (hv : MovedValue T v v') :
    SameResult (MovedStore T) (s.assign State.globals x v) (s'.assign State.globals x v') := by
  unfold Store.assign Store.holder?
  rw [Store.chain_eq, Store.chain_eq, h.twinned.root, h.twinned.root']
  simp only [List.find?_cons, List.find?_nil, h.binds h.twinned.globals]
  cases s.binds State.globals x.lexeme with
  | true => exact .ok (h.put h.twinned.globals x.lexeme hv)
  | false => exact .error _

theorem lookUp {d d' : Option Nat} (hd : Option.Rel (Leads Δ) d d') (x : Token) :
    SameResult (MovedValue T) (Machine.lookUp s x d e) (Machine.lookUp s' x d' e') := by
  cases hd with
  | some hd => exact h.accessAt he hd x
  | none => exact h.access_globals x

theorem change {d d' : Option Nat} (hd : Option.Rel (Leads Δ) d d') (x : Token) {v v' : Value}
    (hv : MovedValue T v v') :
    SameResult (MovedStore T) (Machine.change s x d e v) (Machine.change s' x d' e' v') := by
  cases hd with
  | some hd => exact h.assignAt he hd x hv
  | none => exact h.assign_globals x hv

end

/-! ## Functions, instances and arrays -/

theorem newIdentity : MovedStore T s.newIdentity.2 s'.newIdentity.2 :=
  h.beside rfl rfl h.fields h.arrays (congrArg (· + 1) h.identities)

theorem newClosure (between : List Layer → List Layer) {e e' : EnvironmentId} {Δ : List Layer}
    (he : T e e' Δ) {d d' : FunctionDecl} (hd : MovedDecl (between Δ) d d') {b : Bool}
    (hscope : b = true → Leads Δ 0 0) :
    MovedClosure T between (s.newClosure d e b).1 (s'.newClosure d' e' b).1 ∧
      MovedStore T (s.newClosure d e b).2 (s'.newClosure d' e' b).2 :=
  ⟨⟨h.identities, rfl, Δ, he, hd, hscope⟩, h.newIdentity⟩

theorem newInstance {c c' : Class} (hc : MovedClass T c c') :
    MovedInstance T (s.newInstance c).1 (s'.newInstance c').1 ∧
      MovedStore T (s.newInstance c).2 (s'.newInstance c').2 := by
  refine ⟨⟨?_, hc⟩, h.beside rfl rfl ?_ h.arrays h.identities⟩
  · simpa [Store.newInstance] using h.fields.length_eq.symm
  · simp only [Store.newInstance, Array.toList_push]
    exact like_concat h.fields .nil

theorem setField {i i' : Instance} (hi : i'.id = i.id) (name : String) {v v' : Value}
    (hv : MovedValue T v v') :
    MovedStore T (s.setField i name v) (s'.setField i' name v') := by
  refine h.beside rfl rfl ?_ h.arrays h.identities
  simp only [Store.setField, Array.toList_modify, hi]
  exact like_modify (fun _ _ hf => hf.set name hv) h.fields i.id

theorem newArray {es es' : Array Value}
    (hes : List.Forall₂ (MovedValue T) es.toList es'.toList) :
    (s'.newArray es').1 = (s.newArray es).1 ∧
      MovedStore T (s.newArray es).2 (s'.newArray es').2 := by
  refine ⟨?_, h.beside rfl rfl h.fields ?_ h.identities⟩
  · simpa [Store.newArray] using h.arrays.length_eq.symm
  · simp only [Store.newArray, Array.toList_push]
    exact like_concat h.arrays hes

theorem setElement? (a : ArrayId) (i : Nat) {v v' : Value} (hv : MovedValue T v v') :
    Option.Rel (MovedStore T) (s.setElement? a i v) (s'.setElement? a i v') := by
  unfold Store.setElement?
  rw [h.length]
  split
  · refine .some (h.beside rfl rfl h.fields ?_ h.identities)
    simp only [Array.toList_modify]
    refine like_modify (fun es es' hes => ?_) h.arrays a
    simp only [Array.toList_setIfInBounds, List.set_eq_modify]
    exact like_modify (fun _ _ _ => hv) hes i
  · exact .none

/-- Binding a method makes the scope that it has around it. -/
theorem bindMethod {f f' : Closure} (hf : MovedMethod T f f') {i i' : Instance}
    (hi : MovedInstance T i i') :
    ∃ T' : Twins, T.Le T' ∧ MovedClosure T' id (s.bindMethod f i).1 (s'.bindMethod f' i').1 ∧
      MovedStore T' (s.bindMethod f i).2 (s'.bindMethod f' i').2 := by
  obtain ⟨Δ, hΔ, hd, -⟩ := hf.declaration
  obtain ⟨T', hT, hnew, hs⟩ := h.childWith hΔ Store.receiverName (.instance hi)
  refine ⟨T', hT, ?_⟩
  simp only [Store.bindMethod, hf.isInitializer]
  exact hs.newClosure id hnew hd fun _ => .here

theorem property? {i i' : Instance} (hi : MovedInstance T i i') (name : String) :
    Option.Rel (MovedProperty T) (s.property? i name) (s'.property? i' name) := by
  have hf := (h.fieldsOf hi.id).get? name
  have hm := hi.ofClass.findMethod? name
  unfold Store.property?
  revert hf hm
  generalize Table.get? _ name = o, Table.get? _ name = o', Class.findMethod? _ name = c,
    Class.findMethod? _ name = c'
  rintro (hv | _) (hm | _)
  · exact .some (.field hv)
  · exact .some (.field hv)
  · exact .some (.method hm)
  · exact .none

theorem valueOf {i i' : Instance} (hi : MovedInstance T i i') {p p' : Store.Property}
    (hp : MovedProperty T p p') :
    ∃ T' : Twins, T.Le T' ∧ MovedValue T' (s.valueOf i p).1 (s'.valueOf i' p').1 ∧
      MovedStore T' (s.valueOf i p).2 (s'.valueOf i' p').2 := by
  cases hp with
  | field hv => exact ⟨T, fun _ _ _ he => he, hv, h⟩
  | method hm =>
      obtain ⟨T', hT, hf, hs⟩ := h.bindMethod hm hi
      exact ⟨T', hT, .callable (.function hf), hs⟩

end MovedStore

end Lox
