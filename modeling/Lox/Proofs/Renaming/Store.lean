/-
# Stores of a program with a renamed scope

The same environments, instances and arrays under the same numbers; in the environments
of renamed scopes the words are others.  Whether an environment is one is known by its
bearings, which `Charted` keeps in order: a step outwards from an environment is a step
nearer to the renamed scope.

A name that is used and the environment that its depth leads to are renamed both or
neither (`Charted.reaches`).  So every operation of a store, given what belongs together,
leaves such stores and has such results.
-/
import Lox.Proofs.Renaming.Value
import Lox.Proofs.Like.Store

namespace Lox

/-! ## Bearings -/

/-- What is known of bearings is so: one thing of an environment that is there, and of
the one around it what `outer` says.  The globals are in no renamed scope. -/
structure Charted (B : Bearings) (s : Store) : Prop where
  known : ∀ {e k}, B e k → e < s.environments.size
  unique : ∀ {e j k}, B e j → B e k → j = k
  link : ∀ {e k p}, B e k → s.enclosing? e = some p → B p (outer k)
  globals : B State.globals none
  root : s.enclosing? State.globals = none

/-- One environment more is known of. -/
def Bearings.add (B : Bearings) (e : EnvironmentId) (i : Option Nat) : Bearings :=
  fun f k => B f k ∨ f = e ∧ k = i

namespace Charted

variable {B : Bearings} {s : Store} (h : Charted B s)
include h

theorem here {e : EnvironmentId} {k : Option Nat} (hk : B e k) : B e (some 0) ↔ k = some 0 :=
  ⟨fun h0 => h.unique hk h0, fun h0 => h0 ▸ hk⟩

/-- A depth leads to the environment of the renamed scope if it is the number of scopes
to it. -/
theorem reaches {e f : EnvironmentId} {k : Option Nat} {d : Nat} (hk : B e k)
    (hd : s.ancestor? e d = some f) : B f (some 0) ↔ Renaming.Reaches k (some d) := by
  suffices hf : ∃ j, B f j ∧ (j = some 0 ↔ k = some d) by
    obtain ⟨j, hj, hjk⟩ := hf
    rw [h.here hj, hjk]
    exact ⟨fun hk => ⟨rfl, hk.symm⟩, fun hk => hk.2.symm⟩
  induction d generalizing e k with
  | zero =>
      cases hd
      exact ⟨k, hk, Iff.rfl⟩
  | succ d ih =>
      rw [Store.ancestor?] at hd
      cases hp : s.enclosing? e with
      | none =>
          rw [hp] at hd
          cases hd
      | some p =>
          rw [hp] at hd
          obtain ⟨j, hj, hjk⟩ := ih (h.link hk hp) hd
          refine ⟨j, hj, hjk.trans ?_⟩
          rcases k with _ | _ | k <;> simp [outer]

theorem congr {u : Store} (hsize : u.environments.size = s.environments.size)
    (hlinks : ∀ e, u.enclosing? e = s.enclosing? e) : Charted B u where
  known hk := hsize ▸ h.known hk
  unique := h.unique
  link hk hp := h.link hk (hlinks _ ▸ hp)
  globals := h.globals
  root := (hlinks _).trans h.root

theorem newEnvironment {env : Environment} {p : EnvironmentId} {i : Option Nat}
    (hp : env.enclosing = some p) (hk : B p (outer i)) :
    Charted (B.add s.environments.size i) (s.newEnvironment env).2 := by
  have hne : ∀ {e k}, B e k → e ≠ s.environments.size := fun hk => Nat.ne_of_lt (h.known hk)
  refine ⟨?_, ?_, ?_, .inl h.globals, ?_⟩
  · rintro e k (hk | ⟨rfl, -⟩) <;> rw [Store.size_newEnvironment]
    · exact Nat.lt_succ_of_lt (h.known hk)
    · exact Nat.lt_succ_self _
  · rintro e j k (hj | ⟨rfl, rfl⟩) (hk | ⟨he, rfl⟩)
    · exact h.unique hj hk
    · exact absurd he (hne hj)
    · exact absurd rfl (hne hk)
    · rfl
  · rintro e k q (hk | ⟨rfl, rfl⟩) hq <;> rw [Store.enclosing?_newEnvironment] at hq
    · rw [if_neg (hne hk)] at hq
      exact .inl (h.link hk hq)
    · rw [if_pos rfl, hp] at hq
      cases hq
      exact .inl hk
  · rw [Store.enclosing?_newEnvironment, if_neg (hne h.globals)]
    exact h.root

end Charted

/-! ## Tables -/

/-- Tables under words of one place, which stand for what belongs together. -/
def RenamedTable (ρ : Renaming) (here : Prop) {α : Type} (P : α → α → Prop) :
    Table α → Table α → Prop :=
  List.Forall₂ fun x x' => ρ.Words here x.1 x'.1 ∧ P x.2 x'.2

namespace RenamedTable

variable {ρ : Renaming} {here : Prop} {α : Type} {P : α → α → Prop} {t t' : Table α}
  {n n' : String}

theorem get? (h : RenamedTable ρ here P t t') (hn : ρ.Words here n n') :
    Option.Rel P (t.get? n) (t'.get? n') := by
  induction h with
  | nil => exact .none
  | cons hx _ ih =>
      obtain ⟨hk, ha⟩ := hx
      simp only [Table.get?, hk.inj hn]
      split
      · exact .some ha
      · exact ih

theorem set (h : RenamedTable ρ here P t t') (hn : ρ.Words here n n') {a a' : α} (ha : P a a') :
    RenamedTable ρ here P (t.set n a) (t'.set n' a') := by
  induction h with
  | nil => exact .cons ⟨hn, ha⟩ .nil
  | @cons x x' _ _ hx hl ih =>
      obtain ⟨hk, hb⟩ := hx
      simp only [Table.set, hk.inj hn]
      split
      · exact .cons ⟨hk, ha⟩ hl
      · exact .cons ⟨hk, hb⟩ ih

theorem mono {Q : α → α → Prop} (h : RenamedTable ρ here P t t')
    (hPQ : ∀ a a', P a a' → Q a a') : RenamedTable ρ here Q t t' :=
  List.Forall₂.imp (fun _ _ hx => ⟨hx.1, hPQ _ _ hx.2⟩) h

end RenamedTable

/-! ## Stores -/

section
variable (ρ : Renaming) (B : Bearings)

/-- Environments of a renamed scope, or of another one.  The scope of a block or a call
is never asked what is read-only in it. -/
structure RenamedEnvironment (here : Prop) (e e' : Environment) : Prop where
  bindings : RenamedTable ρ here (RenamedValue ρ B) e.bindings e'.bindings
  readOnly : ¬ here → e'.readOnly = e.readOnly
  enclosing : e'.enclosing = e.enclosing

inductive RenamedProperty : Store.Property → Store.Property → Prop
  | field {v v'} : RenamedValue ρ B v v' → RenamedProperty (.field v) (.field v')
  | method {f f'} : RenamedClosure ρ B inner f f' → RenamedProperty (.method f) (.method f')

structure RenamedStore (s s' : Store) : Prop where
  size : s'.environments.size = s.environments.size
  environment : ∀ e, RenamedEnvironment ρ B (B e (some 0)) (s.environment e) (s'.environment e)
  fields : List.Forall₂ (LikeTable (RenamedValue ρ B)) s.fields.toList s'.fields.toList
  arrays : List.Forall₂ (fun a a' => List.Forall₂ (RenamedValue ρ B) a.toList a'.toList)
    s.arrays.toList s'.arrays.toList
  identities : s'.identities = s.identities
  charted : Charted B s

end

theorem RenamedEnvironment.mono {ρ : Renaming} {B B' : Bearings} (hB : ∀ e k, B e k → B' e k)
    {here : Prop} {e e' : Environment} (h : RenamedEnvironment ρ B here e e') :
    RenamedEnvironment ρ B' here e e' :=
  ⟨h.bindings.mono fun _ _ hv => hv.mono hB, h.readOnly, h.enclosing⟩

namespace RenamedStore

variable {ρ : Renaming} {B : Bearings} {s s' : Store} (h : RenamedStore ρ B s s')
include h

/-! ## Views -/

theorem enclosing? (e : EnvironmentId) : s'.enclosing? e = s.enclosing? e :=
  (h.environment e).enclosing

theorem getLocal? {e : EnvironmentId} {n n' : String} (hn : ρ.Words (B e (some 0)) n n') :
    Option.Rel (RenamedValue ρ B) (s.getLocal? e n) (s'.getLocal? e n') :=
  (h.environment e).bindings.get? hn

theorem binds {e : EnvironmentId} {n n' : String} (hn : ρ.Words (B e (some 0)) n n') :
    s'.binds e n' = s.binds e n :=
  like_isSome (h.getLocal? hn)

theorem isReadOnly {e : EnvironmentId} (he : ¬ B e (some 0)) (n : String) :
    s'.isReadOnly e n = s.isReadOnly e n := by
  unfold Store.isReadOnly
  rw [(h.environment e).readOnly he]

theorem fieldsOf {i i' : Instance} (hi : i'.id = i.id) :
    LikeTable (RenamedValue ρ B) (s.fieldsOf i) (s'.fieldsOf i') := by
  have hf := like_getElem? h.fields i.id
  simp only [Array.getElem?_toList] at hf
  unfold Store.fieldsOf
  rw [hi]
  revert hf
  generalize s.fields[i.id]? = o, s'.fields[i.id]? = o'
  rintro (hf | _)
  · exact hf
  · exact .nil

theorem elements (a : ArrayId) :
    List.Forall₂ (RenamedValue ρ B) (s.elements a).toList (s'.elements a).toList := by
  have ha := like_getElem? h.arrays a
  simp only [Array.getElem?_toList] at ha
  unfold Store.elements
  revert ha
  generalize s.arrays[a]? = o, s'.arrays[a]? = o'
  rintro (ha | _)
  · exact ha
  · exact .nil

theorem length (a : ArrayId) : s'.length a = s.length a := by
  simpa [Store.length] using (h.elements a).length_eq.symm

theorem element? (a : ArrayId) (i : Nat) :
    Option.Rel (RenamedValue ρ B) (s.element? a i) (s'.element? a i) := by
  simpa only [Store.element?, Array.getElem?_toList] using like_getElem? (h.elements a) i

/-! ## Text -/

theorem piecesWithin : ∀ (depth : Nat) (path : List ArrayId) {v v' : Value},
    RenamedValue ρ B v v' → s'.piecesWithin depth path v' = s.piecesWithin depth path v
  | 0, _, _, _, .array a => rfl
  | depth + 1, path, _, _, .array a => by
      simp only [Store.piecesWithin,
        like_map (fun _ _ hv => piecesWithin depth (a :: path) hv) (h.elements a)]
  | _, _, _, _, .callable hc => by simp only [Store.piecesWithin, hc.pieces]
  | _, _, _, _, .instance hi => by simp only [Store.piecesWithin, hi.ofClass.name]
  | _, _, _, _, .nil | _, _, _, _, .boolean _ | _, _, _, _, .number _ | _, _, _, _, .string _
  | _, _, _, _, .module _ _ => by simp only [Store.piecesWithin]

theorem pieces {v v' : Value} (hv : RenamedValue ρ B v v') : s'.pieces v' = s.pieces v := by
  have hsize : s'.arrays.size = s.arrays.size := by simpa using h.arrays.length_eq.symm
  unfold Store.pieces
  rw [hsize]
  exact h.piecesWithin _ _ hv

/-! ## Operations on environments -/

/-- A change of one environment that keeps its link keeps all bearings. -/
theorem modify {e : EnvironmentId} {f f' : Environment → Environment}
    (hf : ∀ env env', RenamedEnvironment ρ B (B e (some 0)) env env' →
      RenamedEnvironment ρ B (B e (some 0)) (f env) (f' env'))
    (hl : ∀ env, (f env).enclosing = env.enclosing) :
    RenamedStore ρ B { s with environments := s.environments.modify e f }
      { s' with environments := s'.environments.modify e f' } := by
  have hsize : (s.environments.modify e f).size = s.environments.size := by simp
  have hlinks : ∀ k, ({ s with environments := s.environments.modify e f } : Store).enclosing? k
      = s.enclosing? k := by
    intro k
    rw [Store.enclosing?, Store.environment_modify]
    split
    · exact hl _
    · rfl
  refine ⟨by simpa using h.size, fun k => ?_, h.fields, h.arrays, h.identities,
    h.charted.congr hsize hlinks⟩
  rw [Store.environment_modify, Store.environment_modify, h.size]
  split
  · rename_i hk
    exact hk.1 ▸ hf _ _ (hk.1 ▸ h.environment k)
  · exact h.environment k

variable {e : EnvironmentId} {n n' : String} {v v' : Value}

theorem put (hn : ρ.Words (B e (some 0)) n n') (hv : RenamedValue ρ B v v') :
    RenamedStore ρ B (s.put e n v) (s'.put e n' v') := by
  refine h.modify (fun env env' he => ?_) (fun env => ?_)
  · exact ⟨he.bindings.set hn hv, he.readOnly, he.enclosing⟩
  · rfl

theorem protect (hn : ρ.Words (B e (some 0)) n n') :
    RenamedStore ρ B (s.protect e n) (s'.protect e n') := by
  refine h.modify (fun env env' he => ?_) (fun env => ?_)
  · refine ⟨he.bindings, fun hh => ?_, he.enclosing⟩
    rw [hn.kept hh]
    exact congrArg (·.insert n) (he.readOnly hh)
  · rfl

/-- An environment is made, of a scope with the bearings `i`. -/
theorem newEnvironment {env env' : Environment} {i : Option Nat}
    (he : RenamedEnvironment ρ B (i = some 0) env env') {p : EnvironmentId}
    (hp : env.enclosing = some p) (hi : B p (outer i)) :
    ∃ B' : Bearings, (∀ e k, B e k → B' e k) ∧
      (s'.newEnvironment env').1 = (s.newEnvironment env).1 ∧ B' (s.newEnvironment env).1 i ∧
      RenamedStore ρ B' (s.newEnvironment env).2 (s'.newEnvironment env').2 := by
  have hB : ∀ e k, B e k → B.add s.environments.size i e k := fun _ _ => .inl
  refine ⟨B.add s.environments.size i, hB, h.size, .inr ⟨rfl, rfl⟩, ?_, fun f => ?_, ?_, ?_,
    h.identities, h.charted.newEnvironment hp hi⟩
  · rw [Store.size_newEnvironment, Store.size_newEnvironment, h.size]
  · rw [Store.environment_newEnvironment, Store.environment_newEnvironment, h.size]
    split
    · subst f
      have hnew : B.add s.environments.size i s.environments.size (some 0) ↔ i = some 0 :=
        ⟨fun hk => hk.elim (fun hk => absurd (h.charted.known hk) (Nat.lt_irrefl _))
          (fun hk => hk.2.symm), fun hk => .inr ⟨rfl, hk.symm⟩⟩
      rw [hnew]
      exact he.mono hB
    · rename_i hne
      have hold : B.add s.environments.size i f (some 0) ↔ B f (some 0) :=
        or_iff_left fun hk => hne hk.1
      rw [hold]
      exact (h.environment f).mono hB
  · exact h.fields.imp fun _ _ hf => hf.mono fun _ _ hv => hv.mono hB
  · exact h.arrays.imp fun _ _ ha => ha.imp fun _ _ hv => hv.mono hB

theorem child {p : EnvironmentId} {i : Option Nat} (hi : B p (outer i)) :
    ∃ B' : Bearings, (∀ e k, B e k → B' e k) ∧ (s'.child p).1 = (s.child p).1 ∧
      B' (s.child p).1 i ∧ RenamedStore ρ B' (s.child p).2 (s'.child p).2 := by
  have he : RenamedEnvironment ρ B (i = some 0) ⟨[], [], some p⟩ ⟨[], [], some p⟩ :=
    ⟨.nil, fun _ => rfl, rfl⟩
  exact h.newEnvironment he rfl hi

/-- An environment that holds one name from the start is of no renamed scope. -/
theorem childWith {p : EnvironmentId} {k : Option Nat} (hk : B p k) (n : String)
    (hv : RenamedValue ρ B v v') :
    ∃ B' : Bearings, (∀ e k, B e k → B' e k) ∧ (s'.childWith p n v').1 = (s.childWith p n v).1 ∧
      B' (s.childWith p n v).1 (inner k) ∧
      RenamedStore ρ B' (s.childWith p n v).2 (s'.childWith p n v').2 := by
  have hn : ρ.Words (inner k = some 0) n n := .of_not (inner_ne_zero k) n
  have he : RenamedEnvironment ρ B (inner k = some 0) ⟨[(n, v)], [], some p⟩
      ⟨[(n, v')], [], some p⟩ := ⟨.cons ⟨hn, hv⟩ .nil, fun _ => rfl, rfl⟩
  exact h.newEnvironment he rfl ((outer_inner k).symm ▸ hk)

variable {x x' : Token}

theorem define (hx : ρ.Names (B e (some 0)) x x') (hv : RenamedValue ρ B v v') :
    RenamedResult ρ (RenamedStore ρ B) (s.define e x v) (s'.define e x' v') := by
  unfold Store.define
  rw [h.binds hx.words]
  split
  · exact .error (.naming hx fun _ => rfl)
  · exact .ok (h.put hx.words hv)

theorem defineReadOnly (hx : ρ.Names (B e (some 0)) x x') (hv : RenamedValue ρ B v v') :
    RenamedResult ρ (RenamedStore ρ B) (s.defineReadOnly e x v) (s'.defineReadOnly e x' v') := by
  have hd := h.define hx hv
  unfold Store.defineReadOnly
  revert hd
  generalize s.define e x v = r, s'.define e x' v' = r'
  rintro (hs | he)
  · exact .ok (hs.protect hx.words)
  · exact .error he

theorem assignLocal? (hn : ρ.Words (B e (some 0)) n n') (hv : RenamedValue ρ B v v') :
    Option.Rel (RenamedStore ρ B) (s.assignLocal? e n v) (s'.assignLocal? e n' v') := by
  unfold Store.assignLocal?
  rw [h.binds hn]
  split
  · exact .some (h.put hn hv)
  · exact .none

/-! ## Names -/

/-- Where a depth leads, the name is one of the scope there. -/
theorem scopeAt {k : Option Nat} {d : Nat} (hk : B e k)
    (hx : ρ.Names (Renaming.Reaches k (some d)) x x') :
    RenamedResult ρ (fun f f' => f' = f ∧ ρ.Names (B f (some 0)) x x')
      (s.scopeAt e d x) (s'.scopeAt e d x') := by
  unfold Store.scopeAt
  rw [Store.ancestor?_congr h.enclosing? e d]
  cases hd : s.ancestor? e d with
  | none => exact .error (.naming hx fun _ => rfl)
  | some f =>
      refine .ok ⟨rfl, ?_⟩
      rwa [h.charted.reaches hk hd]

theorem accessAt {k : Option Nat} {d : Nat} (hk : B e k)
    (hx : ρ.Names (Renaming.Reaches k (some d)) x x') :
    RenamedResult ρ (RenamedValue ρ B) (s.accessAt e d x) (s'.accessAt e d x') := by
  have hf := h.scopeAt hk hx
  unfold Store.accessAt
  revert hf
  generalize s.scopeAt e d x = r, s'.scopeAt e d x' = r'
  rintro (⟨rfl, hf⟩ | he)
  · rename_i f
    have hv := h.getLocal? hf.words
    dsimp only
    revert hv
    generalize s.getLocal? f x.lexeme = o, s'.getLocal? f x'.lexeme = o'
    rintro (hv | _)
    · exact .ok hv
    · exact .error (.naming hx fun _ => rfl)
  · exact .error he

theorem assignAt {k : Option Nat} {d : Nat} (hk : B e k)
    (hx : ρ.Names (Renaming.Reaches k (some d)) x x') (hv : RenamedValue ρ B v v') :
    RenamedResult ρ (RenamedStore ρ B) (s.assignAt e d x v) (s'.assignAt e d x' v') := by
  have hf := h.scopeAt hk hx
  unfold Store.assignAt
  revert hf
  generalize s.scopeAt e d x = r, s'.scopeAt e d x' = r'
  rintro (⟨rfl, hf⟩ | he)
  · rename_i f
    have hs := h.assignLocal? hf.words hv
    dsimp only
    revert hs
    generalize s.assignLocal? f x.lexeme v = o, s'.assignLocal? f x'.lexeme v' = o'
    rintro (hs | _)
    · exact .ok hs
    · exact .error (.naming hx fun _ => rfl)
  · exact .error he

omit h in
/-- What is known to be in no renamed scope keeps its names. -/
theorem words_of_ne {B : Bearings} {s : Store} (h : Charted B s) {e : EnvironmentId}
    {k : Option Nat} (hk : B e k) (hne : k ≠ some 0) (n : String) :
    ρ.Words (B e (some 0)) n n :=
  .of_not (fun hh => hne ((h.here hk).mp hh)) n

theorem access_globals (x : Token) :
    RenamedResult ρ (RenamedValue ρ B) (s.access State.globals x)
      (s'.access State.globals x) := by
  have hv := h.getLocal? (words_of_ne h.charted h.charted.globals nofun x.lexeme)
  unfold Store.access
  rw [Store.chain_eq, Store.chain_eq, h.enclosing?, h.charted.root]
  simp only [List.findSome?_cons, List.findSome?_nil]
  revert hv
  generalize s.getLocal? _ _ = o, s'.getLocal? _ _ = o'
  rintro (hv | _)
  · exact .ok hv
  · exact .error (.same _)

theorem assign_globals (x : Token) (hv : RenamedValue ρ B v v') :
    RenamedResult ρ (RenamedStore ρ B) (s.assign State.globals x v)
      (s'.assign State.globals x v') := by
  have hn := words_of_ne (ρ := ρ) h.charted h.charted.globals nofun x.lexeme
  unfold Store.assign Store.holder?
  rw [Store.chain_eq, Store.chain_eq, h.enclosing?, h.charted.root]
  simp only [List.find?_cons, List.find?_nil, h.binds hn]
  cases s.binds State.globals x.lexeme with
  | true => exact .ok (h.put hn hv)
  | false => exact .error (.same _)

variable {k d : Option Nat}

theorem lookUp (hk : B e k) (hx : ρ.Names (Renaming.Reaches k d) x x') :
    RenamedResult ρ (RenamedValue ρ B) (Machine.lookUp s x d e) (Machine.lookUp s' x' d e) := by
  cases d with
  | some d => exact h.accessAt hk hx
  | none =>
      rw [hx.kept fun hr => nomatch hr.1]
      exact h.access_globals x

theorem change (hk : B e k) (hx : ρ.Names (Renaming.Reaches k d) x x')
    (hv : RenamedValue ρ B v v') :
    RenamedResult ρ (RenamedStore ρ B) (Machine.change s x d e v)
      (Machine.change s' x' d e v') := by
  cases d with
  | some d => exact h.assignAt hk hx hv
  | none =>
      rw [hx.kept fun hr => nomatch hr.1]
      exact h.assign_globals x hv

/-! ## Functions, instances and arrays -/

/-- Whatever becomes of the rest, the environments are the same. -/
theorem beside {u u' : Store} (henv : u.environments = s.environments)
    (henv' : u'.environments = s'.environments)
    (hfields : List.Forall₂ (LikeTable (RenamedValue ρ B)) u.fields.toList u'.fields.toList)
    (harrays : List.Forall₂ (fun a a' => List.Forall₂ (RenamedValue ρ B) a.toList a'.toList)
      u.arrays.toList u'.arrays.toList) (hidentities : u'.identities = u.identities) :
    RenamedStore ρ B u u' := by
  have hsame : ∀ e, u.environment e = s.environment e ∧ u'.environment e = s'.environment e := by
    intro e
    simp only [Store.environment, henv, henv', and_self]
  refine ⟨?_, fun e => ?_, hfields, harrays, hidentities, h.charted.congr ?_ fun e => ?_⟩
  · rw [henv, henv', h.size]
  · rw [(hsame e).1, (hsame e).2]
    exact h.environment e
  · rw [henv]
  · rw [Store.enclosing?, (hsame e).1]
    rfl

theorem newIdentity : RenamedStore ρ B s.newIdentity.2 s'.newIdentity.2 :=
  h.beside rfl rfl h.fields h.arrays (congrArg (· + 1) h.identities)

theorem newClosure (between : Option Nat → Option Nat) {k : Option Nat} {d d' : FunctionDecl}
    (hk : B e k) (hd : RenamedDecl ρ (between k) d d') (b : Bool) :
    RenamedClosure ρ B between (s.newClosure d e b).1 (s'.newClosure d' e b).1 ∧
      RenamedStore ρ B (s.newClosure d e b).2 (s'.newClosure d' e b).2 :=
  ⟨⟨h.identities, rfl, rfl, k, hk, hd⟩, h.newIdentity⟩

theorem newInstance {c c' : Class} (hc : RenamedClass ρ B c c') :
    RenamedInstance ρ B (s.newInstance c).1 (s'.newInstance c').1 ∧
      RenamedStore ρ B (s.newInstance c).2 (s'.newInstance c').2 := by
  refine ⟨⟨?_, hc⟩, h.beside rfl rfl ?_ h.arrays h.identities⟩
  · simpa [Store.newInstance] using h.fields.length_eq.symm
  · simp only [Store.newInstance, Array.toList_push]
    exact like_concat h.fields .nil

theorem setField {i i' : Instance} (hi : i'.id = i.id) (name : String)
    (hv : RenamedValue ρ B v v') :
    RenamedStore ρ B (s.setField i name v) (s'.setField i' name v') := by
  refine h.beside rfl rfl ?_ h.arrays h.identities
  simp only [Store.setField, Array.toList_modify, hi]
  exact like_modify (fun _ _ hf => hf.set name hv) h.fields i.id

theorem newArray {es es' : Array Value}
    (hes : List.Forall₂ (RenamedValue ρ B) es.toList es'.toList) :
    (s'.newArray es').1 = (s.newArray es).1 ∧
      RenamedStore ρ B (s.newArray es).2 (s'.newArray es').2 := by
  refine ⟨?_, h.beside rfl rfl h.fields ?_ h.identities⟩
  · simpa [Store.newArray] using h.arrays.length_eq.symm
  · simp only [Store.newArray, Array.toList_push]
    exact like_concat h.arrays hes

theorem setElement? (a : ArrayId) (i : Nat) (hv : RenamedValue ρ B v v') :
    Option.Rel (RenamedStore ρ B) (s.setElement? a i v) (s'.setElement? a i v') := by
  unfold Store.setElement?
  rw [h.length]
  split
  · refine .some (h.beside rfl rfl h.fields ?_ h.identities)
    simp only [Array.toList_modify]
    refine like_modify (fun es es' hes => ?_) h.arrays a
    simp only [Array.toList_setIfInBounds, List.set_eq_modify]
    exact like_modify (fun _ _ _ => hv) hes i
  · exact .none

/-- Binding a method makes the scope that it has around it. -/
theorem bindMethod {f f' : Closure} (hf : RenamedClosure ρ B inner f f') {i i' : Instance}
    (hi : RenamedInstance ρ B i i') :
    ∃ B' : Bearings, (∀ e k, B e k → B' e k) ∧
      RenamedClosure ρ B' id (s.bindMethod f i).1 (s'.bindMethod f' i').1 ∧
      RenamedStore ρ B' (s.bindMethod f i).2 (s'.bindMethod f' i').2 := by
  obtain ⟨k, hk, hd⟩ := hf.declaration
  obtain ⟨B', hB, hnew, hinner, hs⟩ := h.childWith hk Store.receiverName (.instance hi)
  refine ⟨B', hB, ?_⟩
  simp only [Store.bindMethod, hf.environment, hf.isInitializer, hnew]
  exact hs.newClosure id hinner hd f.isInitializer

theorem property? {i i' : Instance} (hi : RenamedInstance ρ B i i') (name : String) :
    Option.Rel (RenamedProperty ρ B) (s.property? i name) (s'.property? i' name) := by
  have hf := (h.fieldsOf hi.id).get? name
  have hm := hi.ofClass.findMethod? name
  unfold Store.property?
  revert hf hm
  generalize Table.get? _ name = o, Table.get? _ name = o', Class.findMethod? _ name = c,
    Class.findMethod? _ name = c'
  rintro (hv | _) (hm | _)
  · exact .some (.field hv)
  · exact .some (.field hv)
  · exact .some (.method hm)
  · exact .none

theorem valueOf {i i' : Instance} (hi : RenamedInstance ρ B i i') {p p' : Store.Property}
    (hp : RenamedProperty ρ B p p') :
    ∃ B' : Bearings, (∀ e k, B e k → B' e k) ∧
      RenamedValue ρ B' (s.valueOf i p).1 (s'.valueOf i' p').1 ∧
      RenamedStore ρ B' (s.valueOf i p).2 (s'.valueOf i' p').2 := by
  cases hp with
  | field hv => exact ⟨B, fun _ _ hk => hk, hv, h⟩
  | method hm =>
      obtain ⟨B', hB, hf, hs⟩ := h.bindMethod hm hi
      exact ⟨B', hB, .callable (.function hf), hs⟩

end RenamedStore

end Lox
