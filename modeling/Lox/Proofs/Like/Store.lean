/-
# Stores that are alike

Alike stores keep alike values under the same numbers, in environments with the
same links.  Each operation of a store, given alike values, leaves alike stores
and has alike results.  An operation that makes an environment adds to what is
known of distances: the new one is one scope further inside than the one around
it.
-/
import Lox.Proofs.Like.Value
import Lox.Proofs.Machine

namespace Lox

/-! ## Stores -/

section
variable (R : Likeness) (W : Distances)

structure LikeEnvironment (e e' : Environment) : Prop where
  bindings : LikeTable (LikeValue R W) e.bindings e'.bindings
  readOnly : e'.readOnly = e.readOnly
  enclosing : e'.enclosing = e.enclosing

inductive LikeProperty : Store.Property → Store.Property → Prop
  | field {v v'} : LikeValue R W v v' → LikeProperty (.field v) (.field v')
  | method {f f'} : LikeClosure R W inner f f' → LikeProperty (.method f) (.method f')

/-- Alike stores, of whose environments the distances are known. -/
structure LikeStore (s s' : Store) : Prop where
  environments : List.Forall₂ (LikeEnvironment R W) s.environments.toList s'.environments.toList
  fields : List.Forall₂ (LikeTable (LikeValue R W)) s.fields.toList s'.fields.toList
  arrays : List.Forall₂ (fun a a' => List.Forall₂ (LikeValue R W) a.toList a'.toList)
    s.arrays.toList s'.arrays.toList
  identities : s'.identities = s.identities
  distances : ∀ e k, W e k → s.ancestor? e k = some State.globals
  center : W State.globals 0
  globals : State.globals < s.environments.size
  root : s.enclosing? State.globals = none

end

theorem Store.ancestor?_newEnvironment {s : Store} (env : Environment) {e f : EnvironmentId}
    {k : Nat} (h : s.ancestor? e k = some f) : (s.newEnvironment env).2.ancestor? e k = some f := by
  induction k generalizing e with
  | zero => exact h
  | succ k ih =>
      rw [Store.ancestor?] at h ⊢
      cases hp : s.enclosing? e with
      | none =>
          rw [hp] at h
          cases h
      | some p =>
          rw [hp] at h
          have he : e < s.environments.size := by
            refine Nat.lt_of_not_le fun hge => ?_
            rw [enclosing?, environment_of_ge hge] at hp
            cases hp
          rw [enclosing?_newEnvironment, if_neg (Nat.ne_of_lt he), hp]
          exact ih h

theorem Store.ancestor?_congr {s s' : Store} (h : ∀ e, s'.enclosing? e = s.enclosing? e)
    (e : EnvironmentId) (k : Nat) : s'.ancestor? e k = s.ancestor? e k := by
  induction k generalizing e with
  | zero => rfl
  | succ k ih =>
      rw [Store.ancestor?, Store.ancestor?, h e]
      cases s.enclosing? e with
      | none => rfl
      | some p => exact ih p

theorem LikeEnvironment.mono {R : Likeness} {W W' : Distances} (hW : ∀ e k, W e k → W' e k)
    {e e' : Environment} (h : LikeEnvironment R W e e') : LikeEnvironment R W' e e' :=
  ⟨h.bindings.mono fun _ _ hv => hv.mono hW, h.readOnly, h.enclosing⟩

namespace LikeStore

variable {R : Likeness} {W : Distances} {s s' : Store} (h : LikeStore R W s s')
include h

/-! ## Views -/

theorem size : s'.environments.size = s.environments.size := by
  simpa using h.environments.length_eq.symm

theorem environment (e : EnvironmentId) :
    LikeEnvironment R W (s.environment e) (s'.environment e) := by
  have he := like_getElem? h.environments e
  simp only [Array.getElem?_toList] at he
  unfold Store.environment
  revert he
  generalize s.environments[e]? = o, s'.environments[e]? = o'
  rintro (he | _)
  · exact he
  · exact ⟨.nil, rfl, rfl⟩

theorem enclosing? (e : EnvironmentId) : s'.enclosing? e = s.enclosing? e :=
  (h.environment e).enclosing

theorem ancestor? (e : EnvironmentId) (d : Nat) : s'.ancestor? e d = s.ancestor? e d :=
  Store.ancestor?_congr h.enclosing? e d

theorem chain (e : EnvironmentId) : s'.chain e = s.chain e :=
  Store.chain_congr fun f _ => h.enclosing? f

theorem getLocal? (e : EnvironmentId) (n : String) :
    Option.Rel (LikeValue R W) (s.getLocal? e n) (s'.getLocal? e n) :=
  (h.environment e).bindings.get? n

theorem binds (e : EnvironmentId) (n : String) : s'.binds e n = s.binds e n :=
  like_isSome (h.getLocal? e n)

theorem isReadOnly (e : EnvironmentId) (n : String) : s'.isReadOnly e n = s.isReadOnly e n := by
  unfold Store.isReadOnly
  rw [(h.environment e).readOnly]

theorem fieldsOf {i i' : Instance} (hi : i'.id = i.id) :
    LikeTable (LikeValue R W) (s.fieldsOf i) (s'.fieldsOf i') := by
  have hf := like_getElem? h.fields i.id
  simp only [Array.getElem?_toList] at hf
  unfold Store.fieldsOf
  rw [hi]
  revert hf
  generalize s.fields[i.id]? = o, s'.fields[i.id]? = o'
  rintro (hf | _)
  · exact hf
  · exact .nil

theorem elements (a : ArrayId) :
    List.Forall₂ (LikeValue R W) (s.elements a).toList (s'.elements a).toList := by
  have ha := like_getElem? h.arrays a
  simp only [Array.getElem?_toList] at ha
  unfold Store.elements
  revert ha
  generalize s.arrays[a]? = o, s'.arrays[a]? = o'
  rintro (ha | _)
  · exact ha
  · exact .nil

theorem length (a : ArrayId) : s'.length a = s.length a := by
  simpa [Store.length] using (h.elements a).length_eq.symm

theorem element? (a : ArrayId) (i : Nat) :
    Option.Rel (LikeValue R W) (s.element? a i) (s'.element? a i) := by
  simpa only [Store.element?, Array.getElem?_toList] using like_getElem? (h.elements a) i

/-! ## Text -/

theorem piecesWithin (hR : R.OfRuns) : ∀ (depth : Nat) (path : List ArrayId) {v v' : Value},
    LikeValue R W v v' → s'.piecesWithin depth path v' = s.piecesWithin depth path v
  | 0, _, _, _, .array a => rfl
  | depth + 1, path, _, _, .array a => by
      simp only [Store.piecesWithin,
        like_map (fun _ _ hv => piecesWithin hR depth (a :: path) hv) (h.elements a)]
  | _, _, _, _, .callable hc => by simp only [Store.piecesWithin, hc.pieces hR]
  | _, _, _, _, .instance hi => by
      simp only [Store.piecesWithin, hR.lexeme_name hi.ofClass.name]
  | _, _, _, _, .nil | _, _, _, _, .boolean _ | _, _, _, _, .number _ | _, _, _, _, .string _
  | _, _, _, _, .module _ => by simp only [Store.piecesWithin]

theorem pieces (hR : R.OfRuns) {v v' : Value} (hv : LikeValue R W v v') :
    s'.pieces v' = s.pieces v := by
  have hsize : s'.arrays.size = s.arrays.size := by simpa using h.arrays.length_eq.symm
  unfold Store.pieces
  rw [hsize]
  exact h.piecesWithin hR _ _ hv

/-! ## Operations on environments -/

/-- A change that keeps links keeps distances. -/
theorem modify {f f' : Environment → Environment}
    (hf : ∀ e e', LikeEnvironment R W e e' → LikeEnvironment R W (f e) (f' e'))
    (hl : ∀ e, (f e).enclosing = e.enclosing) (e : EnvironmentId) :
    LikeStore R W { s with environments := s.environments.modify e f }
      { s' with environments := s'.environments.modify e f' } := by
  have hlinks : ∀ k, ({ s with environments := s.environments.modify e f } : Store).enclosing? k
      = s.enclosing? k := by
    intro k
    rw [Store.enclosing?, Store.environment_modify]
    split
    · exact hl _
    · rfl
  refine ⟨?_, h.fields, h.arrays, h.identities, fun k d hk => ?_, h.center, ?_, ?_⟩
  · simp only [Array.toList_modify]
    exact like_modify hf h.environments e
  · rw [Store.ancestor?_congr hlinks]
    exact h.distances k d hk
  · simpa using h.globals
  · rw [hlinks]
    exact h.root

theorem put {v v' : Value} (hv : LikeValue R W v v') (e : EnvironmentId) (n : String) :
    LikeStore R W (s.put e n v) (s'.put e n v') := by
  refine h.modify (fun env env' he => ?_) (fun env => ?_) e
  · exact ⟨he.bindings.set n hv, he.readOnly, he.enclosing⟩
  · rfl

theorem protect (e : EnvironmentId) (n : String) :
    LikeStore R W (s.protect e n) (s'.protect e n) := by
  refine h.modify (fun env env' he => ?_) (fun env => ?_) e
  · exact ⟨he.bindings, congrArg (·.insert n) he.readOnly, he.enclosing⟩
  · rfl

theorem newEnvironment {env env' : Environment} (he : LikeEnvironment R W env env')
    {p : EnvironmentId} (hp : env.enclosing = some p) :
    ∃ W' : Distances, (∀ e k, W e k → W' e k) ∧
      (s'.newEnvironment env').1 = (s.newEnvironment env).1 ∧
      (∀ m, Within W m p → Within W' (inner m) (s.newEnvironment env).1) ∧
      LikeStore R W' (s.newEnvironment env).2 (s'.newEnvironment env').2 := by
  have hlink : (s.newEnvironment env).2.enclosing? s.environments.size = some p := by
    rw [Store.enclosing?_newEnvironment, if_pos rfl, hp]
  have hW : ∀ e k, W e k → (s.newEnvironment env).2.ancestor? e k = some State.globals :=
    fun e k hk => Store.ancestor?_newEnvironment env (h.distances e k hk)
  refine ⟨fun e k => (s.newEnvironment env).2.ancestor? e k = some State.globals, hW,
    h.size, ?_, ?_⟩
  · intro m hm k hk
    obtain ⟨j, rfl, rfl⟩ := Option.map_eq_some_iff.mp hk
    show Store.ancestor? _ s.environments.size (j + 1) = _
    rw [Store.ancestor?, hlink]
    exact hW p j (hm j rfl)
  · refine ⟨?_, ?_, ?_, h.identities, fun _ _ hk => hk, rfl, ?_, ?_⟩
    · simp only [Store.newEnvironment, Array.toList_push]
      exact like_concat (h.environments.imp fun _ _ he => he.mono hW) (he.mono hW)
    · exact h.fields.imp fun _ _ hf => hf.mono fun _ _ hv => hv.mono hW
    · exact h.arrays.imp fun _ _ ha => ha.imp fun _ _ hv => hv.mono hW
    · rw [Store.size_newEnvironment]
      exact Nat.lt_succ_of_lt h.globals
    · rw [Store.enclosing?_newEnvironment, if_neg (Nat.ne_of_lt h.globals)]
      exact h.root

theorem child (e : EnvironmentId) :
    ∃ W' : Distances, (∀ e k, W e k → W' e k) ∧ (s'.child e).1 = (s.child e).1 ∧
      (∀ m, Within W m e → Within W' (inner m) (s.child e).1) ∧
      LikeStore R W' (s.child e).2 (s'.child e).2 := by
  have he : LikeEnvironment R W ⟨[], [], some e⟩ ⟨[], [], some e⟩ := ⟨.nil, rfl, rfl⟩
  exact h.newEnvironment he rfl

theorem childWith (e : EnvironmentId) (name : String) {v v' : Value} (hv : LikeValue R W v v') :
    ∃ W' : Distances, (∀ e k, W e k → W' e k) ∧
      (s'.childWith e name v').1 = (s.childWith e name v).1 ∧
      (∀ m, Within W m e → Within W' (inner m) (s.childWith e name v).1) ∧
      LikeStore R W' (s.childWith e name v).2 (s'.childWith e name v').2 := by
  have he : LikeEnvironment R W ⟨[(name, v)], [], some e⟩ ⟨[(name, v')], [], some e⟩ :=
    ⟨.cons ⟨rfl, hv⟩ .nil, rfl, rfl⟩
  exact h.newEnvironment he rfl

variable {n n' : Token} {v v' : Value}

theorem define (hR : R.OfRuns) (hn : R.token n n') (hv : LikeValue R W v v') (e : EnvironmentId) :
    LikeResult R (LikeStore R W) (s.define e n v) (s'.define e n' v') := by
  unfold Store.define
  rw [hR.lexeme hn, h.binds]
  split
  · exact .error (.blaming hn _)
  · exact .ok (h.put hv e _)

theorem defineReadOnly (hR : R.OfRuns) (hn : R.token n n') (hv : LikeValue R W v v')
    (e : EnvironmentId) :
    LikeResult R (LikeStore R W) (s.defineReadOnly e n v) (s'.defineReadOnly e n' v') := by
  have hd := h.define hR hn hv e
  unfold Store.defineReadOnly
  rw [hR.lexeme hn]
  revert hd
  generalize s.define e n v = r, s'.define e n' v' = r'
  rintro (hs | he)
  · exact .ok (hs.protect e _)
  · exact .error he

theorem assignLocal? (hv : LikeValue R W v v') (e : EnvironmentId) (name : String) :
    Option.Rel (LikeStore R W) (s.assignLocal? e name v) (s'.assignLocal? e name v') := by
  unfold Store.assignLocal?
  rw [h.binds]
  split
  · exact .some (h.put hv e name)
  · exact .none

/-! ## Names -/

omit h in
theorem undefined (hR : R.OfRuns) (hn : R.token n n') :
    LikeError R (Store.undefined n) (Store.undefined n') := by
  unfold Store.undefined
  rw [hR.lexeme hn]
  exact .blaming hn _

theorem scopeAt (hR : R.OfRuns) (hn : R.token n n') (e : EnvironmentId) (d : Nat) :
    LikeResult R Eq (s.scopeAt e d n) (s'.scopeAt e d n') := by
  unfold Store.scopeAt
  rw [h.ancestor?, hR.lexeme hn]
  split
  · exact .ok rfl
  · exact .error (.blaming hn _)

theorem access (hR : R.OfRuns) (hn : R.token n n') (e : EnvironmentId) :
    LikeResult R (LikeValue R W) (s.access e n) (s'.access e n') := by
  have hfind : ∀ es : List EnvironmentId, Option.Rel (LikeValue R W)
      (es.findSome? (s.getLocal? · n.lexeme)) (es.findSome? (s'.getLocal? · n.lexeme)) := by
    intro es
    induction es with
    | nil => exact .none
    | cons f es ih =>
        have hf := h.getLocal? f n.lexeme
        simp only [List.findSome?_cons]
        revert hf
        generalize s.getLocal? f n.lexeme = o, s'.getLocal? f n.lexeme = o'
        rintro (hv | _)
        · exact .some hv
        · exact ih
  have hv := hfind (s.chain e)
  unfold Store.access
  rw [h.chain, hR.lexeme hn]
  revert hv
  generalize List.findSome? _ _ = o, List.findSome? _ _ = o'
  rintro (hv | _)
  · exact .ok hv
  · exact .error (undefined hR hn)

theorem assign (hR : R.OfRuns) (hn : R.token n n') (hv : LikeValue R W v v')
    (e : EnvironmentId) : LikeResult R (LikeStore R W) (s.assign e n v) (s'.assign e n' v') := by
  have hholder : s'.holder? e n.lexeme = s.holder? e n.lexeme := by
    unfold Store.holder?
    rw [h.chain]
    exact congrArg (List.find? · _) (funext fun f => h.binds f n.lexeme)
  unfold Store.assign
  rw [hR.lexeme hn, hholder]
  split
  · exact .ok (h.put hv _ _)
  · exact .error (undefined hR hn)

theorem accessAt (hR : R.OfRuns) (hn : R.token n n') (e : EnvironmentId) (d : Nat) :
    LikeResult R (LikeValue R W) (s.accessAt e d n) (s'.accessAt e d n') := by
  have hf := h.scopeAt hR hn e d
  unfold Store.accessAt
  rw [hR.lexeme hn]
  revert hf
  generalize s.scopeAt e d n = r, s'.scopeAt e d n' = r'
  rintro (⟨⟨⟩⟩ | he)
  · rename_i f
    have hv := h.getLocal? f n.lexeme
    dsimp only
    revert hv
    generalize s.getLocal? f n.lexeme = o, s'.getLocal? f n.lexeme = o'
    rintro (hv | _)
    · exact .ok hv
    · exact .error (undefined hR hn)
  · exact .error he

theorem assignAt (hR : R.OfRuns) (hn : R.token n n') (hv : LikeValue R W v v')
    (e : EnvironmentId) (d : Nat) :
    LikeResult R (LikeStore R W) (s.assignAt e d n v) (s'.assignAt e d n' v') := by
  have hf := h.scopeAt hR hn e d
  unfold Store.assignAt
  rw [hR.lexeme hn]
  revert hf
  generalize s.scopeAt e d n = r, s'.scopeAt e d n' = r'
  rintro (⟨⟨⟩⟩ | he)
  · rename_i f
    have hs := h.assignLocal? hv f n.lexeme
    dsimp only
    revert hs
    generalize s.assignLocal? f n.lexeme v = o, s'.assignLocal? f n.lexeme v' = o'
    rintro (hs | _)
    · exact .ok hs
    · exact .error (undefined hR hn)
  · exact .error he

/-- Alike names stand for alike values, also where only one has a depth. -/
theorem lookUp (hR : R.OfRuns) (hn : R.token n n') {m d d' : Option Nat} (hd : R.depth m d d')
    {e : EnvironmentId} (hm : Within W m e) :
    LikeResult R (LikeValue R W) (Machine.lookUp s n d e) (Machine.lookUp s' n' d' e) := by
  rcases hR.depth hd with rfl | ⟨rfl, k, rfl, rfl⟩
  · cases d' with
    | some d => exact h.accessAt hR hn e d
    | none => exact h.access hR hn State.globals
  · have hk : s'.ancestor? e k = some State.globals :=
      (h.ancestor? e k).trans (h.distances e k (hm k rfl))
    rw [Machine.lookUp_outermost ((h.enclosing? _).trans h.root) hk]
    exact h.access hR hn State.globals

/-- Alike names change alike, also where only one has a depth. -/
theorem change (hR : R.OfRuns) (hn : R.token n n') {m d d' : Option Nat} (hd : R.depth m d d')
    {e : EnvironmentId} (hm : Within W m e) (hv : LikeValue R W v v') :
    LikeResult R (LikeStore R W) (Machine.change s n d e v) (Machine.change s' n' d' e v') := by
  rcases hR.depth hd with rfl | ⟨rfl, k, rfl, rfl⟩
  · cases d' with
    | some d => exact h.assignAt hR hn hv e d
    | none => exact h.assign hR hn hv State.globals
  · have hk : s'.ancestor? e k = some State.globals :=
      (h.ancestor? e k).trans (h.distances e k (hm k rfl))
    rw [Machine.change_outermost ((h.enclosing? _).trans h.root) hk]
    exact h.assign hR hn hv State.globals

/-! ## Functions, instances and arrays -/

/-- Whatever becomes of the rest, the environments are the same. -/
theorem beside {u u' : Store} (henv : u.environments = s.environments)
    (henv' : u'.environments = s'.environments)
    (hfields : List.Forall₂ (LikeTable (LikeValue R W)) u.fields.toList u'.fields.toList)
    (harrays : List.Forall₂ (fun a a' => List.Forall₂ (LikeValue R W) a.toList a'.toList)
      u.arrays.toList u'.arrays.toList) (hidentities : u'.identities = u.identities) :
    LikeStore R W u u' := by
  have hlinks : ∀ e, u.enclosing? e = s.enclosing? e := by
    intro e
    simp only [Store.enclosing?, Store.environment, henv]
  refine ⟨?_, hfields, harrays, hidentities, fun e k hk => ?_, h.center, ?_, ?_⟩
  · rw [henv, henv']
    exact h.environments
  · rw [Store.ancestor?_congr hlinks]
    exact h.distances e k hk
  · rw [henv]
    exact h.globals
  · rw [hlinks]
    exact h.root

theorem newIdentity : LikeStore R W s.newIdentity.2 s'.newIdentity.2 :=
  h.beside rfl rfl h.fields h.arrays (congrArg (· + 1) h.identities)

theorem newClosure (between : Option Nat → Option Nat) {m : Option Nat} {d d' : FunctionDecl}
    {e : EnvironmentId} (hm : Within W m e) (hd : LikeDecl R (between m) d d') (b : Bool) :
    LikeClosure R W between (s.newClosure d e b).1 (s'.newClosure d' e b).1 ∧
      LikeStore R W (s.newClosure d e b).2 (s'.newClosure d' e b).2 :=
  ⟨⟨h.identities, rfl, rfl, m, hm, hd⟩, h.newIdentity⟩

theorem newInstance {c c' : Class} (hc : LikeClass R W c c') :
    LikeInstance R W (s.newInstance c).1 (s'.newInstance c').1 ∧
      LikeStore R W (s.newInstance c).2 (s'.newInstance c').2 := by
  refine ⟨⟨?_, hc⟩, h.beside rfl rfl ?_ h.arrays h.identities⟩
  · simpa [Store.newInstance] using h.fields.length_eq.symm
  · simp only [Store.newInstance, Array.toList_push]
    exact like_concat h.fields .nil

theorem setField {i i' : Instance} (hi : i'.id = i.id) (name : String)
    (hv : LikeValue R W v v') : LikeStore R W (s.setField i name v) (s'.setField i' name v') := by
  refine h.beside rfl rfl ?_ h.arrays h.identities
  simp only [Store.setField, Array.toList_modify, hi]
  exact like_modify (fun _ _ hf => hf.set name hv) h.fields i.id

theorem newArray {es es' : Array Value}
    (hes : List.Forall₂ (LikeValue R W) es.toList es'.toList) :
    (s'.newArray es').1 = (s.newArray es).1 ∧
      LikeStore R W (s.newArray es).2 (s'.newArray es').2 := by
  refine ⟨?_, h.beside rfl rfl h.fields ?_ h.identities⟩
  · simpa [Store.newArray] using h.arrays.length_eq.symm
  · simp only [Store.newArray, Array.toList_push]
    exact like_concat h.arrays hes

theorem setElement? (a : ArrayId) (i : Nat) (hv : LikeValue R W v v') :
    Option.Rel (LikeStore R W) (s.setElement? a i v) (s'.setElement? a i v') := by
  unfold Store.setElement?
  rw [h.length]
  split
  · refine .some (h.beside rfl rfl h.fields ?_ h.identities)
    simp only [Array.toList_modify]
    refine like_modify (fun es es' hes => ?_) h.arrays a
    simp only [Array.toList_setIfInBounds, List.set_eq_modify]
    exact like_modify (fun _ _ _ => hv) hes i
  · exact .none

/-- Binding a method makes the scope that it has around it. -/
theorem bindMethod {f f' : Closure} (hf : LikeClosure R W inner f f') {i i' : Instance}
    (hi : LikeInstance R W i i') :
    ∃ W' : Distances, (∀ e k, W e k → W' e k) ∧
      LikeClosure R W' id (s.bindMethod f i).1 (s'.bindMethod f' i').1 ∧
      LikeStore R W' (s.bindMethod f i).2 (s'.bindMethod f' i').2 := by
  obtain ⟨m, hm, hd⟩ := hf.declaration
  obtain ⟨W', hW, hnew, hinner, hs⟩ :=
    h.childWith f.environment Store.receiverName (.instance hi)
  refine ⟨W', hW, ?_⟩
  simp only [Store.bindMethod, hf.environment, hf.isInitializer, hnew]
  exact hs.newClosure id (hinner m hm) hd f.isInitializer

theorem property? {i i' : Instance} (hi : LikeInstance R W i i') (name : String) :
    Option.Rel (LikeProperty R W) (s.property? i name) (s'.property? i' name) := by
  have hf := (h.fieldsOf hi.id).get? name
  have hm := hi.ofClass.findMethod? name
  unfold Store.property?
  revert hf hm
  generalize Table.get? _ name = o, Table.get? _ name = o', Class.findMethod? _ name = c,
    Class.findMethod? _ name = c'
  rintro (hv | _) (hm | _)
  · exact .some (.field hv)
  · exact .some (.field hv)
  · exact .some (.method hm)
  · exact .none

theorem valueOf {i i' : Instance} (hi : LikeInstance R W i i') {p p' : Store.Property}
    (hp : LikeProperty R W p p') :
    ∃ W' : Distances, (∀ e k, W e k → W' e k) ∧
      LikeValue R W' (s.valueOf i p).1 (s'.valueOf i' p').1 ∧
      LikeStore R W' (s.valueOf i p).2 (s'.valueOf i' p').2 := by
  cases hp with
  | field hv => exact ⟨W, fun _ _ hk => hk, hv, h⟩
  | method hm =>
      obtain ⟨W', hW, hf, hs⟩ := h.bindMethod hm hi
      exact ⟨W', hW, .callable (.function hf), hs⟩

end LikeStore

end Lox
