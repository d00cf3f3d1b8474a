/-
# Scope chains

Environments form a tree: each has at most one around it, and several may share
it.  A name is looked for along the chain of an environment, from the inside
out, and the first environment on the way that binds it settles both what a
read finds and where a write goes.

`NearestAt` describes that environment by counting links alone, so that the walk
outwards and the fast path by distance are both measured against it.  What is
proved of a store holds after any history: `Built` are the stores that
operations on environments lead to.
-/
import Lox.Proofs.Store
import Lox.Interpreter

namespace Lox.Store

/-! ## Stores that operations build -/

/-- What can be done with environments. -/
inductive Operation where
  | make
  | child (e : EnvironmentId)
  | childWith (e : EnvironmentId) (n : String) (v : Value)
  | bind (e : EnvironmentId) (n : String) (v : Value)
  | define (e : EnvironmentId) (name : Token) (v : Value)
  | defineReadOnly (e : EnvironmentId) (name : Token) (v : Value)
  | assign (e : EnvironmentId) (name : Token) (v : Value)
  | assignLocal (e : EnvironmentId) (n : String) (v : Value)
  | assignAt (e : EnvironmentId) (distance : Nat) (name : Token) (v : Value)

/-- The environment that an operation is carried out on. -/
def Operation.subject? : Operation → Option EnvironmentId
  | make => none
  | child e | childWith e _ _ | bind e _ _ | define e _ _ | defineReadOnly e _ _ | assign e _ _
  | assignLocal e _ _ | assignAt e _ _ _ => some e

/-- The store after a change; one that fails leaves the store as it was. -/
def after (s : Store) : Except RuntimeError Store → Store
  | .ok s' => s'
  | .error _ => s

/-- The store after an operation. -/
def perform (s : Store) : Operation → Store
  | .make => (s.newEnvironment default).2
  | .child e => (s.child e).2
  | .childWith e n v => (s.childWith e n v).2
  | .bind e n v => s.put e n v
  | .define e name v => s.after (s.define e name v)
  | .defineReadOnly e name v => s.after (s.defineReadOnly e name v)
  | .assign e name v => s.after (s.assign e name v)
  | .assignLocal e n v => (s.assignLocal? e n v).getD s
  | .assignAt e d name v => s.after (s.assignAt e d name v)

/-- The stores that operations on environments lead to, each carried out on one
that is there; whatever else happens in between leaves the environments
alone. -/
inductive Built : Store → Prop where
  | start : Built empty
  | perform {s : Store} (op : Operation) (h : Built s)
      (hop : ∀ e ∈ op.subject?, e < s.environments.size) : Built (s.perform op)
  | elsewhere {s s' : Store} (h : Built s) (hs : s'.environments = s.environments) : Built s'

/-- Links lead to smaller numbers, and what is read-only is bound. -/
structure Tidy (s : Store) : Prop where
  linked : s.Linked
  bound : ∀ {e n}, s.isReadOnly e n = true → s.binds e n = true

namespace Tidy

variable {s : Store}

theorem empty : Store.empty.Tidy :=
  ⟨fun e p h => (by cases h), fun {e n} h => absurd (lt_of_isReadOnly h) (Nat.not_lt_zero e)⟩

theorem congr (h : s.Tidy) {s' : Store} (hs : s'.environments = s.environments) : s'.Tidy := by
  have henv : ∀ e, s'.environment e = s.environment e := fun e => by rw [environment, hs]; rfl
  refine ⟨fun e p hp => h.linked e p ?_, fun {e n} hro => ?_⟩
  · rwa [enclosing?, henv] at hp
  · rw [isReadOnly, henv] at hro
    rw [binds, getLocal?, henv]
    exact h.bound hro

theorem put (h : s.Tidy) (e : EnvironmentId) (n : String) (v : Value) : (s.put e n v).Tidy := by
  refine ⟨fun f p hp => h.linked f p (by simpa using hp), fun {f m} hro => ?_⟩
  rw [isReadOnly_put] at hro
  rw [binds, getLocal?_put]
  split
  · rfl
  · exact h.bound hro

theorem protect (h : s.Tidy) {e : EnvironmentId} {n : String}
    (hb : e < s.environments.size → s.binds e n = true) : (s.protect e n).Tidy := by
  refine ⟨fun f p hp => h.linked f p (by simpa using hp), fun {f m} hro => ?_⟩
  rw [binds, getLocal?_protect]
  rw [isReadOnly_protect, Bool.or_eq_true] at hro
  obtain hnew | hold := hro
  · obtain ⟨rfl, he, rfl⟩ := of_decide_eq_true hnew
    exact hb he
  · exact h.bound hold

/-- An environment may be made inside one that is there. -/
theorem newEnvironment (h : s.Tidy) {env : Environment} (hro : env.readOnly = [])
    (hin : ∀ p ∈ env.enclosing, p < s.environments.size) : (s.newEnvironment env).2.Tidy := by
  refine ⟨fun f p hp => ?_, fun {f m} hro' => ?_⟩
  · rw [enclosing?_newEnvironment] at hp
    split at hp
    · rename_i hf
      exact hf ▸ hin p hp
    · exact h.linked f p hp
  · rw [isReadOnly_newEnvironment] at hro'
    rw [binds, getLocal?_newEnvironment]
    split at hro'
    · simp [hro] at hro'
    · rename_i hf
      rw [if_neg hf]
      exact h.bound hro'

theorem after (h : s.Tidy) {r : Except RuntimeError Store} (hr : ∀ s', r = .ok s' → s'.Tidy) :
    (s.after r).Tidy := by
  cases r with
  | ok s' => exact hr s' rfl
  | error e => exact h

/-- One operation keeps a store tidy. -/
theorem perform (h : s.Tidy) {op : Operation}
    (hop : ∀ e ∈ op.subject?, e < s.environments.size) : (s.perform op).Tidy := by
  cases op with
  | make => exact h.newEnvironment rfl nofun
  | child e => exact h.newEnvironment rfl hop
  | childWith e n v => exact h.newEnvironment rfl hop
  | bind e n v => exact h.put e n v
  | define e name v =>
      refine h.after fun s' hs => ?_
      obtain ⟨-, rfl⟩ := define_eq_ok.mp hs
      exact h.put e name.lexeme v
  | defineReadOnly e name v =>
      refine h.after fun s' hs => ?_
      obtain ⟨-, rfl⟩ := defineReadOnly_eq_ok.mp hs
      refine (h.put e name.lexeme v).protect fun he => ?_
      rw [binds, getLocal?_put, if_pos ⟨rfl, by simpa using he, rfl⟩]
      rfl
  | assign e name v =>
      refine h.after fun s' hs => ?_
      obtain ⟨f, -, rfl⟩ := assign_eq_ok.mp hs
      exact h.put f name.lexeme v
  | assignLocal e n v =>
      show ((s.assignLocal? e n v).getD s).Tidy
      cases hs : s.assignLocal? e n v with
      | none => exact h
      | some s' =>
          obtain ⟨-, rfl⟩ := assignLocal?_eq_some.mp hs
          exact h.put e n v
  | assignAt e d name v =>
      refine h.after fun s' hs => ?_
      obtain ⟨f, -, -, rfl⟩ := assignAt_eq_ok.mp hs
      exact h.put f name.lexeme v

end Tidy

/-- Any history of operations leaves a tidy store. -/
theorem Built.tidy {s : Store} (h : s.Built) : s.Tidy := by
  induction h with
  | start => exact .empty
  | perform op _ hop ih => exact ih.perform hop
  | elsewhere _ hs ih => exact ih.congr hs

/-! ## The nearest environment that binds a name -/

/-- From `e`, links lead outwards to `f`. -/
def Reaches (s : Store) (e f : EnvironmentId) : Prop := ∃ d, s.ancestor? e d = some f

/-- The environment `d` links outwards from `e` is `f`, which binds `n`; none on
the way there does. -/
structure NearestAt (s : Store) (e : EnvironmentId) (n : String) (d : Nat) (f : EnvironmentId) :
    Prop where
  reached : s.ancestor? e d = some f
  binding : s.binds f n = true
  passed : ∀ d' < d, ∀ g, s.ancestor? e d' = some g → s.binds g n = false

/-- The nearest environment from `e` outwards that binds `n` is `f`. -/
def Nearest (s : Store) (e : EnvironmentId) (n : String) (f : EnvironmentId) : Prop :=
  ∃ d, s.NearestAt e n d f

section
variable {s : Store} (hl : s.Linked) {e f : EnvironmentId} {n : String}
include hl

theorem mem_chain : f ∈ s.chain e ↔ s.Reaches e f := by
  simp only [List.mem_iff_getElem?, Reaches, ancestor?_eq_getElem? hl]

/-- The search along the chain finds the nearest environment. -/
theorem holder?_eq_some : s.holder? e n = some f ↔ s.Nearest e n f := by
  rw [holder?, List.find?_eq_some_iff_getElem]
  constructor
  · rintro ⟨hbinds, d, hd, hget, hpassed⟩
    refine ⟨d, ?_, hbinds, fun d' hlt g hg => ?_⟩
    · rw [ancestor?_eq_getElem? hl, List.getElem?_eq_getElem hd, hget]
    · rw [ancestor?_eq_getElem? hl] at hg
      obtain ⟨hd', rfl⟩ := List.getElem?_eq_some_iff.mp hg
      simpa using hpassed d' hlt
  · rintro ⟨d, hreached, hbinds, hpassed⟩
    rw [ancestor?_eq_getElem? hl] at hreached
    obtain ⟨hd, hget⟩ := List.getElem?_eq_some_iff.mp hreached
    refine ⟨hbinds, d, hd, hget, fun d' hlt => ?_⟩
    have hd' := Nat.lt_trans hlt hd
    have := hpassed d' hlt _ (by rw [ancestor?_eq_getElem? hl, List.getElem?_eq_getElem hd'])
    simp [this]

/-- Something on the chain binds a name exactly where there is a nearest
environment that does. -/
theorem isSome_holder? : (s.holder? e n).isSome ↔ ∃ f, s.Reaches e f ∧ s.binds f n = true := by
  rw [holder?, List.find?_isSome]
  simp only [mem_chain hl]

/-- The nearest one is what a search finds, so that there is no other. -/
theorem nearest_common_iff {g : EnvironmentId} (he : s.holder? e n = some g) :
    (∃ g', s.Nearest f n g' ∧ s.Nearest e n g') ↔ s.holder? f n = some g := by
  simp only [← holder?_eq_some hl, he]
  constructor
  · rintro ⟨g', hg', heq⟩
    rw [hg', heq]
  · exact fun hf => ⟨g, hf, rfl⟩

end

/-! ## Reads -/

section
variable (s : Store) (e : EnvironmentId) (name : Token)

/-- A read finds what the nearest environment holds. -/
theorem access_eq : s.access e name = match s.holder? e name.lexeme with
    | some f => match s.getLocal? f name.lexeme with
      | some v => .ok v
      | none => .error (undefined name)
    | none => .error (undefined name) := by
  unfold access holder?
  induction s.chain e with
  | nil => rfl
  | cons f fs ih =>
      simp only [List.findSome?_cons, List.find?_cons, binds]
      cases hf : s.getLocal? f name.lexeme with
      | none => simpa [hf, binds] using ih
      | some v => simp [hf]

end

section
variable {s : Store} {e f g : EnvironmentId} {n m : String} {v : Value}

/-- Writing to what is bound leaves every search with the same result. -/
theorem holder?_put (hf : s.binds f n = true) : (s.put f n v).holder? g m = s.holder? g m := by
  have hchain : (s.put f n v).chain g = s.chain g := chain_congr fun _ _ => enclosing?_put ..
  have hbinds : ∀ h, (s.put f n v).binds h m = s.binds h m := fun h => by
    rw [binds, getLocal?_put]
    split
    · rename_i heq
      obtain ⟨rfl, -, rfl⟩ := heq
      exact hf.symm
    · rfl
  simp only [holder?, hchain, hbinds]

/-- After writing `v` to where `n` is bound, `v` is read where the search for `n`
ends there, and what was read before anywhere else. -/
theorem access_put (hf : s.binds f n = true) (g : EnvironmentId) (name : Token) :
    (s.put f n v).access g name =
      if name.lexeme = n ∧ s.holder? g n = some f then .ok v else s.access g name := by
  have hlt : f < s.environments.size := by
    obtain ⟨u, hu⟩ := Option.isSome_iff_exists.mp hf
    exact lt_of_getLocal? hu
  rw [access_eq, access_eq, holder?_put hf]
  cases hg : s.holder? g name.lexeme with
  | none =>
      rw [if_neg]
      rintro ⟨rfl, hsome⟩
      simp [hg] at hsome
  | some h =>
      simp only [getLocal?_put]
      by_cases hhit : name.lexeme = n ∧ h = f
      · obtain ⟨rfl, rfl⟩ := hhit
        rw [if_pos ⟨rfl, hlt, rfl⟩, if_pos ⟨rfl, hg⟩]
      · rw [if_neg fun heq => hhit ⟨heq.2.2, heq.1⟩, if_neg]
        rintro ⟨rfl, hsome⟩
        exact hhit ⟨rfl, Option.some.inj (hg.symm.trans hsome)⟩

theorem access_congr {s' : Store} {name : Token} (hchain : s'.chain g = s.chain g)
    (hlocal : ∀ f ∈ s.chain g, s'.getLocal? f name.lexeme = s.getLocal? f name.lexeme) :
    s'.access g name = s.access g name := by
  unfold access
  rw [hchain]
  generalize s.chain g = fs at hlocal
  induction fs with
  | nil => rfl
  | cons f fs ih =>
      rw [List.findSome?_cons, List.findSome?_cons, hlocal f List.mem_cons_self]
      cases s.getLocal? f name.lexeme with
      | none => exact ih fun f hf => hlocal f (List.mem_cons_of_mem _ hf)
      | some v => rfl

/-- A write to `e` is not seen from environments whose chain `e` is not on, nor
through other names. -/
theorem access_put_of_unseen (hl : s.Linked) {name : Token}
    (h : ¬ s.Reaches g e ∨ name.lexeme ≠ n) : (s.put e n v).access g name = s.access g name := by
  refine access_congr (chain_congr fun _ _ => enclosing?_put ..) fun f hf => ?_
  rw [getLocal?_put, if_neg]
  rintro ⟨rfl, -, heq⟩
  exact h.elim (· ((mem_chain hl).mp hf)) (· heq)

theorem access_protect (name : Token) : (s.protect e n).access g name = s.access g name :=
  access_congr (chain_congr fun _ _ => enclosing?_protect ..) fun _ _ => getLocal?_protect ..

end

/-! ## Assignments and definitions -/

section
variable {s s' : Store} {e : EnvironmentId} {name : Token} {v : Value}

theorem assign_succeeds_iff (hl : s.Linked) :
    (∃ s', s.assign e name v = .ok s') ↔ ∃ f, s.Reaches e f ∧ s.binds f name.lexeme = true := by
  rw [← isSome_holder? hl, Option.isSome_iff_exists]
  constructor
  · rintro ⟨s', hs⟩
    obtain ⟨f, hf, -⟩ := assign_eq_ok.mp hs
    exact ⟨f, hf⟩
  · rintro ⟨f, hf⟩
    exact ⟨_, assign_eq_ok.mpr ⟨f, hf, rfl⟩⟩

theorem assign_error {err : RuntimeError} (h : s.assign e name v = .error err) :
    err = undefined name := by
  unfold assign at h
  cases hg : s.holder? e name.lexeme with
  | none => simpa [hg] using h.symm
  | some g => simp [hg] at h

/-- What is assigned is read where the search for the name ends in the same environment. -/
theorem access_assign (hl : s.Linked) (hs : s.assign e name v = .ok s') :
    ∃ g, s.holder? e name.lexeme = some g ∧ ∀ (f : EnvironmentId) (m : Token), s'.access f m =
      if m.lexeme = name.lexeme ∧ s.holder? f name.lexeme = some g then .ok v
      else s.access f m := by
  obtain ⟨g, hg, rfl⟩ := assign_eq_ok.mp hs
  obtain ⟨d, hd⟩ := (holder?_eq_some hl).mp hg
  exact ⟨g, hg, fun f m => access_put hd.binding f m⟩

/-- A definition is not seen from environments whose chain `e` is not on, nor through other
names. -/
theorem access_define (hl : s.Linked)
    (hs : s.define e name v = .ok s' ∨ s.defineReadOnly e name v = .ok s') {f : EnvironmentId}
    {m : Token} (h : ¬ s.Reaches f e ∨ m.lexeme ≠ name.lexeme) :
    s'.access f m = s.access f m := by
  obtain hs | hs := hs
  · obtain ⟨-, rfl⟩ := define_eq_ok.mp hs
    exact access_put_of_unseen hl h
  · obtain ⟨-, rfl⟩ := defineReadOnly_eq_ok.mp hs
    rw [access_protect]
    exact access_put_of_unseen hl h

end

/-! ## By distance -/

section
variable {s : Store} {e f : EnvironmentId} {name : Token} {d : Nat}

/-- At the distance of the nearest environment, a read finds what the walk
outwards finds. -/
theorem NearestAt.accessAt_eq (hl : s.Linked) (h : s.NearestAt e name.lexeme d f) :
    s.accessAt e d name = s.access e name := by
  obtain ⟨v, hv⟩ := Option.isSome_iff_exists.mp h.binding
  rw [access_eq, (holder?_eq_some hl).mpr ⟨d, h⟩]
  simp only [hv]
  exact accessAt_eq_ok.mpr ⟨f, h.reached, hv⟩

/-- At the distance of the nearest environment, a write goes where the walk
outwards ends. -/
theorem NearestAt.assignAt_eq (hl : s.Linked) (h : s.NearestAt e name.lexeme d f) (v : Value) :
    s.assignAt e d name v = s.assign e name v := by
  rw [assign_eq_ok.mpr ⟨f, (holder?_eq_some hl).mpr ⟨d, h⟩, rfl⟩]
  exact assignAt_eq_ok.mpr ⟨f, h.reached, h.binding, rfl⟩

end

/-! ## After any history -/

/-- An assignment succeeds exactly where something on the chain binds the name,
and is then seen from the environments whose nearest one is the same, through
that name, and nowhere else; one that fails changes nothing.  The way by
distance does the same.  A definition is seen only through its own name and from
chains that the environment is on, and only what is bound is read-only. -/
theorem Built.access_after_writes {s : Store} (h : s.Built) (e : EnvironmentId) (name : Token)
    (v : Value) :
    ((∃ s', s.assign e name v = .ok s') ↔ ∃ f, s.Reaches e f ∧ s.binds f name.lexeme = true) ∧
    (∀ s', s.assign e name v = .ok s' → ∀ (f : EnvironmentId) (m : Token),
      ((m.lexeme = name.lexeme ∧ ∃ g, s.Nearest f name.lexeme g ∧ s.Nearest e name.lexeme g) →
        s'.access f m = .ok v) ∧
      (¬ (m.lexeme = name.lexeme ∧ ∃ g, s.Nearest f name.lexeme g ∧ s.Nearest e name.lexeme g) →
        s'.access f m = s.access f m)) ∧
    (∀ err, s.assign e name v = .error err →
      err = undefined name ∧ s.perform (.assign e name v) = s) ∧
    (∀ d f, s.NearestAt e name.lexeme d f →
      s.accessAt e d name = s.access e name ∧ s.assignAt e d name v = s.assign e name v) ∧
    (∀ s', s.define e name v = .ok s' ∨ s.defineReadOnly e name v = .ok s' →
      ∀ (f : EnvironmentId) (m : Token), ¬ s.Reaches f e ∨ m.lexeme ≠ name.lexeme →
        s'.access f m = s.access f m) ∧
    (s.isReadOnly e name.lexeme = true → s.binds e name.lexeme = true) := by
  have hl := h.tidy.linked
  refine ⟨assign_succeeds_iff hl, fun s' hs f m => ?_,
    fun err herr => ⟨assign_error herr, congrArg s.after herr⟩,
    fun d f hf => ⟨hf.accessAt_eq hl, hf.assignAt_eq hl v⟩,
    fun s' hs f m hunseen => access_define hl hs hunseen, h.tidy.bound⟩
  obtain ⟨g, hg, haccess⟩ := access_assign hl hs
  rw [nearest_common_iff hl hg, haccess]
  exact ⟨fun hhit => if_pos hhit, fun hmiss => if_neg hmiss⟩

/-- A name that two scopes bind, one inside the other. -/
def shadowedName : Token := .implicitAt "a" default

/-- Three environments, each inside the one before; the first two bind the same
name, which is read-only in the second. -/
def nestedScopes : Store :=
  [.make, .define 0 shadowedName (.boolean false), .child 0,
    .defineReadOnly 1 shadowedName .nil, .child 1].foldl perform empty

theorem built_nestedScopes : nestedScopes.Built := by
  refine .perform (.child 1) (.perform (.defineReadOnly 1 shadowedName .nil) (.perform (.child 0)
    (.perform (.define 0 shadowedName (.boolean false)) (.perform .make .start ?_) ?_) ?_) ?_) ?_
  all_goals
    rintro e he
    cases he
    try decide

/-- From the innermost of three scopes the second is assigned to, whose value the
outermost does not see. -/
theorem access_after_writes_nested : nestedScopes.Built ∧
    nestedScopes.accessAt 2 1 shadowedName = nestedScopes.access 2 shadowedName ∧
    ∃ s', nestedScopes.assign 2 shadowedName (.boolean true) = .ok s' ∧
      s'.access 1 shadowedName = .ok (.boolean true) ∧
      s'.access 0 shadowedName = nestedScopes.access 0 shadowedName := by
  have hbinds : nestedScopes.binds 1 shadowedName.lexeme = true := by decide +kernel
  have hinner : nestedScopes.NearestAt 2 shadowedName.lexeme 1 1 := by
    refine ⟨rfl, hbinds, fun d hd g hg => ?_⟩
    obtain rfl : d = 0 := by omega
    cases hg
    decide +kernel
  have hsecond : nestedScopes.NearestAt 1 shadowedName.lexeme 0 1 := ⟨rfl, hbinds, nofun⟩
  obtain ⟨hsucceeds, hseen, -, hdistance, -, -⟩ :=
    built_nestedScopes.access_after_writes 2 shadowedName (.boolean true)
  obtain ⟨s', hs⟩ := hsucceeds.mpr ⟨1, ⟨1, rfl⟩, hbinds⟩
  refine ⟨built_nestedScopes, (hdistance 1 1 hinner).1, s', hs, ?_, ?_⟩
  · exact (hseen s' hs 1 shadowedName).1 ⟨rfl, 1, ⟨0, hsecond⟩, 1, hinner⟩
  · refine (hseen s' hs 0 shadowedName).2 ?_
    rintro ⟨-, g, ⟨d, hd⟩, hg⟩
    have hl := built_nestedScopes.tidy.linked
    obtain rfl : 1 = g := Option.some.inj
      (((holder?_eq_some hl).mpr ⟨1, hinner⟩).symm.trans ((holder?_eq_some hl).mpr hg))
    cases d with
    | zero => exact absurd hd.reached (by decide)
    | succ d => cases hd.reached

end Lox.Store
