/-
# The world of a trail

The origins of environments, read along the chains of a store, say which
constructs an environment is inside of: `World.sites`.  With the places of
functions they are all that other modules need of a trail and a store.  Worlds
grow: what a world says once is said by every later one, because a chain is
fixed when its environment is made.
-/
import Lox.Proofs.Store
import Lox.Proofs.Trail

namespace Lox

/-- The environments of `s` are linked in `s'` as they are in `s`. -/
def Store.KeepsLinks (s s' : Store) : Prop :=
  ∀ e, e < s.environments.size → s'.enclosing? e = s.enclosing? e

/-! ## Worlds -/

/-- What texts, a trail and a store say: the visit of a place, the constructs
around an environment, and the place of a function. -/
structure World where
  visit : Place → Option Visit
  sites : EnvironmentId → Option (List Site)
  code : Nat → Option Place

namespace World

/-- Everything that `w` says is said by `w'`. -/
structure Le (w w' : World) : Prop where
  visit : ∀ {p v}, w.visit p = some v → w'.visit p = some v
  sites : ∀ {e L}, w.sites e = some L → w'.sites e = some L
  code : ∀ {i p}, w.code i = some p → w'.code i = some p

instance : LE World := ⟨Le⟩

theorem le_refl (w : World) : w ≤ w := ⟨id, id, id⟩

theorem le_trans {w w' w'' : World} (h : w ≤ w') (h' : w' ≤ w'') : w ≤ w'' :=
  ⟨fun hv => h'.visit (h.visit hv), fun hs => h'.sites (h.sites hs),
    fun hc => h'.code (h.code hc)⟩

end World

namespace Trail

/-- The world of texts, a trail and a store. -/
def world (texts : List (List Stmt)) (t : Trail) (s : Store) : World where
  visit := visitAt texts
  sites e := (s.chain e).mapM (t.origins[·]?)
  code i := t.code[i]?

/-- The notes of `t` stand in `t'` too. -/
structure Extends (t t' : Trail) : Prop where
  origins : t.origins <+: t'.origins
  code : t.code <+: t'.code

variable {texts : List (List Stmt)}

theorem Extends.trans {t t' t'' : Trail} (h : t.Extends t') (h' : t'.Extends t'') :
    t.Extends t'' :=
  ⟨h.origins.trans h'.origins, h.code.trans h'.code⟩

theorem extends_make (t : Trail) (site : Site) : t.Extends (t.make site) :=
  ⟨List.prefix_append .., List.prefix_rfl⟩

theorem extends_declare (t : Trail) (p : Place) : t.Extends (t.declare p) :=
  ⟨List.prefix_rfl, List.prefix_append ..⟩

theorem getElem?_of_prefix {α : Type} {as bs : List α} (h : as <+: bs) {i : Nat} {a : α}
    (ha : as[i]? = some a) : bs[i]? = some a := by
  obtain ⟨more, rfl⟩ := h
  rw [List.getElem?_append_left (List.getElem?_eq_some_iff.mp ha).1, ha]

theorem mapM_prefix {as bs : List Site} (h : as <+: bs) {es : List EnvironmentId}
    {L : List Site} (hL : es.mapM (as[·]?) = some L) : es.mapM (bs[·]?) = some L := by
  induction es generalizing L with
  | nil => exact hL
  | cons e es ih =>
      simp only [List.mapM_cons, Option.pure_def, Option.bind_eq_bind,
        Option.bind_eq_some_iff] at hL ⊢
      obtain ⟨site, hs, L', hL', hcons⟩ := hL
      exact ⟨site, getElem?_of_prefix h hs, L', ih hL', hcons⟩

theorem length_mapM {as : List Site} {es : List EnvironmentId} {L : List Site}
    (h : es.mapM (as[·]?) = some L) : es.length = L.length := by
  induction es generalizing L with
  | nil =>
      cases h
      rfl
  | cons e es ih =>
      simp only [List.mapM_cons, Option.pure_def, Option.bind_eq_bind,
        Option.bind_eq_some_iff] at h
      obtain ⟨site, -, L', hL', hcons⟩ := h
      cases hcons
      exact congrArg (· + 1) (ih hL')

theorem sites_lt {t : Trail} {s : Store} {e : EnvironmentId} {L : List Site}
    (h : (world texts t s).sites e = some L) : e < t.origins.length := by
  simp only [world, Store.chain_eq s e, List.mapM_cons, Option.bind_eq_bind,
    Option.bind_eq_some_iff] at h
  obtain ⟨site, hs, -⟩ := h
  exact (List.getElem?_eq_some_iff.mp hs).1

/-- Worlds grow with their trails, as long as links are kept. -/
theorem world_le {t t' : Trail} {s s' : Store} (ht : t.Extends t') (hs : s.KeepsLinks s')
    (size : t.origins.length ≤ s.environments.size) : world texts t s ≤ world texts t' s' where
  visit := id
  sites {e L} h := by
    have he : e < s.environments.size := Nat.lt_of_lt_of_le (sites_lt h) size
    show (s'.chain e).mapM _ = some L
    rw [Store.chain_congr fun f hf => hs f (Nat.lt_of_le_of_lt hf he)]
    exact mapM_prefix ht.origins h
  code h := getElem?_of_prefix ht.code h

/-- A store with the same links makes the same world. -/
theorem world_congr {t : Trail} {s s' : Store} (h : ∀ e, s'.enclosing? e = s.enclosing? e) :
    t.world texts s' = t.world texts s := by
  have hchain : ∀ e, s'.chain e = s.chain e := fun e => Store.chain_congr fun f _ => h f
  simp only [world, hchain]

/-- A text that is added says nothing about the others. -/
theorem world_append (more : List (List Stmt)) (t : Trail) (s : Store) :
    t.world texts s ≤ t.world (texts ++ more) s :=
  ⟨fun hv => visitAt_append more hv, id, id⟩

/-- The constructs around an environment that is made inside another. -/
theorem sites_newEnvironment {t : Trail} {s : Store} {env : Environment} {p : EnvironmentId}
    {L : List Site} (site : Site) (size : t.origins.length = s.environments.size)
    (hp : env.enclosing = some p) (hL : (world texts t s).sites p = some L) :
    (world texts (t.make site) (s.newEnvironment env).2).sites s.environments.size =
      some (site :: L) := by
  have hlt : p < s.environments.size := size ▸ sites_lt hL
  have hkeep : s.KeepsLinks (s.newEnvironment env).2 := fun e he => by
    rw [Store.enclosing?_newEnvironment, if_neg (Nat.ne_of_lt he)]
  have hL' := (world_le (extends_make t site) hkeep (Nat.le_of_eq size)).sites hL
  have henc : (s.newEnvironment env).2.enclosing? s.environments.size = some p := by
    rw [Store.enclosing?_newEnvironment, if_pos rfl, hp]
  have hnew : (t.make site).origins[s.environments.size]? = some site := by
    rw [make, ← size, List.getElem?_concat_length]
  simp only [world] at hL' ⊢
  rw [Store.chain_eq, henc]
  simp only [if_pos hlt]
  rw [List.mapM_cons, hnew, hL']
  rfl

end Trail

end Lox
