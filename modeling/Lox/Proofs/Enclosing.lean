/-
# The class around a place

`this` and `super` belong to the innermost class in one of whose methods they stand,
`enclosingClass?`.  What stands in the superclass of a class is in none of its methods,
and so belongs to a class further outside.

Of the scopes that the resolver has at a place the innermost one for a `this` was pushed
for that class, no other was, and right outside of it is the one for the `super` of the
class, if it has a superclass: `visitAt_enclosed`.
-/
import Lox.Proofs.Around
import Lox.Proofs.Keywords
import Mathlib.Data.List.Nodup

namespace Lox

/-- Whether the node is a class. -/
def Node.isClass : Node → Bool
  | .stmt (.classDecl ..) => true
  | _ => false

/-- The innermost class in one of whose methods the place is. -/
def enclosingClass? (texts : List (List Stmt)) : Place → Option Place
  | [] => none
  | i :: p =>
    if (nodeAt texts p).any Node.isClass && i ≠ 0 then some p else enclosingClass? texts p

/-- The class at `q` has a superclass. -/
def Inherits (texts : List (List Stmt)) (q : Place) : Prop :=
  ∃ name e ms, nodeAt texts q = some (.stmt (.classDecl name (some e) ms))

/-- The place of the construct for which a scope was pushed. -/
def Site.place? : Site → Option Place
  | .program => none
  | .block p | .call p | .receiver p | .superclass p | .selfName p | .members p => some p

/-- What the scopes at a place say of the class around it. -/
structure Enclosed (texts : List (List Stmt)) (p : Place) (sites : List Site) : Prop where
  outside : ∀ s ∈ sites, ∀ q, s.place? = some q → q.length < p.length
  nodup : sites.Nodup
  innermost : ∀ q, enclosingClass? texts p = some q →
    ∃ d : Nat, sites[d]? = some (.receiver q) ∧ ∀ k < d, ∀ r, sites[k]? ≠ some (.receiver r)
  derived : ∀ (k : Nat) q, sites[k]? = some (.receiver q) → Inherits texts q →
    sites[k + 1]? = some (.superclass q)

section
variable {texts : List (List Stmt)} {p : Place} {v w : Visit}

theorem nodeAt_of_visitAt (h : visitAt texts p = some v) : nodeAt texts p = some v.node := by
  rw [← node_visitAt, h]
  rfl

/-- Only the methods of a class belong to it. -/
theorem enclosingClass?_cons (h : visitAt texts p = some v) (i : Nat)
    (hclass : v.node.isClass = true → i = 0) :
    enclosingClass? texts (i :: p) = enclosingClass? texts p := by
  rw [enclosingClass?, nodeAt_of_visitAt h, if_neg]
  intro hmethod
  obtain ⟨hnode, hi⟩ := (Bool.and_eq_true ..).mp hmethod
  exact of_decide_eq_true hi (hclass hnode)

theorem enclosingClass?_method {name : Token} {e : Option Expr} {ms : List FunctionDecl}
    (h : nodeAt texts p = some (.stmt (.classDecl name e ms))) {i : Nat} (hi : i ≠ 0) :
    enclosingClass? texts (i :: p) = some p := by
  rw [enclosingClass?, h, if_pos]
  exact (Bool.and_eq_true ..).mpr ⟨rfl, decide_eq_true hi⟩

/-- The first child of a class is its superclass. -/
theorem Visit.ne_zero_of_method {c c' : Context} {name : Token} {e : Option Expr}
    {ms : List FunctionDecl} {i : Nat} {kind : FunctionKind} {d : FunctionDecl}
    (h : Visit.child p ⟨c, .stmt (.classDecl name e ms)⟩ i = some ⟨c', .function kind d⟩) :
    i ≠ 0 := by
  rintro rfl
  cases e with
  | none => exact absurd (method_pos h) (Nat.lt_irrefl 0)
  | some e => cases h

end

namespace Enclosed

variable {texts : List (List Stmt)} {p : Place} {sites : List Site}

/-- A child in the same scopes. -/
theorem same (h : Enclosed texts p sites) {i : Nat}
    (hclass : enclosingClass? texts (i :: p) = enclosingClass? texts p) :
    Enclosed texts (i :: p) sites where
  outside s hs q hq := Nat.lt_succ_of_lt (h.outside s hs q hq)
  nodup := h.nodup
  innermost := hclass ▸ h.innermost
  derived := h.derived

/-- The scope of a construct at `p` is a new one. -/
theorem not_mem (h : Enclosed texts p sites) {s : Site} (hs : s.place? = some p) :
    s ∉ sites :=
  fun hmem => Nat.lt_irrefl _ (h.outside s hmem p hs)

/-- A child in the scope of a construct that is no class. -/
theorem push (h : Enclosed texts p sites) {i : Nat}
    (hclass : enclosingClass? texts (i :: p) = enclosingClass? texts p) {s : Site}
    (hs : s.place? = some p) (hreceiver : ∀ q, s ≠ .receiver q) :
    Enclosed texts (i :: p) (s :: sites) where
  outside := by
    refine List.forall_mem_cons.mpr ⟨fun q hq => ?_, (h.same hclass).outside⟩
    cases hs.symm.trans hq
    exact Nat.lt_succ_self _
  nodup := List.nodup_cons.mpr ⟨h.not_mem hs, h.nodup⟩
  innermost q hq := by
    obtain ⟨d, hd, hinner⟩ := h.innermost q (hclass ▸ hq)
    refine ⟨d + 1, hd, fun k hk r hr => ?_⟩
    cases k with
    | zero => exact hreceiver r (Option.some.inj hr)
    | succ k => exact hinner k (Nat.lt_of_succ_lt_succ hk) r hr
  derived k q hk hinherits := by
    cases k with
    | zero => exact absurd (Option.some.inj hk) (hreceiver q)
    | succ k => exact h.derived k q hk hinherits

/-- A method of a class without a superclass. -/
theorem method (h : Enclosed texts p sites) {i : Nat} {name : Token} {ms : List FunctionDecl}
    (hnode : nodeAt texts p = some (.stmt (.classDecl name none ms))) (hi : i ≠ 0) :
    Enclosed texts (i :: p) (.receiver p :: sites) where
  outside := by
    refine List.forall_mem_cons.mpr ⟨fun q hq => ?_, fun s hs q hq => ?_⟩
    · cases hq
      exact Nat.lt_succ_self _
    · exact Nat.lt_succ_of_lt (h.outside s hs q hq)
  nodup := List.nodup_cons.mpr ⟨h.not_mem rfl, h.nodup⟩
  innermost q hq := by
    cases (enclosingClass?_method hnode hi).symm.trans hq
    exact ⟨0, rfl, nofun⟩
  derived k q hk hinherits := by
    cases k with
    | zero =>
        cases hk
        obtain ⟨name', e, ms', hnode'⟩ := hinherits
        cases hnode.symm.trans hnode'
    | succ k => exact h.derived k q hk hinherits

/-- A method of a class with a superclass. -/
theorem methodOfHeir (h : Enclosed texts p sites) {i : Nat} {name : Token} {e : Expr}
    {ms : List FunctionDecl}
    (hnode : nodeAt texts p = some (.stmt (.classDecl name (some e) ms))) (hi : i ≠ 0) :
    Enclosed texts (i :: p) (.receiver p :: .superclass p :: sites) where
  outside := by
    have hhere : ∀ s : Site, s.place? = some p → ∀ q, s.place? = some q →
        q.length < (i :: p).length := by
      intro s hs q hq
      cases hs.symm.trans hq
      exact Nat.lt_succ_self _
    exact List.forall_mem_cons.mpr ⟨hhere _ rfl, List.forall_mem_cons.mpr ⟨hhere _ rfl,
      fun s hs q hq => Nat.lt_succ_of_lt (h.outside s hs q hq)⟩⟩
  nodup := by
    refine List.nodup_cons.mpr ⟨fun hmem => ?_, List.nodup_cons.mpr ⟨h.not_mem rfl, h.nodup⟩⟩
    rcases List.mem_cons.mp hmem with heq | hmem
    · cases heq
    · exact h.not_mem rfl hmem
  innermost q hq := by
    cases (enclosingClass?_method hnode hi).symm.trans hq
    exact ⟨0, rfl, nofun⟩
  derived k q hk hinherits := by
    match k with
    | 0 =>
        cases hk
        rfl
    | 1 => cases hk
    | k + 2 => exact h.derived k q hk hinherits

end Enclosed

section
variable {texts : List (List Stmt)} {p : Place} {v w : Visit}

theorem Context.sites_lambda (c : Context) (p : Place) (d : FunctionDecl) :
    (c.lambda p d).sites = c.sites ∨ (c.lambda p d).sites = .selfName p :: c.sites := by
  obtain ⟨keyword, name, params, body⟩ := d
  cases name with
  | none => exact .inl rfl
  | some name => exact .inr rfl

theorem Context.sites_declared (c : Context) (d : FunctionDecl) :
    (c.declared d).sites = c.sites := by
  obtain ⟨keyword, name, params, body⟩ := d
  cases name <;> rfl

/-- What is said of a node is said of its children. -/
theorem Enclosed.child {i : Nat} (h : Enclosed texts p v.context.sites)
    (hv : visitAt texts p = some v) (hchild : v.child p i = some w) :
    Enclosed texts (i :: p) w.context.sites := by
  have hpush : ∀ s : Site, s.place? = some p → (∀ q, s ≠ .receiver q) →
      (v.node.isClass = true → i = 0) →
      Enclosed texts (i :: p) (s :: v.context.sites) :=
    fun s hs hreceiver hclass => h.push (enclosingClass?_cons hv i hclass) hs hreceiver
  cases Visit.enters_child hchild with
  | @operand c node e =>
      -- an operand of a class is its superclass
      refine h.same (enclosingClass?_cons hv i fun hclass => ?_)
      cases i with
      | zero => rfl
      | succ i =>
          cases node with
          | stmt st =>
              cases st with
              | classDecl name superclass ms =>
                  cases superclass <;> obtain ⟨d, -, hd⟩ := Visit.method_eq hchild <;>
                    cases congrArg Visit.node hd
              | _ => cases hclass
          | _ => cases hclass
  | text =>
      rw [Context.sites_through]
      exact h.same (enclosingClass?_cons hv i nofun)
  | @lambda c d =>
      rcases c.sites_lambda p d with hsites | hsites
      · exact hsites ▸ h.same (enclosingClass?_cons hv i nofun)
      · exact hsites ▸ hpush (.selfName p) rfl nofun nofun
  | varInitializer | letInitializer => exact h.same (enclosingClass?_cons hv i nofun)
  | block =>
      rw [Context.sites_through]
      exact hpush (.block p) rfl nofun nofun
  | onTrue | onFalse | loopBody | loopStep => exact h.same (enclosingClass?_cons hv i nofun)
  | @declared c d =>
      exact c.sites_declared d ▸ h.same (enclosingClass?_cons hv i nofun)
  | @superclass c name e ms =>
      refine h.same (enclosingClass?_cons hv i fun _ => ?_)
      cases i with
      | zero => rfl
      | succ i =>
          obtain ⟨d, -, hd⟩ := Visit.method_eq hchild
          cases congrArg Visit.node hd
  | @methods c name e ms d =>
      have hi := Visit.ne_zero_of_method hchild
      have hnode := nodeAt_of_visitAt hv
      cases e with
      | none => exact h.method hnode hi
      | some e => exact h.methodOfHeir hnode hi
  | members =>
      rw [Context.sites_through]
      exact hpush (.members p) rfl nofun nofun
  | body =>
      rw [Context.sites_through]
      exact hpush (.call p) rfl nofun nofun

theorem visitAt_enclosed (h : visitAt texts p = some v) : Enclosed texts p v.context.sites := by
  refine visitAt_inductAt (P := fun p v => Enclosed texts p v.context.sites) ?_ ?_ h
  · intro r body _
    refine ⟨List.forall_mem_singleton.mpr nofun, List.nodup_singleton _, nofun, fun k q hk => ?_⟩
    cases k <;> cases hk
  · intro p v i w hv henclosed hchild
    exact henclosed.child hv hchild

end

/-! ## Depths -/

theorem Nearest.unique {site : Place → Site} {L : List Site} {d d' : Nat}
    (h : Nearest site L d) (h' : Nearest site L d') : d = d' := by
  obtain ⟨⟨q, hq⟩, hinner⟩ := h
  obtain ⟨⟨q', hq'⟩, hinner'⟩ := h'
  rcases Nat.lt_trichotomy d d' with hlt | rfl | hlt
  · exact absurd hq (hinner' d hlt q)
  · rfl
  · exact absurd hq' (hinner d' hlt q')

section
variable {texts : List (List Stmt)} {p q : Place} {c : Context} {node : Node} {d : Nat}
  (hv : visitAt texts p = some ⟨c, node⟩) (hq : enclosingClass? texts p = some q)
include hv hq

/-- No other scope is for the `this` of that class. -/
theorem nearest_of_receiver (hd : c.sites[d]? = some (.receiver q)) :
    Nearest .receiver c.sites d := by
  have henclosed := visitAt_enclosed hv
  obtain ⟨d', hd', hinner⟩ := henclosed.innermost q hq
  have hlt := (List.getElem?_eq_some_iff.mp hd).1
  cases (List.getElem?_inj hlt henclosed.nodup).mp (hd.trans hd'.symm)
  exact ⟨⟨q, hd⟩, hinner⟩

/-- The innermost scope for a `super` is that of the class around the place, if it has a
superclass, and right inside of it is the one for the `this` of the class. -/
theorem superclass_of_nearest (hplaced : Placed texts p c) (hinherits : Inherits texts q)
    (hd : Nearest .superclass c.sites d) :
    c.sites[d]? = some (.superclass q) ∧ 1 ≤ d ∧ Nearest .receiver c.sites (d - 1) := by
  have henclosed := visitAt_enclosed hv
  obtain ⟨k, hk, hinner⟩ := henclosed.innermost q hq
  have hsuper := henclosed.derived k q hk hinherits
  obtain ⟨⟨r, hr⟩, hnone⟩ := hd
  obtain ⟨j, rfl, hj⟩ := hplaced.inner d r hr
  rcases Nat.lt_trichotomy j k with hlt | rfl | hlt
  · exact absurd hj (hinner j hlt r)
  · exact ⟨hsuper, Nat.le_add_left 1 j, ⟨q, hk⟩, hinner⟩
  · exact absurd hsuper (hnone (k + 1) (Nat.succ_lt_succ hlt) q)

end

end Lox
