/-
# What is renamed

Which names `Renaming.program` changes, said by what the resolver knows at each place: the
constructs that pushed the scopes there (`visitAt`).  With the block or the function at the
end of the way, and its scope,

    use_renamed            uses whose depth leads to the scope
    declaration_renamed    `var` and `let` straight in the scope
    params_renamed         the parameters of the function itself

and nowhere another.  The invariant is `Aimed`: on the way from the program to a place, the
aim stays with the scope that is to be renamed, among those that have been pushed.
-/
import Lox.Proofs.Declared
import Lox.Proofs.Distance
import Lox.Proofs.Renaming.Place
import Lox.Proofs.Renaming.Scope

namespace Lox

/-! ## Scopes that are pushed -/

/-- The scope of a block or of a function at a place, and what it declares. -/
def Node.scope (q : Place) : Node → Option (Site × List Declaration)
  | .stmt (.block body) => some (.block q, body.filterMap Stmt.declaration?)
  | .function _ d =>
    some (.call q, d.params.map (⟨·, .parameter⟩) ++ d.body.filterMap Stmt.declaration?)
  | _ => none

theorem Node.site_scope {n : Node} {q : Place} {site : Site} {declared : List Declaration}
    (h : n.scope q = some (site, declared)) : site = .block q ∨ site = .call q := by
  unfold scope at h
  split at h
  · cases h
    exact .inl rfl
  · cases h
    exact .inr rfl
  · cases h

/-- The scopes that are pushed between a node and one of its children. -/
def Node.pushed (p : Place) : Node → Nat → List Site
  | .expr (.function d), _ => if d.name.isSome then [.selfName p] else []
  | .stmt (.block _), _ => [.block p]
  | .stmt (.moduleDecl _ _), _ => [.members p]
  | .stmt (.classDecl _ none _), _ => [.receiver p]
  | .stmt (.classDecl _ (some _) _), 0 => []
  | .stmt (.classDecl _ (some _) _), _ + 1 => [.receiver p, .superclass p]
  | .function _ _, _ => [.call p]
  | _, _ => []

namespace Visit

/-- Resolving leaves the scope of a node as it is. -/
theorem scope_resolved (v : Visit) (q : Place) : v.resolved.scope q = v.node.scope q := by
  obtain ⟨c, node⟩ := v
  cases node with
  | text body => rfl
  | expr e => rfl
  | stmt st =>
      cases st with
      | block body =>
          exact congrArg (fun declared => some (Site.block q, declared))
            (Resolve.declarations_stmts c.surroundings ([] :: c.scopes) body)
      | classDecl x e ms => cases e <;> rfl
      | _ => rfl
  | function kind d =>
      cases d with
      | mk keyword name params body =>
          exact congrArg
            (fun declared => some (Site.call q, params.map (⟨·, .parameter⟩) ++ declared))
            (Resolve.declarations_stmts _ _ body)

/-- It leaves the scopes that are pushed as they are. -/
theorem pushed_resolved (v : Visit) (p : Place) (i : Nat) :
    v.resolved.pushed p i = v.node.pushed p i := by
  obtain ⟨c, node⟩ := v
  cases node with
  | text body => rfl
  | expr e =>
      cases e with
      | function d =>
          show (Node.expr (c.expr (.function d))).pushed p i = _
          rw [c.expr_function p]
          simp only [Node.pushed, Context.function, Resolve.name_function]
      | receiver keyword depth =>
          obtain ⟨depth', h, -⟩ := c.expr_receiver keyword depth
          show (Node.expr (c.expr (.receiver keyword depth))).pushed p i = _
          rw [h]
          rfl
      | superMethod keyword method depth =>
          obtain ⟨depth', h, -⟩ := c.expr_superMethod keyword method depth
          show (Node.expr (c.expr (.superMethod keyword method depth))).pushed p i = _
          rw [h]
          rfl
      | _ => rfl
  | stmt st =>
      cases st with
      | classDecl x e ms => cases e <;> cases i <;> rfl
      | _ => rfl
  | function kind d => cases d; rfl

/-- The scopes at a child are those at the node, and the ones that are pushed between. -/
theorem sites_child {p : Place} {v w : Visit} {i : Nat} (h : v.child p i = some w) :
    w.context.sites = v.node.pushed p i ++ v.context.sites := by
  obtain ⟨c, node⟩ := v
  cases node with
  | text body =>
      obtain ⟨before, st, later, -, rfl⟩ := statement_eq h
      exact Context.sites_through ..
  | expr e =>
      cases e with
      | function d =>
          cases i with
          | zero =>
              cases h
              cases hd : d.name <;> simp [Context.lambda, Node.pushed, hd, Context.push,
                Context.withScopes]
          | succ i => cases h
      | _ =>
          cases enters_child h with
          | operand => rfl
  | stmt st =>
      cases st with
      | block body =>
          obtain ⟨before, st, later, -, rfl⟩ := statement_eq h
          exact Context.sites_through ..
      | moduleDecl x body =>
          obtain ⟨before, st, later, -, rfl⟩ := statement_eq h
          exact Context.sites_through ..
      | functionDecl d =>
          cases enters_child h with
          | operand => rfl
          | declared => cases hd : d.name <;> simp [Context.declared, Node.pushed, hd,
              Context.withScopes]
      | classDecl x e ms =>
          cases e with
          | none =>
              obtain ⟨d, -, rfl⟩ := method_eq h
              rfl
          | some e =>
              cases i with
              | zero =>
                  cases h
                  rfl
              | succ i =>
                  obtain ⟨d, -, rfl⟩ := method_eq h
                  rfl
      | _ => cases enters_child h <;> rfl
  | function kind d =>
      obtain ⟨before, st, later, -, rfl⟩ := statement_eq h
      exact Context.sites_through ..

end Visit

/-! ## The aim on the way -/

/-- The aim at a place, among the scopes that have been pushed on the way there: it stays
with the one of `site`, which is pushed at `q`. -/
structure Aimed (q : Place) (site : Site) (sites : List Site) (p : Place) (a : Aim) : Prop where
  distance : ∀ j, a.distance = some j ↔ sites[j]? = some site
  way : match a with
    | .below way => way.reverse ++ p = q
    | _ => ¬ p <:+ q

namespace Aimed

variable {q : Place} {site : Site} {sites : List Site} {p : Place} {a : Aim}

/-- The aim ends at `q`. -/
theorem below_iff (h : Aimed q site sites p a) : a = .below [] ↔ p = q := by
  have hway := h.way
  cases a with
  | below way =>
      replace hway : way.reverse ++ p = q := hway
      subst hway
      simp
  | around k | elsewhere =>
      refine ⟨nofun, fun hp => ?_⟩
      subst hp
      exact absurd List.suffix_rfl hway

/-- A child that pushes nothing. -/
theorem child (h : Aimed q site sites p a) (i : Nat) :
    Aimed q site sites (i :: p) (a.child i) := by
  obtain ⟨hdistance, hway⟩ := h
  have hbelow : ¬ p <:+ q → ¬ i :: p <:+ q := fun hp hi => hp ((List.suffix_cons i p).trans hi)
  cases a with
  | around k => exact ⟨hdistance, hbelow hway⟩
  | elsewhere => exact ⟨hdistance, hbelow hway⟩
  | below way =>
      replace hway : way.reverse ++ p = q := hway
      cases way with
      | nil =>
          subst hway
          exact ⟨hdistance, fun hi => absurd hi.length_le (by simp)⟩
      | cons j way =>
          rw [List.reverse_cons, List.append_assoc, List.singleton_append] at hway
          by_cases hji : j = i
          · subst hji
            rw [Aim.child, if_pos rfl]
            exact ⟨hdistance, hway⟩
          · rw [Aim.child, if_neg hji]
            refine ⟨hdistance, fun hi => ?_⟩
            -- places of one length under one end are the same
            have hj : j :: p <:+ q := ⟨way.reverse, hway⟩
            have heq := (List.suffix_of_suffix_length_le hj hi (by simp)).eq_of_length (by simp)
            exact hji (List.cons.inj heq).1

/-- A scope is pushed, and it is another one. -/
theorem push (h : Aimed q site sites p a) {s : Site} (hs : s ≠ site) :
    Aimed q site (s :: sites) p a.deeper := by
  obtain ⟨hdistance, hway⟩ := h
  have hmore : ∀ j, a.deeper.distance = some j ↔ (s :: sites)[j]? = some site := by
    intro j
    cases j with
    | zero => cases a <;> simp [Aim.deeper, Aim.distance, hs]
    | succ j =>
        rw [List.getElem?_cons_succ, ← hdistance]
        cases a <;> simp [Aim.deeper, Aim.distance]
  cases a <;> exact ⟨hmore, hway⟩

variable {ρ : Renaming} {declared : List Declaration}

/-- The scope of a block or a function is the one at `q`, or another one. -/
theorem distance_enter (h : Aimed q site sites p a)
    (hany : p = q → declared.any ρ.concerns = true) :
    (ρ.enter declared a).distance = some 0 ↔ p = q := by
  rw [← h.below_iff]
  cases a with
  | below way =>
      cases way with
      | nil => simp [Renaming.enter, hany (h.below_iff.mp rfl), Aim.distance]
      | cons j way => simp [Renaming.enter, Aim.deeper, Aim.distance]
  | around k | elsewhere => simp [Renaming.enter, Aim.deeper, Aim.distance]

/-- It is pushed, and a child is entered. -/
theorem enter (h : Aimed q site sites p a) {s : Site} (hs : s = site ↔ p = q)
    (hany : p = q → declared.any ρ.concerns = true) (i : Nat) :
    Aimed q site (s :: sites) (i :: p) ((ρ.enter declared a).child i) := by
  by_cases hp : p = q
  · obtain rfl := h.below_iff.mpr hp
    obtain rfl := hs.mpr hp
    rw [Renaming.enter, if_pos (hany hp)]
    refine ⟨fun j => ?_, fun hi => ?_⟩
    · cases j with
      | zero => simp [Aim.child, Aim.distance]
      | succ j =>
          rw [List.getElem?_cons_succ, ← h.distance]
          simp [Aim.child, Aim.distance]
    · subst hp
      exact absurd hi.length_le (by simp)
  · have henter : ρ.enter declared a = a.deeper := by
      unfold Renaming.enter
      split
      · exact absurd (h.below_iff.mp rfl) hp
      · rfl
    rw [henter]
    exact (h.push (mt hs.mp hp)).child i

/-- From a node to its child. -/
theorem crossed (h : Aimed q site sites p a) {n : Node} {i : Nat}
    (hchild : (n.child i).isSome = true) (hsite : site = .block q ∨ site = .call q)
    (hscope : p = q → ∃ declared, n.scope q = some (site, declared) ∧
      declared.any ρ.concerns = true) :
    Aimed q site (n.pushed p i ++ sites) (i :: p) (ρ.aimAt a n i) := by
  have hother : ∀ s, s ≠ .block q → s ≠ .call q → s ≠ site := by
    rintro s hblock hcall rfl
    exact hsite.elim hblock hcall
  have hown : ∀ {s declared}, s = .block p ∨ s = .call p → n.scope p = some (s, declared) →
      (s = site ↔ p = q) ∧ (p = q → declared.any ρ.concerns = true) := by
    intro s declared hs hn
    refine ⟨⟨fun heq => ?_, fun hp => ?_⟩, fun hp => ?_⟩
    · subst heq
      rcases hs with rfl | rfl <;> rcases hsite with hq | hq <;> cases hq <;> rfl
    · obtain ⟨declared', hn', -⟩ := hscope hp
      cases (hp ▸ hn).symm.trans hn'
      rfl
    · obtain ⟨declared', hn', hany⟩ := hscope hp
      cases (hp ▸ hn).symm.trans hn'
      exact hany
  cases n with
  | text body => exact h.child i
  | expr e =>
      cases e with
      | function d =>
          cases i with
          | succ i => cases hchild
          | zero =>
              simp only [Node.pushed, Renaming.aimAt, Aim.lambda]
              cases d.name with
              | none => exact h.child 0
              | some name => exact (h.child 0).push (hother _ (by simp) (by simp))
      | _ => exact h.child i
  | stmt st =>
      cases st with
      | block body =>
          obtain ⟨hs, hany⟩ := hown (.inl rfl) rfl
          exact h.enter hs hany i
      | moduleDecl x body =>
          have hmembers : Site.members p ≠ site := hother _ (by simp) (by simp)
          exact (h.push hmembers).child i
      | classDecl x e ms =>
          have hreceiver : Site.receiver p ≠ site := hother _ (by simp) (by simp)
          have hsuperclass : Site.superclass p ≠ site := hother _ (by simp) (by simp)
          cases e with
          | none =>
              cases i with
              | zero => cases hchild
              | succ i => exact (h.push hreceiver).child (i + 1)
          | some e =>
              cases i with
              | zero => exact h.child 0
              | succ i => exact ((h.push hsuperclass).push hreceiver).child (i + 1)
      | _ => exact h.child i
  | function kind d =>
      obtain ⟨hs, hany⟩ := hown (.inr rfl) rfl
      exact h.enter hs hany i

end Aimed

/-! ## The renamed program -/

/-- The block or the function at the end of a way declares the name in its scope. -/
structure Renaming.Declares (ρ : Renaming) (body : List Stmt) (way : List Nat) (site : Site)
    (declared : List Declaration) : Prop where
  scope : (nodeAt [body] (way.reverse ++ [0])).bind (·.scope (way.reverse ++ [0])) =
    some (site, declared)
  any : declared.any ρ.concerns = true

section
variable {ρ : Renaming} {body : List Stmt} {way : List Nat} {site : Site}
  {declared : List Declaration} {p : Place} {c : Context}

/-- The renamed program has at every place what the resolver made of the node there, with
the name renamed in the scope. -/
theorem node_aimed (hscope : ρ.Declares body way site declared) {v : Visit}
    (hv : visitAt [body] p = some v) :
    ∃ a, nodeAt [ρ.program way body] p = some (ρ.node (fun _ => none) a v.resolved) ∧
      Aimed (way.reverse ++ [0]) site v.context.sites p a := by
  obtain ⟨n, hn, hsite⟩ := Option.bind_eq_some_iff.mp hscope.scope
  induction p generalizing v with
  | nil => cases hv
  | cons i p ih =>
      cases p with
      | nil =>
          cases i with
          | succ i => cases hv
          | zero =>
              cases hv
              refine ⟨.below way, rfl, fun j => ?_, rfl⟩
              have hprogram : Site.program ≠ site := by
                rcases Node.site_scope hsite with rfl | rfl <;> nofun
              cases j <;> simp [Aim.distance, Context.program, hprogram]
      | cons j p =>
          obtain ⟨u, hu, hv⟩ := Option.bind_eq_some_iff.mp hv
          obtain ⟨a, ha, haimed⟩ := ih hu
          have hresolved : u.resolved.child i = some v.resolved := by
            rw [← u.resolved_child, hv]
            rfl
          refine ⟨ρ.aimAt a u.resolved i, ?_, ?_⟩
          · rw [nodeAt, ha, Option.bind_some, ρ.child_node, hresolved]
            rfl
          · rw [u.sites_child hv, ← u.pushed_resolved]
            refine haimed.crossed (by rw [hresolved]; rfl) (Node.site_scope hsite) fun hp => ?_
            -- the node of the scope is the one that is visited
            have hnode : u.node = n := by
              rw [← hp, ← node_visitAt, hu] at hn
              exact Option.some.inj hn
            exact ⟨declared, by rw [u.scope_resolved, hnode, hsite], hscope.any⟩

/-- The name that an expression reads or assigns to, with its depth. -/
def Expr.used : Expr → Option (Token × Option Nat)
  | .variable x depth => some (x, depth)
  | .assign x _ depth => some (x, depth)
  | _ => none

/-- A name that is used is renamed if its depth leads to the scope; else it stays. -/
theorem use_renamed (hscope : ρ.Declares body way site declared) {e : Expr}
    (hv : visitAt [body] p = some ⟨c, .expr e⟩) {x : Token} {depth : Option Nat}
    (hx : (c.expr e).used = some (x, depth)) :
    ∃ e', nodeAt [ρ.program way body] p = some (.expr e') ∧
      e'.used = some (if depth.bind (c.sites[·]?) = some site then ρ.token x else x, none) := by
  obtain ⟨a, ha, haimed⟩ := node_aimed hscope hv
  have hreaches : Renaming.Reaches a.distance depth ↔ depth.bind (c.sites[·]?) = some site := by
    cases depth with
    | none => simp [Renaming.Reaches]
    | some d => simpa [Renaming.Reaches, eq_comm] using haimed.distance d
  have hused : ρ.used a.distance depth x =
      if depth.bind (c.sites[·]?) = some site then ρ.token x else x := by
    simp only [Renaming.used, hreaches]
  refine ⟨_, ha, ?_⟩
  rw [← hused]
  cases he : c.expr e with
  | «variable» y d =>
      rw [he] at hx
      cases hx
      rfl
  | assign y value d =>
      rw [he] at hx
      cases hx
      rfl
  | _ =>
      rw [he] at hx
      cases hx

/-- What a renamed statement declares. -/
theorem Renaming.declaration?_stmt (ρ : Renaming) (depths : Option Nat → Option Nat) (a : Aim)
    (st : Stmt) : (ρ.stmt depths a st).declaration? = st.declaration?.map fun d =>
      if a.distance = some 0 ∧ (d.form = .variable ∨ d.form = .constant) then
        { d with name := ρ.token d.name }
      else d := by
  cases st with
  | varDecl x e | letDecl x e =>
      by_cases ha : a.distance = some 0 <;>
        simp [stmt, Stmt.declaration?, declared, ha]
  | functionDecl d =>
      cases d with
      | mk keyword name ps body => cases name <;> simp [stmt, function, Stmt.declaration?,
          FunctionDecl.name]
  | _ => simp [stmt, Stmt.declaration?]

/-- A variable or a constant is renamed if it is declared straight in the scope; what else
a statement declares keeps its name. -/
theorem declaration_renamed (hscope : ρ.Declares body way site declared) {st : Stmt}
    (hv : visitAt [body] p = some ⟨c, .stmt st⟩) :
    ∃ st', nodeAt [ρ.program way body] p = some (.stmt st') ∧
      st'.declaration? = st.declaration?.map fun d =>
        if c.sites[0]? = some site ∧ (d.form = .variable ∨ d.form = .constant) then
          { d with name := ρ.token d.name }
        else d := by
  obtain ⟨a, ha, haimed⟩ := node_aimed hscope hv
  refine ⟨_, ha, ?_⟩
  have hhere : a.distance = some 0 ↔ c.sites[0]? = some site := haimed.distance 0
  have hsame : (c.stmt st).declaration? = st.declaration? := Resolve.declaration?_stmt ..
  simp only [ρ.declaration?_stmt, hhere, hsame]

/-- The parameters are renamed if the scope is that of the function. -/
theorem params_renamed (hscope : ρ.Declares body way site declared) {kind : FunctionKind}
    {d : FunctionDecl} (hv : visitAt [body] p = some ⟨c, .function kind d⟩) :
    ∃ d', nodeAt [ρ.program way body] p = some (.function kind d') ∧
      d'.params = if site = .call p then d.params.map ρ.token else d.params := by
  obtain ⟨a, ha, haimed⟩ := node_aimed hscope hv
  refine ⟨_, ha, ?_⟩
  obtain ⟨n, hn, hsite⟩ := Option.bind_eq_some_iff.mp hscope.scope
  have hown : p = way.reverse ++ [0] → (Node.function kind d).scope p = some (site, declared) := by
    intro hp
    rw [← hp, ← node_visitAt, hv] at hn
    cases hn
    exact hp ▸ hsite
  have hcall : site = .call p ↔ p = way.reverse ++ [0] := by
    refine ⟨fun heq => ?_, fun hp => ?_⟩
    · rcases Node.site_scope hsite with hq | hq <;> cases heq.symm.trans hq
      rfl
    · cases hown hp
      rfl
  cases d with
  | mk keyword name params body =>
      let after := (c.body p kind params).stmts body
      have henter : (ρ.enter (params.map (⟨·, .parameter⟩) ++ after.filterMap Stmt.declaration?)
          a).distance = some 0 ↔ p = way.reverse ++ [0] := by
        refine haimed.distance_enter fun hp => ?_
        have hsame : after.filterMap Stmt.declaration? = body.filterMap Stmt.declaration? :=
          Resolve.declarations_stmts ..
        rw [hsame]
        cases hown hp
        exact hscope.any
      show params.map (ρ.declared (ρ.enter _ a).distance) = _
      by_cases hp : p = way.reverse ++ [0]
      · rw [if_pos (hcall.mpr hp)]
        exact List.map_congr_left fun x _ => if_pos (henter.mpr hp)
      · rw [if_neg (mt hcall.mp hp)]
        exact (List.map_congr_left fun x _ => if_neg (mt henter.mp hp)).trans (List.map_id _)

end

end Lox
