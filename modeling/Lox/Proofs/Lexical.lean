/-
# Chains of environments follow scopes

Whenever a session looks at a node in an environment, the chain of the
environment goes through the scopes that the resolver had on its stack when it
visited the node: as many, in the same order, each made for the construct that
pushed the scope, the last being the globals.  So a depth that the resolver set
leads to the very scope in which the resolver found the name, and no run says
that there is no such scope.
-/
import Lox.Proofs.Moment

namespace Lox

/-- The environments from `env` outwards are those of the scopes of `c`. -/
structure InStep (t : Trail) (s : Store) (env : EnvironmentId) (c : Context) : Prop where
  length : (s.chain env).length = c.scopes.length
  made : (s.chain env).map (t.origins[·]?) = c.sites.map some
  outermost : (s.chain env).getLast? = some State.globals

/-- The environment `d` steps outwards from `env` is there, and was made for the
scope of `c` that holds the name. -/
def Holds (t : Trail) (s : Store) (env : EnvironmentId) (c : Context) (name : Token)
    (d : Nat) : Prop :=
  ∃ f b site, s.ancestor? env d = some f ∧ c.scopes.find? name.lexeme = some (d, b) ∧
    c.sites[d]? = some site ∧ t.origins[f]? = some site

/-- The name that a node refers to, with its depth. -/
def Expr.reference : Expr → Option (Token × Option Nat)
  | .variable name depth => some (name, depth)
  | .assign name _ depth => some (name, depth)
  | .receiver keyword depth => some (keyword, depth)
  | .superMethod keyword _ depth => some (keyword, depth)
  | _ => none

theorem Scopes.find?_of_refer {σ : Scopes} {name : Token} {a : Bool} {d : Nat}
    (h : (σ.refer name none a).1 = some d) : ∃ b, σ.find? name.lexeme = some (d, b) := by
  unfold refer at h
  split at h
  · rename_i distance b hfind
    cases h
    exact ⟨b, hfind⟩
  · cases h

/-- A node without a depth refers to where the resolver found its name. -/
theorem Context.find?_of_reference {c : Context} {e : Expr} {name : Token} {d : Nat}
    (hfresh : Visit.Fresh ⟨c, .expr e⟩) (h : (c.expr e).reference = some (name, some d)) :
    ∃ b, c.scopes.find? name.lexeme = some (d, b) := by
  cases e with
  | «variable» n depth =>
      cases hfresh
      obtain ⟨rfl, hd⟩ := Prod.mk.inj (Option.some.inj h)
      exact Scopes.find?_of_refer hd
  | assign n v depth =>
      cases hfresh
      obtain ⟨rfl, hd⟩ := Prod.mk.inj (Option.some.inj h)
      exact Scopes.find?_of_refer hd
  | receiver k depth =>
      cases hfresh
      obtain ⟨depth', he, hd'⟩ := c.expr_receiver k none
      rw [he] at h
      cases h
      rcases hd' with h0 | hd
      · cases h0
      · exact Scopes.find?_of_refer hd.symm
  | superMethod k n depth =>
      cases hfresh
      obtain ⟨depth', he, hd'⟩ := c.expr_superMethod k n none
      rw [he] at h
      cases h
      rcases hd' with h0 | hd
      · cases h0
      · exact Scopes.find?_of_refer hd.symm
  | _ => cases h

/-! ## From the constructs around an environment -/

section
variable {texts : List (List Stmt)} {t : Trail} {s : Store} {env : EnvironmentId} {p : Place}
  {c : Context} {node : Node}

theorem map_of_mapM {as : List Site} {es : List EnvironmentId} {L : List Site}
    (h : es.mapM (as[·]?) = some L) : es.map (as[·]?) = L.map some := by
  induction es generalizing L with
  | nil =>
      cases h
      rfl
  | cons e es ih =>
      simp only [List.mapM_cons, Option.pure_def, Option.bind_eq_bind,
        Option.bind_eq_some_iff] at h
      obtain ⟨site, hs, L', hL', hcons⟩ := h
      cases hcons
      simp only [List.map_cons, hs, ih hL']

theorem inStep_of_sites (hs : StoreOk texts t s) (hv : visitAt texts p = some ⟨c, node⟩)
    (hL : (t.world texts s).sites env = some c.sites) : InStep t s env c where
  length := (Trail.length_mapM hL).trans (visitAt_even hv).length.symm
  made := map_of_mapM hL
  outermost := Store.getLast?_chain hs.linked hs.rooted (hs.origins ▸ Trail.sites_lt hL)

/-- Each environment was made for the construct at its depth. -/
theorem InStep.origin (h : InStep t s env c) {d : Nat} {f : EnvironmentId}
    (hd : (s.chain env)[d]? = some f) : t.origins[f]? = c.sites[d]? := by
  have hmade : ((s.chain env).map (t.origins[·]?))[d]? = (c.sites.map some)[d]? := by
    rw [h.made]
  simp only [List.getElem?_map, hd, Option.map_some] at hmade
  obtain ⟨site, hsite, horigin⟩ := Option.map_eq_some_iff.mp hmade.symm
  exact horigin.symm.trans hsite.symm

/-- The scope in which a name is found has its environment. -/
theorem InStep.holds (h : InStep t s env c) (hs : StoreOk texts t s) {name : Token} {d : Nat}
    {b : Binding} (hfind : c.scopes.find? name.lexeme = some (d, b)) :
    Holds t s env c name d := by
  have hd : d < (s.chain env).length := h.length ▸ Scopes.lt_length_of_find? hfind
  have hget : (s.chain env)[d]? = some (s.chain env)[d] := List.getElem?_eq_getElem hd
  have hlength : (s.chain env).length = c.sites.length := by
    simpa using congrArg List.length h.made
  have hlt : d < c.sites.length := hlength ▸ hd
  have hsite : c.sites[d]? = some c.sites[d] := List.getElem?_eq_getElem hlt
  exact ⟨(s.chain env)[d], b, c.sites[d], (Store.ancestor?_eq_getElem? hs.linked env d).trans hget,
    hfind, hsite, (h.origin hget).trans hsite⟩

end

namespace Session

variable {limit : Option Nat} {now : ClockReading} {texts : List (List Stmt)} {t : Trail}
  {m : Machine}

/-- An expression that is looked at. -/
theorem Moment.expr_inStep (h : Moment limit now texts t m) {e : Expr} {env : EnvironmentId}
    (he : m.control = .evaluate e env) :
    ∃ c e₀, visitAt texts t.here = some ⟨c, .expr e₀⟩ ∧ c.expr e₀ = e ∧
      InStep t m.state.store env c := by
  obtain ⟨hcontrol, -, hstore⟩ := h.coherent
  rw [he] at hcontrol
  obtain ⟨c, e₀, hv, hexpr, hL⟩ := hcontrol
  exact ⟨c, e₀, hv, hexpr, inStep_of_sites hstore hv hL⟩

/-- An assignment that waits for its value. -/
theorem Moment.assign_inStep (h : Moment limit now texts t m) {name : Token}
    {depth : Option Nat} {env : EnvironmentId} {stack : List Frame}
    (hm : m.stack = .assign name depth env :: stack) :
    ∃ c v₀, visitAt texts (t.frames.headD []) = some ⟨c, .expr (.assign name v₀ none)⟩ ∧
      (c.scopes.refer name none true).1 = depth ∧ InStep t m.state.store env c := by
  have hfresh := h.fresh
  obtain ⟨-, hstack, hstore⟩ := h.coherent
  rw [hm] at hstack
  cases hp : t.frames with
  | nil =>
      rw [hp] at hstack
      cases hstack
  | cons p ps =>
      rw [hp] at hstack
      obtain ⟨c, v₀, depth₀, hv, hdepth, hL⟩ := hstack.1
      have hnone : depth₀ = none := hfresh _ _ hv
      subst hnone
      exact ⟨c, v₀, hv, hdepth, inStep_of_sites hstore hv hL⟩

/-- At every moment of every session: an expression or a statement that is looked
at in an environment is what the resolver made of the node at the place of the
trail; the chain of the environment is in step with the scopes that the resolver
had there; a depth leads to the environment of the scope that holds the name,
also when the value to be assigned has been evaluated; and nothing fails for
want of a scope. -/
theorem chain_follows_scopes (h : Moment limit now texts t m) :
    (∀ e env, m.control = .evaluate e env →
      ∃ c e₀, visitAt texts t.here = some ⟨c, .expr e₀⟩ ∧ c.expr e₀ = e ∧
        InStep t m.state.store env c ∧
        ∀ name d, e.reference = some (name, some d) →
          Holds t m.state.store env c name d) ∧
    (∀ st env, m.control = .execute st env →
      ∃ c st₀, visitAt texts t.here = some ⟨c, .stmt st₀⟩ ∧ c.stmt st₀ = st ∧
        InStep t m.state.store env c) ∧
    (∀ v name d env stack, m.control = .value v → m.stack = .assign name (some d) env :: stack →
      ∃ c v₀, visitAt texts (t.frames.headD []) = some ⟨c, .expr (.assign name v₀ none)⟩ ∧
        InStep t m.state.store env c ∧ Holds t m.state.store env c name d) ∧
    (∀ e d name, m.control = .unwind (.failure e) → e.fault ≠ .noScopeAt d name) := by
  have hfresh := h.fresh
  obtain ⟨hcontrol, -, hstore⟩ := h.coherent
  refine ⟨?_, ?_, ?_, ?_⟩
  · intro e env he
    obtain ⟨c, e₀, hv, rfl, hstep⟩ := h.expr_inStep he
    refine ⟨c, e₀, hv, rfl, hstep, fun name d hname => ?_⟩
    obtain ⟨b, hfind⟩ := Context.find?_of_reference (hfresh _ _ hv) hname
    exact hstep.holds hstore hfind
  · intro st env hst
    rw [hst] at hcontrol
    obtain ⟨c, st₀, hv, rfl, hL, -⟩ := hcontrol
    exact ⟨c, st₀, hv, rfl, inStep_of_sites hstore hv hL⟩
  · intro v name d env stack _ hframe
    obtain ⟨c, v₀, hv, hdepth, hstep⟩ := h.assign_inStep hframe
    obtain ⟨b, hfind⟩ := Scopes.find?_of_refer hdepth
    exact ⟨c, v₀, hv, hstep, hstep.holds hstore hfind⟩
  · intro e d name he hfault
    rw [he] at hcontrol
    have hordinary : e.fault.Ordinary _ := hcontrol
    rw [hfault] at hordinary
    exact hordinary hfresh

/-! ### One text -/

/-- A name in the first line of a text. -/
def nameAt (name : String) (column : Nat) : Token := ⟨.identifier, name, ⟨1, column⟩⟩

/-- The program of `var a; print a;`. -/
def printed : List Stmt :=
  [.varDecl (nameAt "a" 5) none, .print (.variable (nameAt "a" 14) none)]

theorem read_printed : (read "var a; print a;").2 = .ok printed := by
  with_unfolding_all rfl

/-- After four moves of `var a; print a;` the machine looks at `a`, and the depth
of `a` leads to the globals. -/
theorem chain_follows_scopes_printed :
    ∃ t m c, Moment none 0 [printed] t m ∧
      m.control = .evaluate (.variable (nameAt "a" 14) (some 0)) State.globals ∧
      InStep t m.state.store State.globals c ∧
      Holds t m.state.store State.globals c (nameAt "a" 14) 0 := by
  have hfirst : Moment none 0 [printed] _ _ := Moment.first.next_of_accepted rfl read_printed rfl
  have hmoment := hfirst.move.move.move.move
  obtain ⟨c, -, -, -, hstep, hholds⟩ := (chain_follows_scopes hmoment).1 _ _ rfl
  exact ⟨_, _, c, hmoment, rfl, hstep, hholds _ _ rfl⟩

end Session

end Lox
