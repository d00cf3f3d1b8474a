/-
# Read-only names

The resolver rejects assignments to names that it knows to be read-only, and a
module refuses them for its members.  What is left is the assignment to a global
that the resolver did not know to be read-only: it knows the names of one text
only, and of that text only what stands above.

So a read-only name of a block, a function, a module or a lambda stands for the
same value for ever, and a read-only global does so until such an assignment:
`Session.readOnly_kept`.  The first half needs that what is marked at run time is
what the text marks: `Marked`.
-/
import Lox.Proofs.Kept
import Lox.Proofs.Lexical

namespace Lox

/-! ## Marks of the text -/

/-- A name that was not there is there once its declaration is complete. -/
theorem Scopes.here?_define_declare {σ : Scopes} (h : σ ≠ []) {n : String} (a : Bool)
    (hn : σ.here? n = none) : ((σ.declare n a).define n).here? n = some ⟨true, a⟩ := by
  have hdeclare : σ.declare n a = σ.mark n ⟨false, a⟩ := by
    simp [declare, hn]
  have hne : σ.mark n ⟨false, a⟩ ≠ [] := by
    cases σ with
    | nil => exact absurd rfl h
    | cons scope outer => exact List.cons_ne_nil _ _
  rw [hdeclare, define, here?_mark h]
  exact here?_mark hne n _

theorem Fits.at {texts : List (List Stmt)} {sites : List Site} {σ : Scopes}
    (h : Fits texts sites σ) {d : Nat} {site : Site} {scope : StaticScope}
    (hsite : sites[d]? = some site) (hscope : σ[d]? = some scope) :
    FitsSite texts site scope := by
  unfold Fits at h
  induction h generalizing d with
  | nil => cases hsite
  | cons hfits _ ih =>
      cases d with
      | zero =>
          cases hsite
          cases hscope
          exact hfits
      | succ d => exact ih hsite hscope

/-- Only the outermost site is the program. -/
theorem Context.Even.last {c : Context} (h : c.Even) {d : Nat}
    (hd : c.sites[d]? = some .program) : d + 1 = c.sites.length := by
  obtain ⟨inner, hsites, hinner⟩ := h.outermost
  rw [hsites] at hd ⊢
  rcases Nat.lt_or_ge d inner.length with hlt | hge
  · rw [List.getElem?_append_left hlt] at hd
    exact absurd (List.mem_of_getElem? hd) hinner
  · have hlt := (List.getElem?_eq_some_iff.mp hd).1
    simp only [List.length_append, List.length_singleton] at hlt ⊢
    omega

/-- A scope that is added leaves those of the others as they are. -/
theorem Site.scope_append {texts : List (List Stmt)} (more : List (List Stmt)) {site : Site}
    {full : StaticScope} (h : site.scope texts = some full) :
    site.scope (texts ++ more) = some full := by
  cases site with
  | program => cases h
  | receiver p | superclass p => exact h
  | block p | call p | selfName p | members p =>
      simp only [scope] at h ⊢
      split at h
      · rename_i hv
        simp only [visitAt_append more hv, h]
      · cases h

/-! ## Marks of a store -/

/-- `e` is an environment of a construct that declares the name `n`, in the end,
as one that may be assigned to or not. -/
def Declares (texts : List (List Stmt)) (t : Trail) (e : EnvironmentId) (n : String)
    (assignable : Bool) : Prop :=
  ∃ site full b, t.origins[e]? = some site ∧ site.scope texts = some full ∧
    full.get? n = some b ∧ b.assignable = assignable

theorem Declares.unique {texts : List (List Stmt)} {t : Trail} {e : EnvironmentId} {n : String}
    {a a' : Bool} (h : Declares texts t e n a) (h' : Declares texts t e n a') : a = a' := by
  obtain ⟨site, full, b, hsite, hfull, hb, rfl⟩ := h
  obtain ⟨site', full', b', hsite', hfull', hb', rfl⟩ := h'
  cases hsite.symm.trans hsite'
  cases hfull.symm.trans hfull'
  cases hb.symm.trans hb'
  rfl

theorem Declares.mono {texts : List (List Stmt)} {t t' : Trail} {e : EnvironmentId} {n : String}
    {a : Bool} (ht : t.Extends t') (h : Declares texts t e n a) : Declares texts t' e n a := by
  obtain ⟨site, full, b, hsite, h⟩ := h
  exact ⟨site, full, b, Trail.getElem?_of_prefix ht.origins hsite, h⟩

/-- What is read-only, the globals apart, the text declares as read-only. -/
def Marked (texts : List (List Stmt)) (t : Trail) (s : Store) : Prop :=
  ∀ e n, e ≠ State.globals → s.isReadOnly e n = true → Declares texts t e n false

section
variable {texts : List (List Stmt)} {t : Trail} {s : Store} {p : Place} {v : Visit}
  {env : EnvironmentId}

/-- A name that a visit leaves in its scope number `d` is one that the environment
`d` steps outwards declares, unless this is the globals. -/
theorem declares_of_visit (hs : StoreOk texts t s) (hv : visitAt texts p = some v)
    (hL : (t.world texts s).sites env = some v.context.sites) {d : Nat} {f : EnvironmentId}
    (hf : s.ancestor? env d = some f) (hne : f ≠ State.globals) {scope : StaticScope}
    (hscope : v.left[d]? = some scope) {n : String} {b : Binding}
    (hb : scope.get? n = some b) : Declares texts t f n b.assignable := by
  have hstep := inStep_of_sites hs hv hL
  have heven := visitAt_even hv
  rw [Store.ancestor?_eq_getElem? hs.linked] at hf
  have hmade : ((s.chain env).map (t.origins[·]?))[d]? = (v.context.sites.map some)[d]? := by
    rw [hstep.made]
  simp only [List.getElem?_map, hf, Option.map_some] at hmade
  obtain ⟨site, hsite, horigin⟩ := Option.map_eq_some_iff.mp hmade.symm
  have hinner : site ≠ .program := by
    rintro rfl
    have hlast := heven.last hsite
    have hchain := hstep.outermost
    rw [List.getLast?_eq_getElem?, hstep.length, heven.length, ← hlast, Nat.add_sub_cancel,
      hf] at hchain
    exact hne (Option.some.inj hchain)
  obtain ⟨full, hfull, hagrees⟩ := (visitAt_fits hv).at hsite hscope hinner
  obtain ⟨b', hb', heq⟩ := hagrees n b hb
  exact ⟨site, full, b', horigin.symm, hfull, hb', heq⟩

/-- A declaration without a violation adds a name to its scope. -/
theorem declares_of_here {c : Context} {st : Stmt} (hs : StoreOk texts t s)
    (hv : visitAt texts p = some ⟨c, .stmt st⟩) (hL : (t.world texts s).sites env = some c.sites)
    (hne : env ≠ State.globals) {n : String} {a : Bool}
    (hn : (c.after st).scopes.here? n = some ⟨true, a⟩) : Declares texts t env n a := by
  cases hσ : (c.after st).scopes with
  | nil =>
      rw [hσ] at hn
      cases hn
  | cons scope outer =>
      rw [hσ] at hn
      have hscope : (Visit.left ⟨c, .stmt st⟩)[0]? = some scope := by
        simp only [Visit.left, hσ, List.getElem?_cons_zero]
      exact declares_of_visit hs hv hL rfl hne hscope hn

end

/-! ## Moves -/

/-- A lambda is what the resolver made of one with the same name. -/
theorem Context.function_of_expr {c : Context} {e : Expr} {d : FunctionDecl}
    (h : c.expr e = .function d) : ∃ d₀, e = .function d₀ ∧ d₀.name = d.name := by
  cases e with
  | function d₀ =>
      have hfunction := (c.expr_function [] d₀).symm.trans h
      cases hfunction
      exact ⟨d₀, rfl, (Resolve.name_function ..).symm⟩
  | receiver keyword depth =>
      obtain ⟨depth', he, -⟩ := c.expr_receiver keyword depth
      cases he.symm.trans h
  | superMethod keyword method depth =>
      obtain ⟨depth', he, -⟩ := c.expr_superMethod keyword method depth
      cases he.symm.trans h
  | _ => cases h

section
variable {texts : List (List Stmt)} {t : Trail} {m : Machine} {e : EnvironmentId} {n : String}

/-- A name that a move marks is one that the text declares as read-only. -/
theorem declares_of_marks (hm : Coherent texts t m) (accepted : ∀ body ∈ texts, Accepted body)
    (h : m.Marks e n) (hne : e ≠ State.globals) : Declares texts (t.step m) e n false := by
  have hs := hm.store
  have hextends := Trail.extends_step m t
  cases h with
  | @lambda d name env stack s hname =>
      obtain ⟨c, e₀, hv, he, -⟩ := hm.control
      replace hv : visitAt texts t.here = some ⟨c, .expr e₀⟩ := hv
      obtain ⟨d₀, rfl, hname₀⟩ := Context.function_of_expr he
      rw [hname] at hname₀
      have horigin : (t.step ⟨.evaluate (.function d) env, stack, s⟩).origins =
          t.origins ++ [.selfName t.here] := by
        simp only [Trail.step, Trail.evaluate, Trail.lambda, hname]
        rfl
      have hself := Scopes.here?_define_declare (σ := [] :: c.scopes) (List.cons_ne_nil _ _) false
        (n := name.lexeme) rfl
      obtain ⟨full, hfull, hb⟩ := Option.bind_eq_some_iff.mp hself
      refine ⟨.selfName t.here, full, _, ?_, ?_, hb, rfl⟩
      · rw [horigin, ← hs.origins, List.getElem?_concat_length]
      · simp only [Site.scope, hv, Context.lambda, hname₀]
        exact hfull
  | @letDecl v name env stack s =>
      have hstack := hm.stack
      cases hp : t.frames with
      | nil =>
          rw [hp] at hstack
          cases hstack
      | cons p ps =>
          rw [hp] at hstack
          obtain ⟨c, e₀, hv, hL⟩ := hstack.1
          replace hv : visitAt texts p = some ⟨c, .stmt (.letDecl name e₀)⟩ := hv
          have herrors := visitAt_errors accepted hv
          simp only [Visit.errors, Resolve.stmt, Findings.errors_append,
            List.append_eq_nil_iff] at herrors
          have hnone := Option.not_isSome_iff_eq_none.mp
            (Bool.eq_false_iff.mp (Findings.errors_when herrors.1))
          have hσ : c.scopes ≠ [] := (visitAt_even hv).ne_nil
          exact (declares_of_here hs hv hL hne
            (Scopes.here?_define_declare hσ false hnone)).mono hextends
  | @moduleDecl name members env stack s =>
      have hstack := hm.stack
      cases hp : t.frames with
      | nil =>
          rw [hp] at hstack
          cases hstack
      | cons p ps =>
          rw [hp] at hstack
          obtain ⟨c, body₀, hv, hL⟩ := hstack.1
          replace hv : visitAt texts p = some ⟨c, .stmt (.moduleDecl name body₀)⟩ := hv
          have herrors := visitAt_errors accepted hv
          simp only [Visit.errors, Resolve.stmt, Findings.errors_append,
            List.append_eq_nil_iff] at herrors
          have hnone := Option.not_isSome_iff_eq_none.mp
            (Bool.eq_false_iff.mp (Findings.errors_when herrors.2))
          have hσ : c.scopes ≠ [] := (visitAt_even hv).ne_nil
          exact (declares_of_here hs hv hL hne
            (Scopes.here?_define_declare hσ false hnone)).mono hextends

theorem Marked.step (h : Marked texts t m.state.store) (hm : Coherent texts t m)
    (accepted : ∀ body ∈ texts, Accepted body) :
    Marked texts (t.step m) m.step.state.store := by
  intro e n hne hro
  have hextends := Trail.extends_step m t
  rcases m.kept_step with hkept | ⟨f, k, v, -, hput⟩
  · rcases hkept.marked hro with hro | hnew
    · exact (h e n hne hro).mono hextends
    · exact declares_of_marks hm accepted hnew hne
  · rw [hput, Store.isReadOnly_put] at hro
    exact (h e n hne hro).mono hextends

end

/-! ## Assignments -/

/-- What the resolver knows about the name of an assignment lets it be changed. -/
theorem Scopes.assignable_of_refer {σ : Scopes} {name : Token}
    (h : (σ.refer name none true).2.errors = []) {d : Nat} {b : Binding}
    (hfind : σ.find? name.lexeme = some (d, b)) : b.assignable = true := by
  simp only [refer, hfind, Bool.true_and] at h
  have hb := Findings.errors_when h
  simpa using hb

/-- The machine is about to let the global `n` stand for `v`, by an assignment. -/
def AssignsGlobal (m : Machine) (n : String) (v : Value) : Prop :=
  ∃ name depth env stack s, m = ⟨.value v, .assign name depth env :: stack, s⟩ ∧
    name.lexeme = n ∧ Machine.target s.store name depth env = some State.globals

section
variable {texts : List (List Stmt)} {t : Trail} {s : State} {v : Value} {name : Token}
  {depth : Option Nat} {env : EnvironmentId} {stack : List Frame}

/-- Where an assignment comes from. -/
theorem visit_of_assign
    (hm : Coherent texts t ⟨.value v, .assign name depth env :: stack, s⟩)
    (hfresh : (t.world texts s.store).Fresh) (accepted : ∀ body ∈ texts, Accepted body) :
    ∃ c v₀, visitAt texts (t.frames.headD []) = some ⟨c, .expr (.assign name v₀ none)⟩ ∧
      (c.scopes.refer name none true).1 = depth ∧
      (t.world texts s.store).sites env = some c.sites ∧
      ∀ d b, c.scopes.find? name.lexeme = some (d, b) → b.assignable = true := by
  have hstack := hm.stack
  cases hp : t.frames with
  | nil =>
      rw [hp] at hstack
      cases hstack
  | cons p ps =>
      rw [hp] at hstack
      obtain ⟨c, v₀, depth₀, hv, hdepth, hL⟩ := hstack.1
      replace hv : visitAt texts p = some ⟨c, .expr (.assign name v₀ depth₀)⟩ := hv
      have hnone : depth₀ = none := hfresh _ _ hv
      subst hnone
      have herrors := visitAt_errors accepted hv
      simp only [Visit.errors, Resolve.expr, Findings.errors_append,
        List.append_eq_nil_iff] at herrors
      exact ⟨c, v₀, hv, hdepth, hL, fun d b => Scopes.assignable_of_refer herrors.2⟩

/-- Inside the globals nothing that is read-only is assigned to. -/
theorem not_readOnly_of_assign
    (hm : Coherent texts t ⟨.value v, .assign name depth env :: stack, s⟩)
    (hfresh : (t.world texts s.store).Fresh) (accepted : ∀ body ∈ texts, Accepted body)
    (hmarked : Marked texts t s.store) {e : EnvironmentId}
    (he : Machine.target s.store name depth env = some e) (hne : e ≠ State.globals) :
    s.store.isReadOnly e name.lexeme = false := by
  obtain ⟨c, v₀, hv, hdepth, hL, hassignable⟩ := visit_of_assign hm hfresh accepted
  cases depth with
  | none =>
      have hmem : e ∈ s.store.chain State.globals := List.mem_of_find?_eq_some he
      rw [Store.chain_globals hm.store.linked] at hmem
      exact absurd (List.mem_singleton.mp hmem) hne
  | some d =>
      obtain ⟨b, hfind⟩ := Scopes.find?_of_refer hdepth
      obtain ⟨scope, hscope, hb⟩ := Scopes.getElem?_of_find? hfind
      have hdeclares := declares_of_visit hm.store hv hL he hne hscope hb
      rw [hassignable d b hfind] at hdeclares
      rw [Bool.eq_false_iff]
      intro hro
      cases hdeclares.unique (hmarked e name.lexeme hne hro)

end

/-! ## Sessions -/

namespace Session

variable {limit : Option Nat} {now : ClockReading} {texts : List (List Stmt)} {t : Trail}
  {m : Machine} {e : EnvironmentId} {n : String} {u v : Value}

theorem Moment.marked (h : Moment limit now texts t m) : Marked texts t m.state.store := by
  induction h with
  | first =>
      intro e n hne hro
      have hlt := Store.lt_of_isReadOnly hro
      have hlt' : e < (State.initial limit now).store.environments.size := hlt
      rw [State.size_initial] at hlt'
      exact absurd (Nat.lt_one_iff.mp hlt') hne
  | move hm ih => exact ih.step hm.coherent hm.sound.accepted
  | aside output events clock _ ih => exact ih
  | @next texts t m source body m' hm _ _ hstart ih =>
      intro e n hne hro
      rw [store_start hstart] at hro
      obtain ⟨site, full, b, hsite, hfull, hb⟩ := ih e n hne hro
      exact ⟨site, full, b, hsite, Site.scope_append _ hfull, hb⟩

/-- `m'` comes after `m`, by moves from machines with the property `P`, by what
happens beside them and by further texts. -/
inductive Later (P : Machine → Prop) (m : Machine) : Machine → Prop
  | refl : Later P m m
  | move {m'} : Later P m m' → P m' → Later P m m'.step
  | aside {m'} (output : Output) (events : List Event) (clock : Nat → ClockReading) :
      Later P m m' → Later P m (m'.aside output events clock)
  | next {m' source m''} : Later P m m' → m'.hasHalted = true →
      start source (conclude m').2 = .ok m'' → Later P m m''

/-- What comes after a moment is a moment. -/
theorem Moment.later {P : Machine → Prop} {m' : Machine} (h : Moment limit now texts t m)
    (hl : Later P m m') : ∃ texts' t', Moment limit now texts' t' m' := by
  induction hl with
  | refl => exact ⟨texts, t, h⟩
  | move _ _ ih =>
      obtain ⟨texts', t', ih⟩ := ih
      exact ⟨texts', _, ih.move⟩
  | aside output events clock _ ih =>
      obtain ⟨texts', t', ih⟩ := ih
      exact ⟨texts', t', ih.aside output events clock⟩
  | next _ hhalted hstart ih =>
      obtain ⟨texts', t', ih⟩ := ih
      obtain ⟨body, -, hread, -, -⟩ := start_eq_ok hstart
      exact ⟨_, _, ih.next hhalted hread hstart⟩

/-- An assignment to the global `n` lets it stand for another value. -/
theorem getLocal?_of_assignsGlobal (hu : m.state.store.getLocal? State.globals n = some u)
    (ha : AssignsGlobal m n v) : m.step.state.store.getLocal? State.globals n = some v := by
  obtain ⟨name, depth, env, stack, s, rfl, rfl, htarget⟩ := ha
  have hbinds : s.store.binds State.globals name.lexeme = true := by
    unfold Store.binds
    rw [show s.store.getLocal? State.globals name.lexeme = some u from hu]
    rfl
  have hchange : Machine.change s.store name depth env v =
      .ok (s.store.put State.globals name.lexeme v) := by
    cases depth with
    | some d => exact Store.assignAt_eq_ok.mpr ⟨_, htarget, hbinds, rfl⟩
    | none => exact Store.assign_eq_ok.mpr ⟨_, htarget, rfl⟩
  simp only [Machine.step, Machine.resume, hchange, Machine.yieldWith]
  rw [Store.getLocal?_put, if_pos ⟨rfl, Store.lt_of_getLocal? hu, rfl⟩]

/-- A move that is no such assignment keeps what a read-only name stands for. -/
theorem Moment.readOnly_step (h : Moment limit now texts t m)
    (hro : m.state.store.isReadOnly e n = true) (hu : m.state.store.getLocal? e n = some u)
    (hquiet : e = State.globals → ∀ v, ¬ AssignsGlobal m n v) :
    m.step.state.store.isReadOnly e n = true ∧ m.step.state.store.getLocal? e n = some u := by
  rcases m.kept_step with hkept | ⟨f, k, v, hrebinds, hput⟩
  · exact ⟨hkept.marks hro, hkept.names hu⟩
  · rw [hput, Store.isReadOnly_put, Store.getLocal?_put]
    refine ⟨hro, ?_⟩
    rw [if_neg, hu]
    rintro ⟨rfl, -, rfl⟩
    cases hrebinds with
    | @assign v name depth env stack s _ htarget hbinds =>
        by_cases hne : e = State.globals
        · subst hne
          exact hquiet rfl v ⟨name, depth, env, stack, s, rfl, rfl, htarget⟩
        · have hfree := not_readOnly_of_assign h.coherent h.fresh h.sound.accepted h.marked
            htarget hne
          exact Bool.eq_false_iff.mp hfree hro
    | setMember hfree hbinds => exact Bool.eq_false_iff.mp hfree hro

/-- At any moment of any session, let `n` be read-only in `e`, where it stands for
`u`.  It stands for `u` at every later moment, of the same text or of another,
unless `e` is the globals and on the way there was an assignment to the global
`n`.  Such an assignment does change it, and comes from a place where the
resolver knew of no read-only name `n`. -/
theorem readOnly_kept (h : Moment limit now texts t m)
    (hro : m.state.store.isReadOnly e n = true) (hu : m.state.store.getLocal? e n = some u) :
    (∀ m', Later (fun m => e = State.globals → ∀ v, ¬ AssignsGlobal m n v) m m' →
      m'.state.store.isReadOnly e n = true ∧ m'.state.store.getLocal? e n = some u) ∧
    (∀ v, e = State.globals → AssignsGlobal m n v →
      m.step.state.store.getLocal? e n = some v ∧
      ∃ c name v₀, visitAt texts (t.frames.headD []) = some ⟨c, .expr (.assign name v₀ none)⟩ ∧
        name.lexeme = n ∧ ∀ d b, c.scopes.find? n = some (d, b) → b.assignable = true) := by
  refine ⟨fun m' hl => ?_, fun v he ha => ?_⟩
  · induction hl with
    | refl => exact ⟨hro, hu⟩
    | @move m' hl hquiet ih =>
        obtain ⟨texts', t', h'⟩ := h.later hl
        exact h'.readOnly_step ih.1 ih.2 hquiet
    | aside output events clock _ ih => exact ih
    | @next m' source m'' _ _ hstart ih =>
        rw [store_start hstart]
        exact ih
  · subst he
    refine ⟨getLocal?_of_assignsGlobal hu ha, ?_⟩
    obtain ⟨name, depth, env, stack, s, rfl, rfl, -⟩ := ha
    obtain ⟨c, v₀, hv, -, -, hassignable⟩ :=
      visit_of_assign h.coherent h.fresh h.sound.accepted
    exact ⟨c, name, v₀, hv, rfl, hassignable⟩

/-! ### Two texts -/

/-- The program of `let a = nil;`. -/
def fixed : List Stmt := [.letDecl (nameAt "a" 5) (.literal .nil)]

/-- The program of `a = true;`. -/
def assigned : List Stmt := [.expression (.assign (nameAt "a" 1) (.literal (.boolean true)) none)]

theorem read_fixed : (read "let a = nil;").2 = .ok fixed := by
  with_unfolding_all rfl

theorem read_assigned : (read "a = true;").2 = .ok assigned := by
  with_unfolding_all rfl

/-- The second text changes what the first one made read-only. -/
theorem readOnly_kept_assigned :
    ∃ t m, Moment none 0 [fixed, assigned] t m ∧
      m.state.store.isReadOnly State.globals "a" = true ∧
      m.state.store.getLocal? State.globals "a" = some .nil ∧
      m.step.state.store.getLocal? State.globals "a" = some (.boolean true) := by
  have hfixed : Moment none 0 [fixed] _ _ := Moment.first.next_of_accepted rfl read_fixed rfl
  have hhalted := hfixed.move.move.move.move.move
  have hassigned : Moment none 0 [fixed, assigned] _ _ :=
    hhalted.next_of_accepted rfl read_assigned rfl
  have hmoment := hassigned.move.move.move.move
  obtain ⟨-, hchanges⟩ :=
    readOnly_kept (e := State.globals) (n := "a") (u := .nil) hmoment rfl rfl
  obtain ⟨hvalue, -⟩ := hchanges (.boolean true) rfl
    ⟨nameAt "a" 1, none, _, _, _, rfl, rfl, by decide +kernel⟩
  exact ⟨_, _, hmoment, rfl, rfl, hvalue⟩

end Session

end Lox
