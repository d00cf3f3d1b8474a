/-
# `this` and `super` in a running program

Where a keyword has a depth, the depth leads to an environment that was made for the class
and holds what the keyword stands for: an instance for `this`, a class for `super`, and
further inside of it the instance for which `super` is used.  So looking at the keyword
fails for one reason only, a superclass without the method.

Where it has none, it stands in the superclass of a class that is in no other class, and
looking at it always fails.  The resolver lets it pass: `Session.keywords_placed`.
-/
import Lox.Proofs.Found
import Lox.Proofs.Keywords

namespace Lox

/-! ## What a keyword finds -/

theorem Machine.lookUp_outermost_eq_error {s : Store} (hlinked : s.Linked) {name : Token}
    (h : s.binds State.globals name.lexeme = false) (env : EnvironmentId) :
    Machine.lookUp s name none env = .error (Store.undefined name) := by
  have hnone : s.getLocal? State.globals name.lexeme = none :=
    Option.not_isSome_iff_eq_none.mp (Bool.eq_false_iff.mp h)
  simp only [lookUp, Store.access, Store.chain_globals hlinked, List.findSome?_cons, hnone,
    List.findSome?_nil]

section
variable {texts : List (List Stmt)} {s : Store} {p : Place} {L : List Site} {σ : Scopes}
  {env : EnvironmentId}

/-- What no text can declare is not awaited anywhere. -/
theorem Ready.supplies (h : Ready texts s (Excused none) p L σ env)
    (hread : ∀ body ∈ texts, WasRead body) (hlinked : s.Linked)
    (hlength : (s.chain env).length = σ.length) {n : String}
    (hn : ∀ x : Token, x.Plain → x.lexeme ≠ n) {d : Nat} {scope : StaticScope}
    (hscope : σ[d]? = some scope) (hhas : Table.has scope n = true) :
    ∃ f, s.ancestor? env d = some f ∧ s.Supplies f n := by
  have hd : d < (s.chain env).length := hlength ▸ (List.getElem?_eq_some_iff.mp hscope).1
  have hf : (s.chain env)[d]? = some (s.chain env)[d] := List.getElem?_eq_getElem hd
  refine ⟨(s.chain env)[d], (Store.ancestor?_eq_getElem? hlinked env d).trans hf, ?_⟩
  rcases h.names d _ scope n hf hscope hhas with hsupplied | hawaited | hexcused
  · exact hsupplied
  · obtain ⟨q, c, st, x, -, hv, hx, hname, -⟩ := hawaited
    have hworded : WordedStmt st := visitAt_worded hread hv
    exact absurd hname (hn x (hworded.plain (Stmt.declares_of_awaits hx)))
  · exact absurd hexcused not_excused_none

end

section
variable {texts : List (List Stmt)} {s : Store} {p : Place} {c : Context} {env : EnvironmentId}
  (h : Ready texts s (Excused none) p c.sites c.scopes env) (hplaced : Placed texts p c)
  (hread : ∀ body ∈ texts, WasRead body) (hlinked : s.Linked)
  (hlength : (s.chain env).length = c.scopes.length)
include h hplaced hread hlinked hlength

/-- The environment of a scope for `this` holds an instance. -/
theorem receiver_supplied {d : Nat} {q : Place} (hd : c.sites[d]? = some (.receiver q)) :
    ∃ f i, s.ancestor? env d = some f ∧ s.getLocal? f Store.receiverName = some (.instance i) := by
  obtain ⟨scope, hscope, hhas⟩ := hplaced.receivers.holds hd
  obtain ⟨f, hf, v, hv, hsuits⟩ :=
    h.supplies hread hlinked hlength (fun x hx => hx.1) hscope hhas
  obtain ⟨i, rfl⟩ := hsuits.1 rfl
  exact ⟨f, i, hf, hv⟩

/-- The environment of a scope for `super` holds a class, and the one further inside an
instance. -/
theorem superclass_supplied {d : Nat} {q : Place} (hd : c.sites[d]? = some (.superclass q)) :
    ∃ f u g i, s.ancestor? env d = some f ∧
      s.getLocal? f Machine.superName = some (.callable (.class u)) ∧
      s.ancestor? env (d - 1) = some g ∧
      s.getLocal? g Store.receiverName = some (.instance i) := by
  obtain ⟨scope, hscope, hhas⟩ := hplaced.superclasses.holds hd
  obtain ⟨f, hf, v, hv, hsuits⟩ :=
    h.supplies hread hlinked hlength (fun x hx => hx.2) hscope hhas
  obtain ⟨u, rfl⟩ := hsuits.2 rfl
  obtain ⟨j, rfl, hj⟩ := hplaced.inner d q hd
  obtain ⟨g, i, hg, hi⟩ := receiver_supplied h hplaced hread hlinked hlength hj
  exact ⟨f, u, g, i, hf, hv, hg, hi⟩

end

/-- Of a superclass and an instance, `super` takes a method, or the method is missing. -/
theorem Machine.superMethod_found {s : Store} {keyword : Token} (method : Token) {d : Nat}
    {env f g : EnvironmentId} {u : Class} {i : Instance}
    (hf : s.ancestor? env d = some f)
    (hu : s.getLocal? f keyword.lexeme = some (.callable (.class u)))
    (hg : s.ancestor? env (d - 1) = some g)
    (hi : s.getLocal? g Store.receiverName = some (.instance i)) :
    (∃ m, superMethod s keyword method (some d) env = .ok (m, i)) ∨
      superMethod s keyword method (some d) env =
        .error (.blaming method (.undefinedProperty method.lexeme)) := by
  have hclass : s.accessAt env d keyword = .ok (.callable (.class u)) :=
    Store.accessAt_eq_ok.mpr ⟨f, hf, hu⟩
  have hreceiver : s.accessAt env (d - 1) (.implicitAt Store.receiverName keyword) =
      .ok (.instance i) := Store.accessAt_eq_ok.mpr ⟨g, hg, hi⟩
  cases hm : u.findMethod? method.lexeme with
  | some m =>
      refine .inl ⟨m, ?_⟩
      simp only [superMethod, superclassAt, receiverAt, hclass, hreceiver, hm]
  | none =>
      refine .inr ?_
      simp only [superMethod, superclassAt, receiverAt, hclass, hreceiver, hm]

section
variable {m : Machine} {keyword method : Token} {depth : Option Nat} {env : EnvironmentId}

theorem Machine.step_receiver (h : m.control = .evaluate (.receiver keyword depth) env) :
    m.step = yield (lookUp m.state.store keyword depth env) m.stack m.state := by
  obtain ⟨control, stack, s⟩ := m
  cases h
  rfl

theorem Machine.step_superMethod
    (h : m.control = .evaluate (.superMethod keyword method depth) env) :
    (∀ u i, superMethod m.state.store keyword method depth env = .ok (u, i) →
      ∃ f, m.step.control = .value (.callable (.function f))) ∧
    ∀ e, superMethod m.state.store keyword method depth env = .error e →
      m.step.control = .unwind (.failure e) := by
  obtain ⟨control, stack, s⟩ := m
  cases h
  refine ⟨fun u i hfound => ⟨(s.store.bindMethod u i).1, ?_⟩, fun e hfails => ?_⟩
  · simp only [step, evaluate, hfound]
  · simp only [step, evaluate, hfails, fail]

end

/-! ## Nodes that the resolver made keywords of -/

section
variable {c : Context} {e : Expr} {keyword method : Token} {depth : Option Nat}

/-- Nothing but a `this` becomes one. -/
theorem Context.receiver_of_expr (h : c.expr e = .receiver keyword depth) :
    ∃ old, e = .receiver keyword old := by
  cases e with
  | receiver k old =>
      obtain ⟨new, hnew, -⟩ := c.expr_receiver k old
      cases hnew.symm.trans h
      exact ⟨old, rfl⟩
  | superMethod k n old =>
      obtain ⟨new, hnew, -⟩ := c.expr_superMethod k n old
      cases hnew.symm.trans h
  | _ => cases h

/-- Nothing but a `super` becomes one. -/
theorem Context.superMethod_of_expr (h : c.expr e = .superMethod keyword method depth) :
    ∃ old, e = .superMethod keyword method old := by
  cases e with
  | receiver k old =>
      obtain ⟨new, hnew, -⟩ := c.expr_receiver k old
      cases hnew.symm.trans h
  | superMethod k n old =>
      obtain ⟨new, hnew, -⟩ := c.expr_superMethod k n old
      cases hnew.symm.trans h
      exact ⟨old, rfl⟩
  | _ => cases h

end

/-! ## The globals -/

/-- The natives are the only names that are there at the beginning. -/
theorem State.binds_withNatives {s : Store} {natives : List Native} {e : EnvironmentId}
    {n : String} (h : (State.withNatives s natives).binds e n = true) :
    s.binds e n = true ∨ ∃ native : Native, native.name = n := by
  induction natives generalizing s with
  | nil => exact .inl h
  | cons native natives ih =>
      rcases ih h with hput | hnative
      · rcases Store.binds_of_put hput with hold | ⟨-, rfl⟩
        · exact .inl hold
        · exact .inr ⟨native, rfl⟩
      · exact .inr hnative

namespace Session

variable {limit : Option Nat} {now : ClockReading} {texts : List (List Stmt)} {t : Trail}
  {m : Machine}

/-- The globals hold only names that a text can declare. -/
theorem Moment.plain_of_binds_globals (h : Moment limit now texts t m) {n : String}
    (hn : m.state.store.binds State.globals n = true) : ∃ x : Token, x.Plain ∧ x.lexeme = n := by
  induction h with
  | first =>
      rcases State.binds_withNatives hn with hold | ⟨native, rfl⟩
      · cases hold
      · refine ⟨⟨.identifier, native.name, ⟨1, 1⟩⟩, ?_, rfl⟩
        cases native <;> exact ⟨by decide, by decide⟩
  | @move texts t m hm ih =>
      have hsound := hm.sound
      have hstore := hsound.coherent.store
      have hglobals : State.globals < m.state.store.environments.size :=
        hstore.origins ▸ Trail.sites_lt hstore.outermost
      rcases Machine.binds_of_step hglobals hn with hold | ⟨x, hdue, hx⟩
      · exact ih hold
      · obtain ⟨c, st, hv, hst, -⟩ := hsound.coherent.declares hdue
        have hworded : WordedStmt st := visitAt_worded hsound.read hv
        exact ⟨x, hworded.plain hst, hx⟩
  | aside _ _ _ _ ih => exact ih hn
  | next _ _ _ hstart ih => exact ih (store_start hstart ▸ hn)

theorem Moment.not_binds_globals (h : Moment limit now texts t m) {n : String}
    (hn : ∀ x : Token, x.Plain → x.lexeme ≠ n) :
    m.state.store.binds State.globals n = false := by
  rw [Bool.eq_false_iff]
  intro hbinds
  obtain ⟨x, hx, hname⟩ := h.plain_of_binds_globals hbinds
  exact hn x hx hname

/-! ## Keywords -/

/-- In every session the depth of a `this` leads to the innermost class around it, and the
depth of a `super` to the innermost class around it that has a superclass; one without a
depth is in no such class, and stands inside the superclass of a class.

At every moment looking at a `this` that has a depth yields an instance, and looking at a
`super` that has one yields a method, or fails because the superclass has no such method.
Looking at one without a depth fails. -/
theorem keywords_placed (h : Moment limit now texts t m) :
    (∀ p c keyword depth, visitAt texts p = some ⟨c, .expr (.receiver keyword depth)⟩ →
      (∃ d, c.expr (.receiver keyword depth) = .receiver keyword (some d) ∧
        Nearest .receiver c.sites d) ∨
      c.expr (.receiver keyword depth) = .receiver keyword none ∧
        (∀ q, .receiver q ∉ c.sites) ∧ InSuperclass texts p) ∧
    (∀ p c keyword method depth,
      visitAt texts p = some ⟨c, .expr (.superMethod keyword method depth)⟩ →
      (∃ d, c.expr (.superMethod keyword method depth) = .superMethod keyword method (some d) ∧
        Nearest .superclass c.sites d) ∨
      c.expr (.superMethod keyword method depth) = .superMethod keyword method none ∧
        (∀ q, .superclass q ∉ c.sites) ∧ InSuperclass texts p) ∧
    (∀ keyword depth env, m.control = .evaluate (.receiver keyword depth) env →
      (∃ d i, depth = some d ∧ m.step.control = .value (.instance i)) ∨
      depth = none ∧ InSuperclass texts t.here ∧
        m.step.control = .unwind (.failure (Store.undefined keyword))) ∧
    (∀ keyword method depth env,
      m.control = .evaluate (.superMethod keyword method depth) env →
      (∃ d, depth = some d ∧
        ((∃ f, m.step.control = .value (.callable (.function f))) ∨
          m.step.control =
            .unwind (.failure (.blaming method (.undefinedProperty method.lexeme))))) ∨
      depth = none ∧ InSuperclass texts t.here ∧
        m.step.control = .unwind (.failure (.blaming keyword .unresolvedSuper))) := by
  have hsound := h.sound
  have haccepted := hsound.accepted
  have hread := hsound.read
  have hlinked := hsound.coherent.store.linked
  -- what is looked at is ready, in the scopes that the resolver had there
  have hready : ∀ {e env}, m.control = .evaluate e env →
      ExprReady texts m.state.store t.here env := by
    intro e env he
    have hcontrol := h.settled.control
    rw [he] at hcontrol
    exact hcontrol
  refine ⟨fun p c keyword depth => receiver_placed haccepted hread,
    fun p c keyword method depth => superMethod_placed haccepted hread, ?_, ?_⟩
  · intro keyword depth env he
    obtain ⟨c, e, hv, hexpr, hchain⟩ := h.expr_inStep he
    obtain ⟨old, rfl⟩ := Context.receiver_of_expr hexpr
    have hstep := Machine.step_receiver he
    have hworded : WordedExpr (.receiver keyword old) := visitAt_worded hread hv
    cases hworded with
    | receiver hname =>
        rcases receiver_placed haccepted hread hv with ⟨d, hd, ⟨q, hq⟩, -⟩ | ⟨hd, -, hinside⟩
        · cases hexpr.symm.trans hd
          obtain ⟨f, i, hf, hi⟩ := receiver_supplied ((hready he).ready hv)
            (visitAt_placed hread hv) hread hlinked hchain.length hq
          have hfound : Machine.lookUp m.state.store keyword (some d) env = .ok (.instance i) :=
            Store.accessAt_eq_ok.mpr ⟨f, hf, hname ▸ hi⟩
          refine .inl ⟨d, i, rfl, ?_⟩
          rw [hstep, hfound]
          rfl
        · cases hexpr.symm.trans hd
          have hfails := Machine.lookUp_outermost_eq_error hlinked
            (h.not_binds_globals (n := keyword.lexeme) fun x hx => hname ▸ hx.1) env
          refine .inr ⟨rfl, hinside, ?_⟩
          rw [hstep, hfails]
          rfl
  · intro keyword method depth env he
    obtain ⟨c, e, hv, hexpr, hchain⟩ := h.expr_inStep he
    obtain ⟨old, rfl⟩ := Context.superMethod_of_expr hexpr
    obtain ⟨hok, herror⟩ := Machine.step_superMethod he
    have hworded : WordedExpr (.superMethod keyword method old) := visitAt_worded hread hv
    cases hworded with
    | superMethod hname =>
        rcases superMethod_placed haccepted hread hv with ⟨d, hd, ⟨q, hq⟩, -⟩ | ⟨hd, -, hinside⟩
        · cases hexpr.symm.trans hd
          obtain ⟨f, u, g, i, hf, hu, hg, hi⟩ := superclass_supplied ((hready he).ready hv)
            (visitAt_placed hread hv) hread hlinked hchain.length hq
          have hu' : m.state.store.getLocal? f keyword.lexeme = some (.callable (.class u)) :=
            (congrArg _ hname).trans hu
          refine .inl ⟨d, rfl, ?_⟩
          rcases Machine.superMethod_found method hf hu' hg hi with ⟨found, hfound⟩ | hmissing
          · exact .inl (hok found i hfound)
          · exact .inr (herror _ hmissing)
        · cases hexpr.symm.trans hd
          exact .inr ⟨rfl, hinside, herror _ rfl⟩

/-! ### One text -/

/-- The `this` of `class A < this {}`. -/
def superclassThis : Token := ⟨.kwThis, "this", ⟨1, 11⟩⟩

/-- The program of `class A < this {}`. -/
def heirOfThis : List Stmt :=
  [.classDecl (nameAt "A" 7) (some (.receiver superclassThis none)) []]

theorem read_heirOfThis : (read "class A < this {}").2 = .ok heirOfThis := by
  with_unfolding_all rfl

/-- The resolver accepts a `this` outside of all classes if it is a superclass.  It has no
depth, and looking at it fails. -/
theorem keywords_placed_heirOfThis :
    ∃ t m, Moment none 0 [heirOfThis] t m ∧
      m.control = .evaluate (.receiver superclassThis none) State.globals ∧
      InSuperclass [heirOfThis] t.here ∧
      m.step.control = .unwind (.failure (Store.undefined superclassThis)) := by
  have hfirst : Moment none 0 [heirOfThis] _ _ :=
    Moment.first.next_of_accepted rfl read_heirOfThis rfl
  have hmoment := hfirst.move.move
  rcases (keywords_placed hmoment).2.2.1 superclassThis none State.globals rfl with
    ⟨d, i, hd, -⟩ | ⟨-, hinside, hfails⟩
  · cases hd
  · exact ⟨_, _, hmoment, rfl, hinside, hfails⟩

end Session

end Lox
