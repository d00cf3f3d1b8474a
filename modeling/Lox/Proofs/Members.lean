/-
# What a module offers

A module is known by its environment.  A name behind a dot is looked up in this environment
alone, a name inside of the module in the environment that its depth leads to; where the
resolver has found the name in the scope of the module's body, this is the same one.  So both
denote one binding, whichever way it is read or written, and what is around the module is
seen by neither: `members_are_bindings`.
-/
import Lox.Proofs.Bodies
import Lox.Proofs.Enclosing
import Lox.Proofs.Found
import Lox.Proofs.ReadOnly
import Lox.Proofs.Reached

namespace Lox

/-! ## Names of a body -/

/-- Statements add the names that they declare, and no others. -/
theorem Context.adds_through (c : Context) {sts : List Stmt} (h : ∀ st ∈ sts, WordedStmt st) :
    c.scopes.Adds (DeclaresMember sts) (c.through sts).scopes := by
  induction sts generalizing c with
  | nil => exact .refl c.scopes
  | cons st sts ih =>
      obtain ⟨hst, hsts⟩ := List.forall_mem_cons.mp h
      refine Scopes.Adds.trans ((Context.adds_after hst).imp ?_) ((ih (c.after st) hsts).imp ?_)
      · exact fun n hn => ⟨st, List.mem_cons_self, hn⟩
      · exact fun n ⟨st', hst', hn⟩ => ⟨st', List.mem_cons_of_mem st hst', hn⟩

/-- The scope of a module has the names that its body declares. -/
theorem declaresMember_of_scope {texts : List (List Stmt)} (hread : ∀ body ∈ texts, WasRead body)
    {q : Place} {c : Context} {name : Token} {body : List Stmt}
    (hq : visitAt texts q = some ⟨c, .stmt (.moduleDecl name body)⟩) {full : StaticScope}
    (hfull : (Site.members q).scope texts = some full) {n : String} {b : Binding}
    (hb : full.get? n = some b) : DeclaresMember body n := by
  have hworded : WordedStmt (.moduleDecl name body) := visitAt_worded hread hq
  cases hworded with
  | moduleDecl _ hbody =>
      have hadds := (c.members q).adds_through hbody
      simp only [Site.scope, hq, List.head?_eq_getElem?] at hfull
      obtain ⟨scope, hscope, hnames⟩ := hadds.at hfull
      cases hscope
      have hhas : Table.has full n = true := by
        unfold Table.has
        rw [hb]
        rfl
      rcases hnames n hhas with hnothing | ⟨-, hdeclares⟩
      · cases hnothing
      · exact hdeclares

/-! ## One binding -/

/-- In `s'` the name `n` of `e` stands for `v`; everything else is as it is in `s`. -/
structure Store.Rebound (e : EnvironmentId) (n : String) (v : Value) (s s' : Store) : Prop where
  value : s'.getLocal? e n = some v
  names : ∀ f k, ¬ (f = e ∧ k = n) → s'.getLocal? f k = s.getLocal? f k
  marks : ∀ f k, s'.isReadOnly f k = s.isReadOnly f k
  links : ∀ f, s'.enclosing? f = s.enclosing? f
  size : s'.environments.size = s.environments.size
  fields : s'.fields = s.fields
  arrays : s'.arrays = s.arrays
  identities : s'.identities = s.identities

theorem Store.rebound_put {s : Store} {e : EnvironmentId} (he : e < s.environments.size)
    (n : String) (v : Value) : s.Rebound e n v (s.put e n v) where
  value := by rw [getLocal?_put, if_pos ⟨rfl, he, rfl⟩]
  names f k hne := by
    rw [getLocal?_put, if_neg]
    exact fun h => hne ⟨h.1, h.2.2⟩
  marks f k := isReadOnly_put ..
  links f := enclosing?_put ..
  size := size_put ..
  fields := rfl
  arrays := rfl
  identities := rfl

namespace Machine

/-- The move reads the name `n` of `e`, and does nothing else. -/
def Reads (m : Machine) (e : EnvironmentId) (n : String) (stack : List Frame) : Prop :=
  ∃ v, m.state.store.getLocal? e n = some v ∧ m.step = ⟨.value v, stack, m.state⟩

/-- The move lets the name `n` of `e` stand for `v`, and does nothing else. -/
def Writes (m : Machine) (e : EnvironmentId) (n : String) (v : Value) (stack : List Frame) :
    Prop :=
  ∃ store, m.state.store.Rebound e n v store ∧
    m.step = ⟨.value v, stack, { m.state with store := store }⟩

/-- The move fails at the name, and does nothing else. -/
def Refuses (m : Machine) (name : Token) (fault : Fault) (stack : List Frame) : Prop :=
  m.step = fail (.blaming name fault) stack m.state

section
variable {m : Machine} {name : Token} {stack : List Frame} {M : Module} {v : Value}
  {e env : EnvironmentId} {d : Nat}

theorem reads_variable (h : m.control = .evaluate (.variable name (some d)) env)
    (he : m.state.store.ancestor? env d = some e)
    (hb : m.state.store.binds e name.lexeme = true) : m.Reads e name.lexeme m.stack := by
  obtain ⟨control, stack, s⟩ := m
  cases h
  obtain ⟨v, hv⟩ := Store.binds_eq_true.mp hb
  refine ⟨v, hv, ?_⟩
  have hfound : lookUp s.store name (some d) env = .ok v := Store.accessAt_eq_ok.mpr ⟨e, he, hv⟩
  simp only [step, evaluate, hfound, yield]

theorem writes_assign (h : m.control = .value v)
    (hstack : m.stack = .assign name (some d) env :: stack)
    (he : m.state.store.ancestor? env d = some e) (hlt : e < m.state.store.environments.size)
    (hb : m.state.store.binds e name.lexeme = true) : m.Writes e name.lexeme v stack := by
  obtain ⟨control, frames, s⟩ := m
  cases h
  cases hstack
  refine ⟨_, Store.rebound_put hlt name.lexeme v, ?_⟩
  have hchange : change s.store name (some d) env v = .ok (s.store.put e name.lexeme v) :=
    Store.assignAt_eq_ok.mpr ⟨e, he, hb, rfl⟩
  simp only [step, resume, hchange, yieldWith]

/-- A name behind a dot is read from the environment of the module. -/
theorem reads_get (h : m.control = .value (.module M)) (hstack : m.stack = .get name :: stack)
    (hb : m.state.store.binds M.environment name.lexeme = true) :
    m.Reads M.environment name.lexeme stack := by
  obtain ⟨control, frames, s⟩ := m
  cases h
  cases hstack
  obtain ⟨v, hv⟩ := Store.binds_eq_true.mp hb
  refine ⟨v, hv, ?_⟩
  simp only [step, resume, hv]

theorem refuses_get (h : m.control = .value (.module M)) (hstack : m.stack = .get name :: stack)
    (hb : m.state.store.binds M.environment name.lexeme = false) :
    m.Refuses name (.undefinedProperty name.lexeme) stack := by
  obtain ⟨control, frames, s⟩ := m
  cases h
  cases hstack
  have hnone : s.store.getLocal? M.environment name.lexeme = none :=
    Option.not_isSome_iff_eq_none.mp (Bool.eq_false_iff.mp hb)
  simp only [Refuses, step, resume, hnone]

section
variable (h : m.control = .value v) (hstack : m.stack = .setMember M name :: stack)
include h hstack

theorem writes_setMember (hfree : m.state.store.isReadOnly M.environment name.lexeme = false)
    (hlt : M.environment < m.state.store.environments.size)
    (hb : m.state.store.binds M.environment name.lexeme = true) :
    m.Writes M.environment name.lexeme v stack := by
  obtain ⟨control, frames, s⟩ := m
  cases h
  cases hstack
  refine ⟨_, Store.rebound_put hlt name.lexeme v, ?_⟩
  simp only [step, resume, hfree, Store.assignLocal?, hb]
  rfl

theorem refuses_readOnly (hmarked : m.state.store.isReadOnly M.environment name.lexeme = true) :
    m.Refuses name (.readOnly name.lexeme) stack := by
  obtain ⟨control, frames, s⟩ := m
  cases h
  cases hstack
  simp only [Refuses, step, resume, hmarked, if_true]

theorem refuses_setMember (hfree : m.state.store.isReadOnly M.environment name.lexeme = false)
    (hb : m.state.store.binds M.environment name.lexeme = false) :
    m.Refuses name (.undefinedProperty name.lexeme) stack := by
  obtain ⟨control, frames, s⟩ := m
  cases h
  cases hstack
  simp only [Refuses, step, resume, hfree, Store.assignLocal?, hb]
  rfl

end

end

end Machine

namespace Session

variable {limit : Option Nat} {now : ClockReading} {texts : List (List Stmt)} {t : Trail}
  {m : Machine} {e env : EnvironmentId} {q : Place} {name : Token} {body : List Stmt} {d : Nat}

/-- At `p` the resolver found the name, `d` scopes outwards, among the members of the module
at `q`. -/
def BoundTo (texts : List (List Stmt)) (p : Place) (name : Token) (d : Nat) (q : Place) : Prop :=
  ∃ c node b, visitAt texts p = some ⟨c, node⟩ ∧ c.scopes.find? name.lexeme = some (d, b) ∧
    c.sites[d]? = some (.members q)

/-- What the resolver found among the members of a module, the body of the module declares. -/
theorem BoundTo.declared {p : Place} (h : BoundTo texts p name d q)
    (hread : ∀ body ∈ texts, WasRead body) {c : Context} {x : Token}
    (hq : visitAt texts q = some ⟨c, .stmt (.moduleDecl x body)⟩) :
    DeclaresMember body name.lexeme := by
  obtain ⟨c', node, b, hv, hfind, hsite⟩ := h
  obtain ⟨scope, hscope, hb⟩ := Scopes.getElem?_of_find? hfind
  have hfits := Fits.mono (visitAt_fits hv) (Visit.grows_left _)
  obtain ⟨full, hfull, hagrees⟩ := hfits.at hsite hscope nofun
  obtain ⟨b', hb', -⟩ := hagrees _ b hb
  exact declaresMember_of_scope hread hq hfull hb'

/-- The resolver's depth leads to the environment of a module from everywhere inside of it,
and from nowhere else. -/
theorem ancestor_iff_boundTo (hs : StoreOk texts t m.state.store) {p : Place} {c : Context}
    {node : Node} (hv : visitAt texts p = some ⟨c, node⟩)
    (hstep : InStep t m.state.store env c) {b : Binding}
    (hfind : c.scopes.find? name.lexeme = some (d, b)) (he : t.origins[e]? = some (.members q)) :
    m.state.store.ancestor? env d = some e ↔
      BoundTo texts p name d q ∧ e ∈ m.state.store.chain env := by
  rw [Store.ancestor?_eq_getElem? hs.linked]
  constructor
  · intro hd
    exact ⟨⟨c, node, b, hv, hfind, (hstep.origin hd).symm.trans he⟩, List.mem_of_getElem? hd⟩
  · rintro ⟨⟨c', node', b', hv', -, hsite⟩, hmem⟩
    cases hv.symm.trans hv'
    obtain ⟨k, hk⟩ := List.mem_iff_getElem?.mp hmem
    have hsite' : c.sites[k]? = some (.members q) := (hstep.origin hk).symm.trans he
    have hlt := (List.getElem?_eq_some_iff.mp hsite).1
    cases (List.getElem?_inj hlt (visitAt_enclosed hv).nodup).mp (hsite.trans hsite'.symm)
    exact hk

/-- What the machine does with the module at `q` whose environment is `e`. -/
structure Offers (texts : List (List Stmt)) (t : Trail) (m : Machine) (e : EnvironmentId)
    (q : Place) (body : List Stmt) : Prop where
  get : ∀ M name stack, M.environment = e → m.control = .value (.module M) →
    m.stack = .get name :: stack →
    DeclaresMember body name.lexeme ∧ m.Reads e name.lexeme stack ∨
      ¬ DeclaresMember body name.lexeme ∧
        m.Refuses name (.undefinedProperty name.lexeme) stack
  set : ∀ M name v stack, M.environment = e → m.control = .value v →
    m.stack = .setMember M name :: stack →
    DeclaresMember body name.lexeme ∧ m.state.store.isReadOnly e name.lexeme = false ∧
        m.Writes e name.lexeme v stack ∨
      DeclaresMember body name.lexeme ∧ m.state.store.isReadOnly e name.lexeme = true ∧
        m.Refuses name (.readOnly name.lexeme) stack ∨
      ¬ DeclaresMember body name.lexeme ∧
        m.Refuses name (.undefinedProperty name.lexeme) stack
  reference : ∀ name d env, m.control = .evaluate (.variable name (some d)) env →
    (m.state.store.ancestor? env d = some e ↔
      BoundTo texts t.here name d q ∧ e ∈ m.state.store.chain env) ∧
    (m.state.store.ancestor? env d = some e → m.Reads e name.lexeme m.stack)
  assignment : ∀ v name d env stack, m.control = .value v →
    m.stack = .assign name (some d) env :: stack →
    (m.state.store.ancestor? env d = some e ↔
      BoundTo texts (t.frames.headD []) name d q ∧ e ∈ m.state.store.chain env) ∧
    (m.state.store.ancestor? env d = some e → m.Writes e name.lexeme v stack)
  changes : ∀ n, m.step.state.store.getLocal? e n ≠ m.state.store.getLocal? e n →
    ∃ v, m.Rebinds e n v ∧ m.step.state.store.getLocal? e n = some v

/-- What is read-only in the environment of a module, the module declares. -/
theorem MembersOf.declared_of_readOnly (h : MembersOf texts t m.state.store e q name body)
    (hm : Moment limit now texts t m) {n : String}
    (hmarked : m.state.store.isReadOnly e n = true) : DeclaresMember body n := by
  have hglobals : e ≠ State.globals := by
    rintro rfl
    obtain ⟨outer, houter⟩ := Trail.sites_eq_cons hm.coherent.store.outermost h.origin
    cases houter
  obtain ⟨site, full, b, hsite, hfull, hb, -⟩ := hm.marked e n hglobals hmarked
  cases hsite.symm.trans h.origin
  obtain ⟨c, hq⟩ := h.declared
  exact declaresMember_of_scope hm.sound.read hq hfull hb

section
variable (h : Members texts t m.state.store e q name body) (hm : Moment limit now texts t m)
include h

theorem Members.binds_eq_false {n : String} (hn : ¬ DeclaresMember body n) :
    m.state.store.binds e n = false :=
  Bool.eq_false_iff.mpr fun hb => hn (h.only n hb)

include hm

/-- What the resolver has bound to a member is there. -/
theorem Members.ancestor {x : Token} {p : Place} {c : Context} {node : Node}
    (hv : visitAt texts p = some ⟨c, node⟩) (hstep : InStep t m.state.store env c) {b : Binding}
    (hfind : c.scopes.find? x.lexeme = some (d, b)) :
    (m.state.store.ancestor? env d = some e ↔
      BoundTo texts p x d q ∧ e ∈ m.state.store.chain env) ∧
    (m.state.store.ancestor? env d = some e → m.state.store.binds e x.lexeme = true) := by
  have hiff := ancestor_iff_boundTo hm.coherent.store hv hstep hfind h.origin
  refine ⟨hiff, fun hd => ?_⟩
  obtain ⟨c', hq⟩ := h.declared
  exact h.all _ ((hiff.mp hd).1.declared hm.sound.read hq)

/-- A reference reads a member if the resolver has bound it to the member, and only then. -/
theorem Members.reference {x : Token}
    (hcontrol : m.control = .evaluate (.variable x (some d)) env) :
    (m.state.store.ancestor? env d = some e ↔
      BoundTo texts t.here x d q ∧ e ∈ m.state.store.chain env) ∧
    (m.state.store.ancestor? env d = some e → m.Reads e x.lexeme m.stack) := by
  obtain ⟨c, e₀, b, f, hv, -, hfind, -⟩ := (reference_found hm).1 x d env hcontrol
  obtain ⟨c', e₁, hv', -, hstep⟩ := hm.expr_inStep hcontrol
  cases hv.symm.trans hv'
  obtain ⟨hiff, hbinds⟩ := h.ancestor hm hv hstep hfind
  exact ⟨hiff, fun hd => Machine.reads_variable hcontrol hd (hbinds hd)⟩

/-- So does an assignment write one. -/
theorem Members.assignment {x : Token} {v : Value} {stack : List Frame}
    (hcontrol : m.control = .value v) (hstack : m.stack = .assign x (some d) env :: stack) :
    (m.state.store.ancestor? env d = some e ↔
      BoundTo texts (t.frames.headD []) x d q ∧ e ∈ m.state.store.chain env) ∧
    (m.state.store.ancestor? env d = some e → m.Writes e x.lexeme v stack) := by
  obtain ⟨c, v₀, b, f, hv, hfind, -⟩ := (reference_found hm).2 v x d env stack hcontrol hstack
  obtain ⟨c', v₁, hv', -, hstep⟩ := hm.assign_inStep hstack
  cases hv.symm.trans hv'
  obtain ⟨hiff, hbinds⟩ := h.ancestor hm hv hstep hfind
  exact ⟨hiff, fun hd => Machine.writes_assign hcontrol hstack hd (h.there hm) (hbinds hd)⟩

/-- Nothing but an assignment changes what a member stands for. -/
theorem Members.changes {n : String}
    (hne : m.step.state.store.getLocal? e n ≠ m.state.store.getLocal? e n) :
    ∃ v, m.Rebinds e n v ∧ m.step.state.store.getLocal? e n = some v := by
  rcases m.kept_step with hkept | ⟨f, k, v, hrebinds, hput⟩
  · refine absurd ?_ hne
    by_cases hn : DeclaresMember body n
    · obtain ⟨u, hu⟩ := Store.binds_eq_true.mp (h.all n hn)
      rw [hu, hkept.names hu]
    · -- a name that the body does not declare is not there afterwards either
      have hbefore := Option.not_isSome_iff_eq_none.mp (Bool.eq_false_iff.mp (h.binds_eq_false hn))
      have hafter := Option.not_isSome_iff_eq_none.mp
        (Bool.eq_false_iff.mp ((h.step hm).binds_eq_false hn))
      exact hafter.trans hbefore.symm
  · rw [hput, Store.getLocal?_put] at hne ⊢
    split at hne
    · rename_i heq
      obtain ⟨rfl, hlt, rfl⟩ := heq
      exact ⟨v, hrebinds, if_pos ⟨rfl, hlt, rfl⟩⟩
    · exact absurd rfl hne

theorem Members.offers : Offers texts t m e q body := by
  have hthere := h.there hm
  refine ⟨?_, ?_, fun _ _ _ => h.reference hm, fun _ _ _ _ _ => h.assignment hm,
    fun _ => h.changes hm⟩
  · rintro M x stack rfl hcontrol hstack
    by_cases hx : DeclaresMember body x.lexeme
    · exact .inl ⟨hx, Machine.reads_get hcontrol hstack (h.all _ hx)⟩
    · exact .inr ⟨hx, Machine.refuses_get hcontrol hstack (h.binds_eq_false hx)⟩
  · rintro M x v stack rfl hcontrol hstack
    cases hmarked : m.state.store.isReadOnly M.environment x.lexeme with
    | true =>
        have hx := h.declared_of_readOnly hm hmarked
        exact .inr (.inl ⟨hx, rfl, Machine.refuses_readOnly hcontrol hstack hmarked⟩)
    | false =>
        by_cases hx : DeclaresMember body x.lexeme
        · exact .inl ⟨hx, rfl,
            Machine.writes_setMember hcontrol hstack hmarked hthere (h.all _ hx)⟩
        · exact .inr (.inr ⟨hx,
            Machine.refuses_setMember hcontrol hstack hmarked (h.binds_eq_false hx)⟩)

end

/-- A module that is made is what its name stands for. -/
theorem Moment.module_made (h : Moment limit now texts t m) {members : EnvironmentId}
    {base : List Frame} (hdone : m.control = .done)
    (hstack : m.stack = .moduleBody name members env :: base) (hmade : m.step.control = .done) :
    m.step.state.store.getLocal? env name.lexeme = some (.module ⟨name.lexeme, members⟩) := by
  have hcoherent := h.coherent
  obtain ⟨control, stack, s⟩ := m
  cases hdone
  cases hstack
  obtain ⟨c, st, -, -, hsites⟩ := hcoherent.declares rfl
  have henv : env < s.store.environments.size := hcoherent.store.origins ▸ Trail.sites_lt hsites
  simp only [Machine.step, Machine.proceed] at hmade ⊢
  cases hr : s.store.defineReadOnly env name (.module ⟨name.lexeme, members⟩) with
  | error e =>
      simp only [State.note, hr] at hmade
      cases hmade
  | ok store =>
      obtain ⟨-, rfl⟩ := Store.defineReadOnly_eq_ok.mp hr
      simp only [State.note, hr, Machine.doneWith, Store.getLocal?_protect, Store.getLocal?_put,
        henv, and_self, if_true]

/-! ## The theorem -/

/-- Let the body of a module have come to its end, with the environment `members`.  If the
name of the module is free, it stands for the module then.  From this moment on, in this text
and in later ones, a name behind a dot reads and writes the binding in `members` if the body
itself declares the name, and is refused if not; a reference or an assignment to which the
resolver has bound this declaration reads and writes the same one; and nothing else does. -/
theorem members_are_bindings (h : Moment limit now texts t m) {members : EnvironmentId}
    {base : List Frame} (hdone : m.control = .done)
    (hstack : m.stack = .moduleBody name members env :: base) :
    (m.step.control = .done →
      m.step.state.store.getLocal? env name.lexeme = some (.module ⟨name.lexeme, members⟩)) ∧
    ∃ q c body, visitAt texts q = some ⟨c, .stmt (.moduleDecl name body)⟩ ∧
      t.origins[members]? = some (.members q) ∧
      ∀ texts' t' m', After texts t m texts' t' m' → Offers texts' t' m' members q body := by
  obtain ⟨q, body, hmembers⟩ := h.completed hdone hstack
  obtain ⟨c, hq⟩ := hmembers.declared
  exact ⟨h.module_made hdone hstack, q, c, body, hq, hmembers.origin,
    fun texts' t' m' ha => (ha.members h hmembers).offers (h.after ha)⟩

/-! ### One text -/

/-- A program that sets a member of a module, calls a function that reads the member, and
asks the module for a name that is around it. -/
def memberSet : List Stmt :=
  [.varDecl (nameAt "y" 5) none,
   .moduleDecl (nameAt "m" 15)
    [.varDecl (nameAt "x" 23) none,
     .functionDecl (.mk ⟨.kwFun, "fun", ⟨1, 26⟩⟩ (some (nameAt "f" 30)) []
      [.returnWith ⟨.kwReturn, "return", ⟨1, 36⟩⟩ (some (.variable (nameAt "x" 43) none))])],
   .expression (.set (.variable (nameAt "m" 50) none) (nameAt "x" 52) (.literal (.boolean true))),
   .expression (.call (.get (.variable (nameAt "m" 62) none) (nameAt "f" 64))
    ⟨.rightParen, ")", ⟨1, 66⟩⟩ []),
   .expression (.get (.variable (nameAt "m" 69) none) (nameAt "y" 71))]

theorem read_memberSet :
    (read "var y; module m { var x; fun f() { return x; } } m.x = true; m.f(); m.y;").2 =
      .ok memberSet := by
  with_unfolding_all rfl

/-- The machine that is about to run this program. -/
def startMemberSet : Machine :=
  State.starting (Resolve.program memberSet).1 (.initial none 0)

/-- The end of the body. -/
theorem completed_memberSet : (Machine.run 9 startMemberSet).control = .done ∧
    ∃ base, (Machine.run 9 startMemberSet).stack =
      .moduleBody (nameAt "m" 15) 1 0 :: base :=
  ⟨rfl, _, rfl⟩

/-- The moment at which `m.x` is set. -/
theorem sets_memberSet :
    (Machine.run 7 (Machine.run 9 startMemberSet)).control = .value (.boolean true) ∧
      (∃ base, (Machine.run 7 (Machine.run 9 startMemberSet)).stack =
        .setMember ⟨"m", 1⟩ (nameAt "x" 52) :: base) ∧
      (Machine.run 7 (Machine.run 9 startMemberSet)).step.control =
        .value (.boolean true) :=
  ⟨rfl, ⟨_, rfl⟩, rfl⟩

/-- The moment at which `f` reads `x`. -/
theorem reads_memberSet :
    (Machine.run 18 (Machine.run 9 startMemberSet)).control =
        .evaluate (.variable (nameAt "x" 43) (some 1)) 2 ∧
      (Machine.run 18 (Machine.run 9 startMemberSet)).state.store.ancestor? 2 1 =
        some 1 :=
  ⟨rfl, rfl⟩

/-- The moment at which `m` is asked for `y`. -/
theorem asks_memberSet :
    (Machine.run 28 (Machine.run 9 startMemberSet)).control =
        .value (.module ⟨"m", 1⟩) ∧
      (∃ base, (Machine.run 28 (Machine.run 9 startMemberSet)).stack =
        .get (nameAt "y" 71) :: base) ∧
      (Machine.run 28 (Machine.run 9 startMemberSet)).state.store.binds 0 "y" = true ∧
      (Machine.run 28 (Machine.run 9 startMemberSet)).state.store.getLocal? 1 "y" =
        none :=
  ⟨rfl, ⟨_, rfl⟩, rfl, rfl⟩

/-- What `m.x` is set to, `f` reads; and `m` knows nothing of the `y` that is around it. -/
theorem members_are_bindings_memberSet :
    ∃ t m, Moment none 0 [memberSet] t m ∧ m.control = .done ∧
      (∃ base, m.stack = .moduleBody (nameAt "m" 15) 1 0 :: base) ∧
      (∃ base, (Machine.run 7 m).Writes 1 "x" (.boolean true) base) ∧
      (∃ base, (Machine.run 18 m).Reads 1 "x" base) ∧
      (Machine.run 28 m).state.store.binds 0 "y" = true ∧
      ∃ base, (Machine.run 28 m).Refuses (nameAt "y" 71) (.undefinedProperty "y") base := by
  have hfirst : Moment none 0 [memberSet] (Trail.initial.starting 0) startMemberSet :=
    Moment.first.next_of_accepted rfl read_memberSet rfl
  have hmoment := hfirst.after (.run _ _ _ 9)
  obtain ⟨hdone, base, hstack⟩ := completed_memberSet
  obtain ⟨-, q, c, body, -, -, hoffers⟩ := members_are_bindings hmoment hdone hstack
  refine ⟨_, _, hmoment, hdone, ⟨base, hstack⟩, ?_, ?_, ?_⟩
  · obtain ⟨hvalue, ⟨under, htop⟩, hset⟩ := sets_memberSet
    rcases (hoffers _ _ _ (.run _ _ _ 7)).set _ _ _ _ rfl hvalue htop with
      ⟨-, -, hwrites⟩ | ⟨-, -, hrefuses⟩ | ⟨-, hrefuses⟩
    · exact ⟨under, hwrites⟩
    · cases hset.symm.trans (congrArg Machine.control hrefuses)
    · cases hset.symm.trans (congrArg Machine.control hrefuses)
  · obtain ⟨hreference, hancestor⟩ := reads_memberSet
    exact ⟨_, ((hoffers _ _ _ (.run _ _ _ 18)).reference _ _ _ hreference).2 hancestor⟩
  · obtain ⟨hvalue, ⟨under, htop⟩, hy, hnone⟩ := asks_memberSet
    refine ⟨hy, under, ?_⟩
    rcases (hoffers _ _ _ (.run _ _ _ 28)).get _ _ _ rfl hvalue htop with
      ⟨-, v, hv, -⟩ | ⟨-, hrefuses⟩
    · cases hnone.symm.trans hv
    · exact hrefuses

end Session

end Lox
