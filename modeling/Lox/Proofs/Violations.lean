/-
# What the resolver finds

The rules of the language are stated at a node by what is around it, without the
resolver (`violationsOf`).  The resolver's errors are the violations at the places of
the program, each once: `errors_eq_violations`.  Errors about `this` and `super` are
left aside.

The errors of a node are its own and those of its children (`Visit.errors_split`),
and its own are what the rules say (`own_eq_violations`); the rest is an induction on
the size of a node.
-/
import Lox.Proofs.Distance
import Mathlib.Data.List.Induction
import Mathlib.Data.List.Nodup
import Mathlib.Data.List.Perm.Basic

namespace Lox

/-! ## The rules -/

/-- The parameters that have the name of an earlier one. -/
def repeated (earlier : List Token) : List Token → List Token
  | [] => []
  | p :: ps =>
    (if earlier.any (·.lexeme = p.lexeme) then [p] else []) ++ repeated (earlier ++ [p]) ps

/-- A name that an earlier statement of the same scope, or a parameter, declares. -/
def redeclarations (ways : List Way) (st : Stmt) : List ScopeError :=
  match st.declaration?, ways.head? with
  | some d, some w =>
    if (firstOf w.earlier d.name.lexeme).isSome then [⟨.redeclaration, d.name⟩] else []
  | _, _ => []

/-- What breaks a rule at a node, `ways` being what is around it. -/
def violationsOf (ways : List Way) : Node → List ScopeError
  | .expr (.variable name _) =>
    if initializing ways = some name.lexeme then [⟨.readInOwnInitializer, name⟩] else []
  | .expr (.assign name _ _) =>
    match nearest (scopesOf ways) name.lexeme with
    | some (_, first) => if first.readOnly then [⟨.assignmentToReadOnly, name⟩] else []
    | none => []
  | .stmt (.returnWith keyword v) =>
    (if functionOf ways = .none then [⟨.returnAtTopLevel, keyword⟩] else []) ++
    (if v.isSome ∧ functionOf ways = .initializer then [⟨.valueFromInitializer, keyword⟩] else [])
  | .stmt (.breakLoop keyword) => if loops ways then [] else [⟨.breakOutsideLoop, keyword⟩]
  | .stmt (.continueLoop keyword) => if loops ways then [] else [⟨.continueOutsideLoop, keyword⟩]
  | .stmt (.classDecl name (some (.variable other depth)) ms) =>
    redeclarations ways (.classDecl name (some (.variable other depth)) ms) ++
    if other.lexeme = name.lexeme then [⟨.selfInheritance, other⟩] else []
  | .stmt st => redeclarations ways st
  | .function _ d => (repeated [] d.params).map (⟨.redeclaration, ·⟩)
  | _ => []

/-- What breaks a rule at a place of the texts. -/
def violationsAt (texts : List (List Stmt)) (p : Place) : List ScopeError :=
  match nodeAt texts p with
  | some n => violationsOf (around texts p) n
  | none => []

/-- An error about something else than `this` or `super`. -/
def ScopeError.aside (e : ScopeError) : Bool :=
  e.violation = .thisOutsideClass ∨ e.violation = .superOutsideClass ∨
    e.violation = .superWithoutSuperclass

/-! ## The errors of a node -/

namespace Visit

/-- What the resolver finds at an expression itself. -/
def ownOfExpr (c : Context) : Expr → List ScopeError
  | .variable name depth => (Resolve.expr c.surroundings c.scopes (.variable name depth)).2.errors
  | .assign name _ depth => (c.scopes.refer name depth true).2.errors
  | .receiver keyword depth =>
    (Resolve.expr c.surroundings c.scopes (.receiver keyword depth)).2.errors
  | .superMethod keyword method depth =>
    (Resolve.expr c.surroundings c.scopes (.superMethod keyword method depth)).2.errors
  | _ => []

/-- What the resolver finds at a statement itself. -/
def ownOfStmt (c : Context) : Stmt → List ScopeError
  | .varDecl name _ | .letDecl name _ | .moduleDecl name _ | .classDecl name none _ =>
    (c.scopes.redeclared name).errors
  | .classDecl name (some e) _ =>
    (c.scopes.redeclared name).errors ++ (inheritance name e).errors
  | .functionDecl d => d.name.toList.flatMap fun name => (c.scopes.redeclared name).errors
  | .returnWith keyword e => (c.surroundings.atReturn keyword e.isSome).errors
  | .breakLoop keyword =>
    (Findings.when (!c.surroundings.inLoop) .breakOutsideLoop keyword).errors
  | .continueLoop keyword =>
    (Findings.when (!c.surroundings.inLoop) .continueOutsideLoop keyword).errors
  | _ => []

/-- What the resolver finds at a node itself. -/
def own (v : Visit) : List ScopeError :=
  match v.node with
  | .text _ => []
  | .expr e => ownOfExpr v.context e
  | .stmt st => ownOfStmt v.context st
  | .function _ d => (Scopes.withParams ([] :: v.context.scopes) d.params).2.errors

end Visit

/-- A number beyond those of the children of a node. -/
def Node.bound : Node → Nat
  | .text body => body.length
  | .function _ d => d.body.length
  | .expr (.call _ _ es) | .expr (.array _ _ es) => es.length + 1
  | .stmt (.block body) | .stmt (.moduleDecl _ body) => body.length
  | .stmt (.classDecl _ _ ms) => ms.length + 1
  | _ => 3

theorem Node.child_lt {n m : Node} {i : Nat} (h : n.child i = some m) : i < n.bound := by
  have hlist : ∀ {α : Type} {as : List α} {f : α → Node} {i : Nat},
      as.reverse[i]?.map f = some m → i < as.length := by
    intro α as f i h
    obtain ⟨a, ha, -⟩ := Option.map_eq_some_iff.mp h
    have := (List.getElem?_eq_some_iff.mp ha).1
    simpa using this
  cases n with
  | text body => exact hlist h
  | function kind d => exact hlist h
  | expr e =>
      cases e with
      | call callee paren es =>
          cases i with
          | zero => exact Nat.succ_pos _
          | succ i => exact Nat.succ_lt_succ (hlist h)
      | array bracket size es =>
          cases i with
          | zero => exact Nat.succ_pos _
          | succ i => exact Nat.succ_lt_succ (hlist h)
      | _ =>
          show i < 3
          rcases i with _ | _ | _ | i <;> first | omega | cases h
  | stmt st =>
      cases st with
      | block body => exact hlist h
      | moduleDecl name body => exact hlist h
      | classDecl name e ms =>
          cases i with
          | zero => exact Nat.succ_pos _
          | succ i => exact Nat.succ_lt_succ (hlist h)
      | _ =>
          show i < 3
          rcases i with _ | _ | _ | i <;> first | omega | cases h

namespace Visit

/-- The errors of a visit, if it is paid. -/
def errorsOf (w : Option Visit) : List ScopeError := w.elim [] errors

theorem perm_flatMap_range {α : Type} {f g : Nat → List α} {n : Nat} {as : List α}
    (hlast : f n = as) (h : ∀ i < n, f i = g i) :
    (as ++ (List.range n).flatMap g).Perm ((List.range (n + 1)).flatMap f) := by
  have hearlier : (List.range n).flatMap f = (List.range n).flatMap g :=
    List.flatMap_congr fun i hi => h i (List.mem_range.mp hi)
  rw [List.range_succ, List.flatMap_append, List.flatMap_singleton, hearlier, hlast]
  exact List.perm_append_comm

theorem errors_statements (c : Context) (sts : List Stmt) :
    (Resolve.stmts c.surroundings c.scopes sts).2.2.errors.Perm
      ((List.range sts.length).flatMap fun i => errorsOf (statement c sts i)) := by
  induction sts generalizing c with
  | nil => exact .refl _
  | cons st sts ih =>
      have hlast : statement c (st :: sts) sts.length = some ⟨c, .stmt st⟩ := if_pos rfl
      refine ((ih (c.after st)).append_left _).trans
        (perm_flatMap_range (congrArg errorsOf hlast) fun i hi => ?_)
      rw [statement, if_neg (Nat.ne_of_lt hi)]

theorem errors_operands (c : Context) (es : List Expr) :
    (Resolve.exprs c.surroundings c.scopes es).2.errors.Perm
      ((List.range es.length).flatMap fun i => errorsOf (operand c es (i + 1))) := by
  induction es with
  | nil => exact .refl _
  | cons e es ih =>
      have hlast : operand c (e :: es) (es.length + 1) = some ⟨c, .expr e⟩ := if_pos rfl
      refine (ih.append_left _).trans
        (perm_flatMap_range (congrArg errorsOf hlast) fun i hi => ?_)
      rw [operand, if_neg (Nat.ne_of_lt (Nat.succ_lt_succ hi))]

theorem errors_methods (c : Context) (ds : List FunctionDecl) :
    (Resolve.methods c.surroundings c.scopes ds).2.errors.Perm
      ((List.range ds.length).flatMap fun i => errorsOf (method c ds (i + 1))) := by
  induction ds with
  | nil => exact .refl _
  | cons d ds ih =>
      have hlast : method c (d :: ds) (ds.length + 1) = some ⟨c, .function d.methodKind d⟩ :=
        if_pos rfl
      refine (ih.append_left _).trans
        (perm_flatMap_range (congrArg errorsOf hlast) fun i hi => ?_)
      rw [method, if_neg (Nat.ne_of_lt (Nat.succ_lt_succ hi))]

/-- The number `0` comes before those of a list. -/
theorem flatMap_range_succ {α : Type} (f : Nat → List α) (n : Nat) :
    (List.range (n + 1)).flatMap f = f 0 ++ (List.range n).flatMap fun i => f (i + 1) := by
  rw [List.range_succ_eq_map, List.flatMap_cons, List.flatMap_map]

theorem errors_ofExpr_split (p : Place) (c : Context) (e : Expr) :
    (errors ⟨c, .expr e⟩).Perm (own ⟨c, .expr e⟩ ++
      (List.range (Node.expr e).bound).flatMap fun i => errorsOf (ofExpr p c e i)) := by
  cases e with
  | call callee paren es =>
      rw [Node.bound, flatMap_range_succ]
      exact (errors_operands c es).append_left _
  | array bracket size es =>
      rw [Node.bound, flatMap_range_succ]
      cases size with
      | none => exact (errors_operands c es).append_left _
      | some size => exact (errors_operands c es).append_left _
  -- the value comes before the name or the object
  | assign name v depth =>
      refine .trans List.perm_append_comm (.of_eq ?_)
      simp only [Node.bound, List.range_succ, List.range_zero, List.nil_append, List.flatMap_append,
        List.flatMap_singleton, own, ownOfExpr, ofExpr, errorsOf, errors, Option.elim_some,
        Option.elim_none, List.append_nil]
      rfl
  | set object name v =>
      refine .trans List.perm_append_comm (.of_eq ?_)
      simp [Node.bound, List.range_succ, own, ownOfExpr, ofExpr, errorsOf, errors]
  | function d =>
      refine .of_eq ?_
      cases hd : d.name <;>
        simp [Node.bound, List.range_succ, own, ownOfExpr, ofExpr, errorsOf, errors,
          Resolve.expr, hd, Context.lambda, Context.push, Context.withScopes]
  | _ =>
      refine .of_eq ?_
      simp [Node.bound, List.range_succ, own, ownOfExpr, ofExpr, errorsOf, errors, Resolve.expr]

theorem errors_classDecl_split (p : Place) (c : Context) (name : Token) (e : Option Expr)
    (ms : List FunctionDecl) :
    (errors ⟨c, .stmt (.classDecl name e ms)⟩).Perm (own ⟨c, .stmt (.classDecl name e ms)⟩ ++
      (List.range (ms.length + 1)).flatMap fun i =>
        errorsOf (ofStmt p c (.classDecl name e ms) i)) := by
  rw [flatMap_range_succ]
  cases e with
  | none =>
      have hzero : ofStmt p c (.classDecl name none ms) 0 = none := by
        have := node_ofStmt p c (.classDecl name none ms) 0
        exact Option.map_eq_none_iff.mp this
      rw [hzero]
      exact (errors_methods (c.methods p name none) ms).append_left _
  | some e =>
      refine .trans (.of_eq (List.append_assoc _ _ _)) (.append_left _ (.append_left _ ?_))
      exact errors_methods (c.methods p name (some e)) ms

theorem errors_ofStmt_split (p : Place) (c : Context) (st : Stmt) :
    (errors ⟨c, .stmt st⟩).Perm (own ⟨c, .stmt st⟩ ++
      (List.range (Node.stmt st).bound).flatMap fun i => errorsOf (ofStmt p c st i)) := by
  cases st with
  | block body => exact errors_statements (c.push (.block p)) body
  | moduleDecl name body =>
      exact .trans List.perm_append_comm ((errors_statements (c.members p) body).append_left _)
  | classDecl name e ms => exact errors_classDecl_split p c name e ms
  | functionDecl d =>
      refine .of_eq ?_
      cases hd : d.name <;>
        simp [Node.bound, List.range_succ, own, ownOfStmt, ofStmt, errorsOf, errors,
          Resolve.stmt, hd, Context.declared, Context.withScopes]
  | varDecl name e | returnWith name e =>
      refine .of_eq ?_
      cases e <;>
        simp [Node.bound, List.range_succ, own, ownOfStmt, ofStmt, errorsOf, errors, Resolve.stmt,
          Resolve.optionExpr, Context.withScopes]
  | branch condition onTrue onFalse =>
      refine .of_eq ?_
      cases onFalse <;>
        simp [Node.bound, List.range_succ, own, ownOfStmt, ofStmt, errorsOf, errors, Resolve.stmt,
          Resolve.optionStmt, Context.withScopes, Context.after]
  | whileLoop condition body step =>
      refine .of_eq ?_
      cases step <;>
        simp [Node.bound, List.range_succ, own, ownOfStmt, ofStmt, errorsOf, errors, Resolve.stmt,
          Resolve.optionExpr, Context.withScopes, Context.after, Context.looping]
  | _ =>
      refine .of_eq ?_
      simp [Node.bound, List.range_succ, own, ownOfStmt, ofStmt, errorsOf, errors, Resolve.stmt,
        Context.withScopes]

/-- The errors of a node are its own and those of its children. -/
theorem errors_split (p : Place) (v : Visit) :
    v.errors.Perm (v.own ++ (List.range v.node.bound).flatMap fun i => errorsOf (v.child p i)) := by
  obtain ⟨c, node⟩ := v
  cases node with
  | text body => exact errors_statements c body
  | expr e => exact errors_ofExpr_split p c e
  | stmt st => exact errors_ofStmt_split p c st
  | function kind d =>
      cases d with
      | mk keyword name params body =>
          exact (errors_statements (c.body p kind params) body).append_left _

end Visit

/-! ## What a node's own errors are -/

theorem errors_when (b : Bool) (v : Violation) (t : Token) :
    (Findings.when b v t).errors = if b then [⟨v, t⟩] else [] := by
  cases b <;> rfl

theorem isSome_here? {σ : Scopes} {here : List Declaration} {outer : List (List Declaration)}
    (hσ : List.Forall₂ Describes σ (here :: outer)) {n : Token} (hn : n.Plain) :
    (σ.here? n.lexeme).isSome = (firstOf here n.lexeme).isSome := by
  have := congrArg Option.isSome (described_here hσ hn.1 hn.2)
  simpa using this

/-- A redeclaration is found where the scope has the name from before. -/
theorem redeclared_eq {ways : List Way} {σ : Scopes} {st : Stmt} {d : Declaration}
    (hknown : ScopesKnown ways σ (.stmt st)) (hst : WordedStmt st) (hd : st.declaration? = some d) :
    (σ.redeclared d.name).errors = redeclarations ways st := by
  obtain ⟨here, outer, -, hσ, -, hearlier⟩ := hknown
  obtain ⟨w, hways, rfl⟩ := hearlier (by rw [hd]; nofun)
  have hplain : d.name.Plain := hst.plain (by rw [st.declares_eq, hd]; rfl)
  rw [Scopes.redeclared, errors_when, isSome_here? hσ hplain, redeclarations, hd, hways]

theorem withParams_eq (ps earlier : List Token) {σ : Scopes} (hne : σ ≠ [])
    (h : ∀ n, (σ.here? n).isSome = earlier.any (·.lexeme = n)) :
    (σ.withParams ps).2.errors = (repeated earlier ps).map (⟨.redeclaration, ·⟩) := by
  induction ps generalizing σ earlier with
  | nil => rfl
  | cons p ps ih =>
      have hnext : ∀ n, ((σ.introduce p.lexeme true).here? n).isSome =
          (earlier ++ [p]).any (·.lexeme = n) := by
        intro n
        rw [Scopes.introduce, Scopes.here?_define, Scopes.here?_declare hne, Option.isSome_map,
          Option.isSome_or, h n, List.any_append, List.any_cons, List.any_nil, Bool.or_false]
        congr 1
        by_cases hn : n = p.lexeme
        · simp [hn]
        · simp [hn, Ne.symm hn]
      rw [Scopes.withParams, repeated, List.map_append,
        ← ih (earlier ++ [p]) (Scopes.introduce_ne_nil hne _ _) hnext]
      dsimp only
      rw [Findings.errors_append, Scopes.redeclared, errors_when, h]
      congr 1
      split <;> rfl

theorem errors_refer_false (σ : Scopes) (name : Token) (depth : Option Nat) :
    (σ.refer name depth false).2.errors = [] := by
  unfold Scopes.refer
  split <;> rfl

theorem errors_refer_true {σ : Scopes} {scopes : List (List Declaration)}
    (h : List.Forall₂ Describes σ scopes) {name : Token} (hname : name.Plain)
    (depth : Option Nat) :
    (σ.refer name depth true).2.errors =
      match nearest scopes name.lexeme with
      | some (_, first) => if first.readOnly then [⟨.assignmentToReadOnly, name⟩] else []
      | none => [] := by
  have hfind := find?_eq_nearest h hname.1 hname.2
  unfold Scopes.refer
  cases hnearest : nearest scopes name.lexeme with
  | none =>
      rw [hnearest] at hfind
      rw [Option.map_eq_none_iff.mp hfind]
      rfl
  | some found =>
      obtain ⟨d, first⟩ := found
      rw [hnearest] at hfind
      obtain ⟨⟨d', b⟩, hfound, heq⟩ := Option.map_eq_some_iff.mp hfind
      have hb : b.assignable = !first.readOnly := congrArg Prod.snd heq
      rw [hfound]
      dsimp only
      rw [errors_when, hb, Bool.true_and, Bool.not_not]

theorem inheritance_eq_variable (name other : Token) (depth : Option Nat) :
    (inheritance name (.variable other depth)).errors =
      if other.lexeme = name.lexeme then [⟨.selfInheritance, other⟩] else [] := by
  simp only [inheritance, Expr.name?, errors_when, decide_eq_true_eq]

/-- The errors that the resolver finds at a node itself are what breaks a rule there. -/
theorem own_eq_violations {ways : List Way} {v : Visit} (hknown : Known ways v)
    (hworded : v.Worded) :
    v.own.filter (!·.aside) = (violationsOf ways v.node).filter (!·.aside) := by
  obtain ⟨c, node⟩ := v
  obtain ⟨hfunction, hloop, hscopes⟩ := hknown
  replace hfunction : c.surroundings.function = functionOf ways := hfunction
  replace hloop : c.surroundings.inLoop = loops ways := hloop
  cases node with
  | text body => rfl
  | function kind d =>
      refine congrArg (List.filter _) (withParams_eq d.params [] nofun fun n => rfl)
  | expr e =>
      cases e with
      | «variable» name depth =>
          refine congrArg (List.filter _) ?_
          simp only [Visit.own, Visit.ownOfExpr, Resolve.expr, Findings.errors_append, errors_when,
            errors_refer_false, List.append_nil, violationsOf, hscopes.2 name.lexeme]
      | assign name v depth =>
          cases hworded with
          | assign hname _ =>
              exact congrArg (List.filter _) (errors_refer_true hscopes.1 hname depth)
      | receiver keyword depth =>
          simp only [Visit.own, Visit.ownOfExpr, Resolve.expr]
          cases c.surroundings.inClass with
          | none => rfl
          | base | derived => exact congrArg (List.filter _) (errors_refer_false ..)
      | superMethod keyword method depth =>
          simp only [Visit.own, Visit.ownOfExpr, Resolve.expr]
          cases c.surroundings.inClass with
          | none | base => rfl
          | derived => exact congrArg (List.filter _) (errors_refer_false ..)
      | _ => rfl
  | stmt st =>
      have hdeclares : ∀ d, st.declaration? = some d →
          (c.scopes.redeclared d.name).errors = redeclarations ways st :=
        fun d => redeclared_eq hscopes hworded
      cases st with
      | varDecl name e => exact congrArg (List.filter _) (hdeclares _ rfl)
      | letDecl name e => exact congrArg (List.filter _) (hdeclares _ rfl)
      | moduleDecl name e => exact congrArg (List.filter _) (hdeclares _ rfl)
      | functionDecl d =>
          refine congrArg (List.filter _) ?_
          cases hd : d.name with
          | none =>
              simp [Visit.own, Visit.ownOfStmt, violationsOf, redeclarations, Stmt.declaration?, hd]
          | some name =>
              have := hdeclares ⟨name, .function⟩
                (by simp only [Stmt.declaration?, hd, Option.map_some])
              simpa [Visit.own, Visit.ownOfStmt, violationsOf, hd] using this
      | classDecl name e ms =>
          refine congrArg (List.filter _) ?_
          have hclass := hdeclares _ rfl
          cases e with
          | none => exact hclass
          | some e =>
              simp only [Visit.own, Visit.ownOfStmt, hclass]
              cases e with
              | «variable» other depth => rw [inheritance_eq_variable]; rfl
              | _ => exact List.append_nil _
      | returnWith keyword e =>
          simp only [Visit.own, Visit.ownOfStmt, Surroundings.atReturn, Findings.errors_append,
            errors_when, violationsOf, hfunction, Bool.and_eq_true, decide_eq_true_eq]
      | breakLoop keyword | continueLoop keyword =>
          simp only [Visit.own, Visit.ownOfStmt, errors_when, violationsOf, hloop]
          cases loops ways <;> rfl
      | _ => rfl

/-- No rule is about `this` or `super`. -/
theorem aside_of_redeclarations {ways : List Way} {st : Stmt} {error : ScopeError}
    (h : error ∈ redeclarations ways st) : error.aside = false := by
  unfold redeclarations at h
  split at h
  · split at h
    · cases List.mem_singleton.mp h
      rfl
    · cases h
  · cases h

theorem aside_of_violations {ways : List Way} {n : Node} {error : ScopeError}
    (h : error ∈ violationsOf ways n) : error.aside = false := by
  have hone : ∀ {p : Prop} [Decidable p] {x : ScopeError}, x.aside = false →
      error ∈ (if p then [x] else []) → error.aside = false := by
    intro p _ x hx h
    split at h
    · cases List.mem_singleton.mp h
      exact hx
    · cases h
  unfold violationsOf at h
  split at h
  · exact hone rfl h
  · split at h
    · exact hone rfl h
    · cases h
  · rcases List.mem_append.mp h with h | h
    · exact hone rfl h
    · exact hone rfl h
  · split at h
    · cases h
    · cases List.mem_singleton.mp h
      rfl
  · split at h
    · cases h
    · cases List.mem_singleton.mp h
      rfl
  · rcases List.mem_append.mp h with h | h
    · exact aside_of_redeclarations h
    · exact hone rfl h
  · exact aside_of_redeclarations h
  · obtain ⟨p, -, rfl⟩ := List.mem_map.mp h
    rfl
  · cases h

theorem filter_violations (ways : List Way) (n : Node) :
    (violationsOf ways n).filter (!·.aside) = violationsOf ways n :=
  List.filter_eq_self.mpr fun error h => by rw [aside_of_violations h]; rfl

/-! ## The errors of a program -/

/-- How large a node is. -/
noncomputable def Node.size : Node → Nat
  | .text body => sizeOf body
  | .expr e => sizeOf e
  | .stmt st => sizeOf st
  | .function _ d => sizeOf d

theorem Node.size_child {n m : Node} {i : Nat} (h : n.child i = some m) : m.size < n.size := by
  have hlist : ∀ {α : Type} [SizeOf α] {as : List α} {f : α → Node} {i : Nat},
      (∀ a, (f a).size = sizeOf a) → as.reverse[i]?.map f = some m → m.size < sizeOf as := by
    intro α _ as f i hf h
    obtain ⟨a, ha, rfl⟩ := Option.map_eq_some_iff.mp h
    rw [hf]
    exact List.sizeOf_lt_of_mem (List.mem_reverse.mp (List.mem_of_getElem? ha))
  cases n with
  | text body => exact hlist (fun _ => rfl) h
  | function kind d =>
      cases d with
      | mk keyword name params body =>
          have := hlist (fun _ => rfl) h
          refine this.trans ?_
          simp only [size, FunctionDecl.body, FunctionDecl.mk.sizeOf_spec]
          omega
  | expr e =>
      show m.size < sizeOf e
      cases e with
      | call callee paren es =>
          cases i with
          | zero => cases h; simp only [size, Expr.call.sizeOf_spec]; omega
          | succ i =>
              have := hlist (fun _ => rfl) h
              simp only [Expr.call.sizeOf_spec]
              omega
      | array bracket size es =>
          cases i with
          | zero =>
              obtain ⟨e, rfl, rfl⟩ := Option.map_eq_some_iff.mp h
              simp only [Node.size, Expr.array.sizeOf_spec, Option.some.sizeOf_spec]
              omega
          | succ i =>
              have := hlist (fun _ => rfl) h
              simp only [Expr.array.sizeOf_spec]
              omega
      | _ =>
          rcases i with _ | _ | _ | i <;> cases h
          all_goals simp [size] <;> omega
  | stmt st =>
      show m.size < sizeOf st
      cases st with
      | block body =>
          have := hlist (fun _ => rfl) h
          simp only [Stmt.block.sizeOf_spec]
          omega
      | moduleDecl name body =>
          have := hlist (fun _ => rfl) h
          simp only [Stmt.moduleDecl.sizeOf_spec]
          omega
      | classDecl name e ms =>
          cases i with
          | zero =>
              obtain ⟨e, rfl, rfl⟩ := Option.map_eq_some_iff.mp h
              simp only [Node.size, Stmt.classDecl.sizeOf_spec, Option.some.sizeOf_spec]
              omega
          | succ i =>
              have := hlist (fun _ => rfl) h
              simp only [Stmt.classDecl.sizeOf_spec]
              omega
      | _ =>
          rcases i with _ | _ | _ | i <;>
            first
              | cases h
              | obtain ⟨a, rfl, rfl⟩ := Option.map_eq_some_iff.mp h
          all_goals simp [size] <;> omega

theorem isSome_of_suffix {texts : List (List Stmt)} {p q : Place} (hp : p ≠ []) (h : p <:+ q)
    (hq : (nodeAt texts q).isSome = true) : (nodeAt texts p).isSome = true := by
  induction q with
  | nil => exact absurd (List.suffix_nil.mp h) hp
  | cons i q ih =>
      rcases List.suffix_cons_iff.mp h with rfl | h
      · exact hq
      · cases q with
        | nil => exact absurd (List.suffix_nil.mp h) hp
        | cons j q =>
            refine ih h ?_
            rw [nodeAt] at hq
            cases hn : nodeAt texts (j :: q) with
            | none => rw [hn] at hq; cases hq
            | some n => rfl

theorem suffix_cases {p q : Place} (h : p <:+ q) : q = p ∨ ∃ i, (i :: p) <:+ q := by
  obtain ⟨r, rfl⟩ := h
  cases r using List.reverseRecOn with
  | nil => exact .inl rfl
  | append_singleton r i => exact .inr ⟨i, r, by simp⟩

section
variable {texts : List (List Stmt)} (hread : ∀ body ∈ texts, WasRead body)
include hread

/-- The errors of a node are what breaks a rule at the places inside of it. -/
theorem errors_inside (size : Nat) {p : Place} {v : Visit} (hv : visitAt texts p = some v)
    (hsize : v.node.size < size) :
    ∃ places : List Place, places.Nodup ∧
      (∀ q, q ∈ places ↔ p <:+ q ∧ (nodeAt texts q).isSome = true) ∧
      (v.errors.filter (!·.aside)).Perm (places.flatMap (violationsAt texts)) := by
  induction size generalizing p v with
  | zero => exact absurd hsize (Nat.not_lt_zero _)
  | succ size ih =>
      have hpne : p ≠ [] := by
        rintro rfl
        cases hv
      have hnode : nodeAt texts p = some v.node := by rw [← node_visitAt, hv]; rfl
      have hchildren : ∀ i, ∃ places : List Place, places.Nodup ∧
          (∀ q, q ∈ places ↔ (i :: p) <:+ q ∧ (nodeAt texts q).isSome = true) ∧
          ((Visit.errorsOf (v.child p i)).filter (!·.aside)).Perm
            (places.flatMap (violationsAt texts)) := by
        intro i
        cases hw : v.child p i with
        | some w =>
            have hchild := v.node_child p i
            rw [hw] at hchild
            have hlt := Node.size_child hchild.symm
            exact ih ((visitAt_cons hv i).trans hw)
              (Nat.lt_of_lt_of_le hlt (Nat.le_of_lt_succ hsize))
        | none =>
            refine ⟨[], List.nodup_nil, fun q => ⟨nofun, fun ⟨hq, hsome⟩ => ?_⟩, .refl _⟩
            have := isSome_of_suffix (List.cons_ne_nil i p) hq hsome
            rw [← node_visitAt, visitAt_cons hv, hw] at this
            cases this
      choose places hnodup hmem herrors using hchildren
      refine ⟨p :: (List.range v.node.bound).flatMap places, ?_, fun q => ?_, ?_⟩
      · refine List.nodup_cons.mpr ⟨fun h => ?_, ?_⟩
        · obtain ⟨i, -, hi⟩ := List.mem_flatMap.mp h
          have := ((hmem i p).mp hi).1.length_le
          exact absurd this (Nat.not_succ_le_self _)
        · refine List.nodup_flatMap.mpr ⟨fun i _ => hnodup i, List.nodup_range.imp ?_⟩
          intro i j hij q hi hj
          have hi := ((hmem i q).mp hi).1
          have hj := ((hmem j q).mp hj).1
          have heq := (List.suffix_of_suffix_length_le hi hj (by simp)).eq_of_length (by simp)
          exact hij (List.cons.inj heq).1
      · rw [List.mem_cons, List.mem_flatMap]
        constructor
        · rintro (rfl | ⟨i, -, hi⟩)
          · exact ⟨List.suffix_rfl, by rw [hnode]; rfl⟩
          · obtain ⟨hq, hsome⟩ := (hmem i q).mp hi
            exact ⟨(List.suffix_cons i p).trans hq, hsome⟩
        · rintro ⟨hq, hsome⟩
          rcases suffix_cases hq with rfl | ⟨i, hi⟩
          · exact .inl rfl
          · refine .inr ⟨i, List.mem_range.mpr ?_, (hmem i q).mpr ⟨hi, hsome⟩⟩
            have := isSome_of_suffix (List.cons_ne_nil i p) hi hsome
            rw [← node_visitAt, visitAt_cons hv, v.node_child] at this
            obtain ⟨m, hm⟩ := Option.isSome_iff_exists.mp this
            exact Node.child_lt hm
      · have hown : v.own.filter (!·.aside) = violationsAt texts p := by
          rw [own_eq_violations (visitAt_known hread hv) (visitAt_worded hread hv),
            filter_violations, violationsAt, hnode]
        refine ((v.errors_split p).filter _).trans ?_
        rw [List.filter_append, List.filter_flatMap, hown, List.flatMap_cons, List.flatMap_assoc]
        exact (List.Perm.flatMap_left _ fun i _ => herrors i).append_left _

end

/-- In a program that was read the resolver finds what breaks a rule, errors about
`this` and `super` aside: its errors are the violations at the places of the program,
one by one. -/
theorem errors_eq_violations {body : List Stmt} (hread : WasRead body) :
    ∃ places : List Place, places.Nodup ∧ (∀ p, p ∈ places ↔ (nodeAt [body] p).isSome = true) ∧
      ((Resolve.program body).2.errors.filter (!·.aside)).Perm
        (places.flatMap (violationsAt [body])) := by
  have hroot : visitAt [body] [0] = some ⟨.program, .text body⟩ := rfl
  obtain ⟨places, hnodup, hmem, herrors⟩ :=
    errors_inside (List.forall_mem_singleton.mpr hread) _ hroot (Nat.lt_succ_self _)
  refine ⟨places, hnodup, fun q => ?_, herrors⟩
  rw [hmem]
  refine ⟨And.right, fun h => ⟨?_, h⟩⟩
  clear hmem herrors
  induction q with
  | nil => cases h
  | cons i q ih =>
      cases q with
      | nil =>
          cases i with
          | zero => exact List.suffix_rfl
          | succ i => cases h
      | cons j q =>
          have := isSome_of_suffix (List.cons_ne_nil j q) (List.suffix_cons i _) h
          exact (ih this).trans (List.suffix_cons i _)

/-! ### One text -/

/-- The program of `var a = a;`. -/
def readInside : List Stmt :=
  [.varDecl (Session.nameAt "a" 5) (some (.variable (Session.nameAt "a" 9) none))]

theorem read_readInside : (Session.read "var a = a;").2 = .ok readInside := by
  with_unfolding_all rfl

/-- The only violation of `var a = a;` is that `a` is read in its own initializer. -/
theorem errors_eq_violations_readInside :
    violationsAt [readInside] [0, 0, 0] = [⟨.readInOwnInitializer, Session.nameAt "a" 9⟩] ∧
    ∃ places : List Place, places.Nodup ∧
      (∀ p, p ∈ places ↔ (nodeAt [readInside] p).isSome = true) ∧
      ((Resolve.program readInside).2.errors.filter (!·.aside)).Perm
        (places.flatMap (violationsAt [readInside])) :=
  ⟨rfl, errors_eq_violations ⟨_, read_readInside⟩⟩

end Lox
