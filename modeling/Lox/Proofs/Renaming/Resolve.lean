/-
# Resolving the renamed program

The resolver gets the renamed program without its depths.  What it makes of it is the
resolved program with the name renamed, so every name has the depth that it had; it finds
as much, and nothing to complain about.  The two resolved programs are such programs as
run together (`RenamedStmts`).

The induction is on the syntax, as the resolver goes.  It needs that the resolver accepts
the first program, since a name that is declared twice in the renamed scope would be two
declarations under one word, and that the new word names nothing there.
-/
import Lox.Proofs.Renaming.Scope
import Lox.Proofs.Renaming.Unused

namespace Lox

/-! ## The aim -/

namespace Aim

variable {a : Aim} {k : Option Nat} (h : a.distance = k)
include h

theorem distance_child (i : Nat) : (a.child i).distance = k := by
  subst h
  match a with
  | below [] | around _ | elsewhere => rfl
  | below (j :: way) =>
      rw [child]
      split <;> rfl

theorem distance_deeper : a.deeper.distance = inner k := by
  subst h
  cases a <;> rfl

theorem distance_lambda (d : FunctionDecl) : (a.lambda d).distance = d.around k := by
  unfold lambda FunctionDecl.around
  cases d.name with
  | none => exact distance_child h 0
  | some _ => exact distance_deeper (distance_child h 0)

theorem distance_methods (e : Option Expr) : (a.methods e).distance = aroundMethods e k := by
  cases e with
  | none => exact distance_deeper h
  | some e => exact distance_deeper (distance_deeper h)

end Aim

/-! ## Words that are kept -/

namespace Renaming

variable {ρ : Renaming} {k : Option Nat} {depths : Option Nat → Option Nat}

theorem ne_new {n : String} (h : TokenKind.ofWord n ≠ .identifier) : n ≠ ρ.new :=
  fun heq => h (heq ▸ ρ.new_name)

theorem implicit_new {n : String} (h : TokenKind.ofWord n ≠ .identifier) :
    (Scopes.implicit n).get? ρ.new = none :=
  if_neg (ne_new h)

theorem forall₂_declared {ps : List Token} (h : ∀ p ∈ ps, p.lexeme ≠ ρ.new) :
    List.Forall₂ (ρ.Names (k = some 0)) ps (ps.map (ρ.declared k)) := by
  rw [List.forall₂_map_right_iff, List.forall₂_same]
  exact fun p hp => names_declared (h p hp)

theorem sole_of_inner (st : Stmt) : ρ.Sole (inner k) st :=
  fun hk => absurd hk (inner_ne_zero k)

@[simp] theorem name_function (a : Aim) (d : FunctionDecl) :
    (ρ.function depths a d).name = d.name := by
  cases d
  rfl

/-- A method that has been resolved and renamed is the initializer or not as before. -/
theorem methodKind_function (a : Aim) (s : Surroundings) (kind : FunctionKind) (σ : Scopes)
    (d : FunctionDecl) :
    (ρ.function depths a (Resolve.function s kind σ d).1).methodKind = d.methodKind := by
  cases d
  rfl

theorem isSome_optionExpr (a : Aim) (s : Surroundings) (σ : Scopes) (e : Option Expr) :
    (ρ.optionExpr depths a (Resolve.optionExpr s σ e).1).isSome = e.isSome := by
  cases e <;> rfl

/-- The new word is no class, so that no class gets to inherit from itself. -/
theorem inheritance_eq {x : Token} (hnew : x.lexeme ≠ ρ.new) {e : Expr}
    (h : (inheritance x e).errors = []) (a : Aim) (s : Surroundings) (σ : Scopes) :
    inheritance x (ρ.expr depths a (Resolve.expr s σ e).1) = inheritance x e := by
  cases e with
  | «variable» y d =>
      have hne : y.lexeme ≠ x.lexeme := of_decide_eq_false (Findings.errors_when h)
      have hne' : ∀ d', (ρ.used a.distance d' y).lexeme ≠ x.lexeme := by
        intro d'
        unfold used token word
        split
        · dsimp only
          split
          · exact hnew.symm
          · exact hne
        · exact hne
      simp only [inheritance, Resolve.expr, expr, Expr.name?, hne, hne', decide_false]
      rfl
  | receiver keyword d => cases hc : s.inClass <;> simp only [Resolve.expr, hc] <;> rfl
  | superMethod keyword method d => cases hc : s.inClass <;> simp only [Resolve.expr, hc] <;> rfl
  | _ => rfl

end Renaming

/-! ## Programs -/

section
variable {ρ : Renaming}

mutual

/-- What the resolver makes of the renamed expression is the resolved expression renamed. -/
theorem renamed_expr (s : Surroundings) {a : Aim} {k : Option Nat} (hk : a.distance = k)
    {σ σ' : Scopes} (hσ : RenamedScopes ρ k σ σ') :
    ∀ (e : Expr), WordedExpr e → UnusedExpr ρ.new e → (Resolve.expr s σ e).2.errors = [] →
      Resolve.expr s σ' (ρ.expr (fun _ => none) a (Resolve.expr s σ e).1) =
        (ρ.expr id a (Resolve.expr s σ e).1, (Resolve.expr s σ e).2) ∧
      RenamedExpr ρ k (Resolve.expr s σ e).1 (ρ.expr id a (Resolve.expr s σ e).1)
  | .literal v, _, _, _ => ⟨rfl, .literal v⟩
  | .grouping e, .grouping hw, .grouping hu, he => by
      obtain ⟨heq, h⟩ := renamed_expr s (Aim.distance_child hk 0) hσ e hw hu he
      simp only [Resolve.expr, Renaming.expr, heq, true_and]
      exact .grouping h
  | .unary op e, .unary hw, .unary hu, he => by
      obtain ⟨heq, h⟩ := renamed_expr s (Aim.distance_child hk 0) hσ e hw hu he
      simp only [Resolve.expr, Renaming.expr, heq, true_and]
      exact .unary h
  | .binary l op r, .binary hwl hwr, .binary hul hur, he => by
      simp only [Resolve.expr, Findings.errors_append, List.append_eq_nil_iff] at he
      obtain ⟨heql, hl⟩ := renamed_expr s (Aim.distance_child hk 0) hσ l hwl hul he.1
      obtain ⟨heqr, hr⟩ := renamed_expr s (Aim.distance_child hk 1) hσ r hwr hur he.2
      simp only [Resolve.expr, Renaming.expr, heql, heqr, true_and]
      exact .binary hl hr
  | .logical l op r, .logical hwl hwr, .logical hul hur, he => by
      simp only [Resolve.expr, Findings.errors_append, List.append_eq_nil_iff] at he
      obtain ⟨heql, hl⟩ := renamed_expr s (Aim.distance_child hk 0) hσ l hwl hul he.1
      obtain ⟨heqr, hr⟩ := renamed_expr s (Aim.distance_child hk 1) hσ r hwr hur he.2
      simp only [Resolve.expr, Renaming.expr, heql, heqr, true_and]
      exact .logical hl hr
  | .variable x _, _, .variable hx, he => by
      simp only [Resolve.expr, Findings.errors_append, List.append_eq_nil_iff] at he
      have hnames := Renaming.names_used (k := k) hx (σ.refer x none false).1
      have hfinished := Findings.errors_when he.1
      simp only [Resolve.expr, Renaming.expr, hk, hσ.refer hx hnames he.2, hσ.here?_refer hx hnames,
        hfinished]
      exact ⟨rfl, .variable hnames⟩
  | .assign x v _, .assign _ hw, .assign hx hu, he => by
      simp only [Resolve.expr, Findings.errors_append, List.append_eq_nil_iff] at he
      obtain ⟨heq, h⟩ := renamed_expr s (Aim.distance_child hk 0) hσ v hw hu he.1
      have hnames := Renaming.names_used (k := k) hx (σ.refer x none true).1
      simp only [Resolve.expr, Renaming.expr, hk, heq, hσ.refer hx hnames he.2, id, true_and]
      exact .assign hnames h
  | .call callee paren es, .call hw hws, .call hu hus, he => by
      simp only [Resolve.expr, Findings.errors_append, List.append_eq_nil_iff] at he
      obtain ⟨heq, h⟩ := renamed_expr s (Aim.distance_child hk 0) hσ callee hw hu he.1
      obtain ⟨heqs, hs⟩ := renamed_exprs s hk hσ es hws hus he.2
      simp only [Resolve.expr, Renaming.expr, heq, heqs, true_and]
      exact .call h hs
  | .get object x, .get hw, .get hu, he => by
      obtain ⟨heq, h⟩ := renamed_expr s (Aim.distance_child hk 0) hσ object hw hu he
      simp only [Resolve.expr, Renaming.expr, heq, true_and]
      exact .get h
  | .set object x v, .set _ hwo hwv, .set huo huv, he => by
      simp only [Resolve.expr, Findings.errors_append, List.append_eq_nil_iff] at he
      obtain ⟨heqv, hv⟩ := renamed_expr s (Aim.distance_child hk 1) hσ v hwv huv he.1
      obtain ⟨heqo, ho⟩ := renamed_expr s (Aim.distance_child hk 0) hσ object hwo huo he.2
      simp only [Resolve.expr, Renaming.expr, heqv, heqo, true_and]
      exact .set ho hv
  | .receiver keyword _, .receiver hthis, .receiver, he => by
      have hreserved : TokenKind.ofWord keyword.lexeme ≠ .identifier := by
        rw [hthis]
        decide
      have hnew := Renaming.ne_new (ρ := ρ) hreserved
      cases hc : s.inClass <;> simp only [Resolve.expr, hc] at he
      · cases he
      all_goals
        simp only [Resolve.expr, Renaming.expr, hc, hσ.refer hnew (.reserved hreserved) he, id,
          true_and]
        exact .receiver (.reserved hreserved)
  | .superMethod keyword method _, .superMethod hsuper, .superMethod, he => by
      have hreserved : TokenKind.ofWord keyword.lexeme ≠ .identifier := by
        rw [hsuper]
        decide
      have hnew := Renaming.ne_new (ρ := ρ) hreserved
      cases hc : s.inClass <;> simp only [Resolve.expr, hc] at he
      · cases he
      · cases he
      · simp only [Resolve.expr, Renaming.expr, hc, hσ.refer hnew (.reserved hreserved) he, id,
          true_and]
        exact .superMethod (.reserved hreserved)
  | .function d, .function hw, .function hu, he => by
      cases hd : d.name with
      | none =>
          simp only [Resolve.expr, hd] at he
          have hname := (Resolve.name_function s .function σ d).trans hd
          have haim := Aim.distance_lambda hk (Resolve.function s .function σ d).1
          obtain ⟨heq, h⟩ := renamed_decl s .function
            (haim.trans (by rw [FunctionDecl.around, hname])) hσ d hw hu he
          simp only [Resolve.expr, Renaming.expr, Renaming.name_function, hd, hname, heq, true_and]
          exact .function (by rwa [FunctionDecl.around, hname])
      | some x =>
          have hx : x.lexeme ≠ ρ.new := hu.name x hd
          have hself := (hσ.push [] rfl).introduce hx (.of_not (inner_ne_zero k) _) false
          simp only [Resolve.expr, hd] at he
          have hname := (Resolve.name_function s .function
            (Scopes.introduce ([] :: σ) x.lexeme false) d).trans hd
          have haim := Aim.distance_lambda hk (Resolve.function s .function
            (Scopes.introduce ([] :: σ) x.lexeme false) d).1
          obtain ⟨heq, h⟩ := renamed_decl s .function
            (haim.trans (by rw [FunctionDecl.around, hname])) hself d hw hu he
          simp only [Resolve.expr, Renaming.expr, Renaming.name_function, hd, hname, heq, true_and]
          exact .function (by rwa [FunctionDecl.around, hname])
  | .array bracket size es, .array hw hws, .array hu hus, he => by
      simp only [Resolve.expr, Findings.errors_append, List.append_eq_nil_iff] at he
      obtain ⟨heq, h⟩ := renamed_optionExpr s (Aim.distance_child hk 0) hσ size hw hu he.1
      obtain ⟨heqs, hs⟩ := renamed_exprs s hk hσ es hws hus he.2
      simp only [Resolve.expr, Renaming.expr, heq, heqs, true_and]
      exact .array h hs
  | .index object bracket i, .index hwo hwi, .index huo hui, he => by
      simp only [Resolve.expr, Findings.errors_append, List.append_eq_nil_iff] at he
      obtain ⟨heqo, ho⟩ := renamed_expr s (Aim.distance_child hk 0) hσ object hwo huo he.1
      obtain ⟨heqi, hi⟩ := renamed_expr s (Aim.distance_child hk 1) hσ i hwi hui he.2
      simp only [Resolve.expr, Renaming.expr, heqo, heqi, true_and]
      exact .index ho hi
  | .setIndex object bracket i v, .setIndex hwo hwi hwv, .setIndex huo hui huv, he => by
      simp only [Resolve.expr, Findings.errors_append, List.append_eq_nil_iff] at he
      obtain ⟨heqo, ho⟩ := renamed_expr s (Aim.distance_child hk 0) hσ object hwo huo he.1.1
      obtain ⟨heqi, hi⟩ := renamed_expr s (Aim.distance_child hk 1) hσ i hwi hui he.1.2
      obtain ⟨heqv, hv⟩ := renamed_expr s (Aim.distance_child hk 2) hσ v hwv huv he.2
      simp only [Resolve.expr, Renaming.expr, heqo, heqi, heqv, true_and]
      exact .setIndex ho hi hv
termination_by structural e => e

theorem renamed_exprs (s : Surroundings) {a : Aim} {k : Option Nat} (hk : a.distance = k)
    {σ σ' : Scopes} (hσ : RenamedScopes ρ k σ σ') :
    ∀ (es : List Expr), (∀ e ∈ es, WordedExpr e) → (∀ e ∈ es, UnusedExpr ρ.new e) →
      (Resolve.exprs s σ es).2.errors = [] →
      Resolve.exprs s σ' (ρ.exprs (fun _ => none) a (Resolve.exprs s σ es).1) =
        (ρ.exprs id a (Resolve.exprs s σ es).1, (Resolve.exprs s σ es).2) ∧
      RenamedExprs ρ k (Resolve.exprs s σ es).1 (ρ.exprs id a (Resolve.exprs s σ es).1)
  | [], _, _, _ => ⟨rfl, .nil⟩
  | e :: es, hw, hu, he => by
      simp only [Resolve.exprs, Findings.errors_append, List.append_eq_nil_iff] at he
      obtain ⟨hw, hws⟩ := List.forall_mem_cons.mp hw
      obtain ⟨hu, hus⟩ := List.forall_mem_cons.mp hu
      have haim := Aim.distance_child hk ((Resolve.exprs s σ es).1.length + 1)
      obtain ⟨heq, h⟩ := renamed_expr s haim hσ e hw hu he.1
      obtain ⟨heqs, hs⟩ := renamed_exprs s hk hσ es hws hus he.2
      simp only [Resolve.exprs, Renaming.exprs, heq, heqs, true_and]
      exact .cons h hs
termination_by structural es => es

theorem renamed_optionExpr (s : Surroundings) {a : Aim} {k : Option Nat} (hk : a.distance = k)
    {σ σ' : Scopes} (hσ : RenamedScopes ρ k σ σ') :
    ∀ (e : Option Expr), (∀ v ∈ e, WordedExpr v) → (∀ v ∈ e, UnusedExpr ρ.new v) →
      (Resolve.optionExpr s σ e).2.errors = [] →
      Resolve.optionExpr s σ' (ρ.optionExpr (fun _ => none) a (Resolve.optionExpr s σ e).1) =
        (ρ.optionExpr id a (Resolve.optionExpr s σ e).1, (Resolve.optionExpr s σ e).2) ∧
      RenamedOptionExpr ρ k (Resolve.optionExpr s σ e).1
        (ρ.optionExpr id a (Resolve.optionExpr s σ e).1)
  | none, _, _, _ => ⟨rfl, .none⟩
  | some e, hw, hu, he => by
      obtain ⟨heq, h⟩ := renamed_expr s hk hσ e (hw e rfl) (hu e rfl) he
      simp only [Resolve.optionExpr, Renaming.optionExpr, heq, true_and]
      exact .some h
termination_by structural e => e

theorem renamed_decl (s : Surroundings) (kind : FunctionKind) {a : Aim} {k : Option Nat}
    (hk : a.distance = k) {σ σ' : Scopes} (hσ : RenamedScopes ρ k σ σ') :
    ∀ (d : FunctionDecl), WordedDecl d → UnusedDecl ρ.new d →
      (Resolve.function s kind σ d).2.errors = [] →
      Resolve.function s kind σ' (ρ.function (fun _ => none) a (Resolve.function s kind σ d).1) =
        (ρ.function id a (Resolve.function s kind σ d).1, (Resolve.function s kind σ d).2) ∧
      RenamedDecl ρ k (Resolve.function s kind σ d).1
        (ρ.function id a (Resolve.function s kind σ d).1)
  | .mk keyword name ps body, .mk _ _ hw, .mk _ hps hu, he => by
      simp only [Resolve.function, Findings.errors_append, List.append_eq_nil_iff] at he
      have hi := (Renaming.outer_enter (ρ := ρ)
        (ps.map (Declaration.mk · .parameter) ++ body.filterMap Stmt.declaration?) a).trans hk
      obtain ⟨hσ₁, hfound⟩ := (hσ.enter hi).withParams (Renaming.forall₂_declared hps) hps he.1
      have hsole : ∀ st ∈ body, ρ.Sole _ st := fun st hst =>
        Renaming.sole_enter (a := a) (distinct_of_function he.1 he.2) fun d hd =>
          List.mem_append_right _ (List.mem_filterMap.mpr ⟨st, hst, hd⟩)
      obtain ⟨σ₂, heq, -, h⟩ := renamed_stmts (s.within kind) rfl hσ₁ body hw hu hsole he.2
      simp only [Resolve.function, Renaming.function, Resolve.declarations_stmts, heq, hfound,
        true_and]
      exact .mk hi (Renaming.forall₂_declared hps) h
termination_by structural d => d

theorem renamed_decls (s : Surroundings) {a : Aim} {k : Option Nat} (hk : a.distance = k)
    {σ σ' : Scopes} (hσ : RenamedScopes ρ k σ σ') :
    ∀ (ds : List FunctionDecl), (∀ d ∈ ds, WordedDecl d) → (∀ d ∈ ds, UnusedDecl ρ.new d) →
      (Resolve.methods s σ ds).2.errors = [] →
      Resolve.methods s σ' (ρ.functions (fun _ => none) a (Resolve.methods s σ ds).1) =
        (ρ.functions id a (Resolve.methods s σ ds).1, (Resolve.methods s σ ds).2) ∧
      RenamedDecls ρ k (Resolve.methods s σ ds).1 (ρ.functions id a (Resolve.methods s σ ds).1)
  | [], _, _, _ => ⟨rfl, .nil⟩
  | d :: ds, hw, hu, he => by
      simp only [Resolve.methods, Findings.errors_append, List.append_eq_nil_iff] at he
      obtain ⟨hw, hws⟩ := List.forall_mem_cons.mp hw
      obtain ⟨hu, hus⟩ := List.forall_mem_cons.mp hu
      have haim := Aim.distance_child hk ((Resolve.methods s σ ds).1.length + 1)
      obtain ⟨heq, h⟩ := renamed_decl s d.methodKind haim hσ d hw hu he.1
      obtain ⟨heqs, hs⟩ := renamed_decls s hk hσ ds hws hus he.2
      simp only [Resolve.methods, Renaming.functions, Renaming.methodKind_function, heq, heqs,
        true_and]
      exact .cons h hs
termination_by structural ds => ds

/-- What the resolver makes of the renamed statement is the resolved statement renamed,
and the scopes that it leaves are those of before renamed. -/
theorem renamed_stmt (s : Surroundings) {a : Aim} {k : Option Nat} (hk : a.distance = k)
    {σ σ' : Scopes} (hσ : RenamedScopes ρ k σ σ') :
    ∀ (st : Stmt), WordedStmt st → UnusedStmt ρ.new st → ρ.Sole k st →
      (Resolve.stmt s σ st).2.2.errors = [] →
      ∃ σ₁, Resolve.stmt s σ' (ρ.stmt (fun _ => none) a (Resolve.stmt s σ st).1) =
          (ρ.stmt id a (Resolve.stmt s σ st).1, σ₁, (Resolve.stmt s σ st).2.2) ∧
        RenamedScopes ρ k (Resolve.stmt s σ st).2.1 σ₁ ∧
        RenamedStmt ρ k (Resolve.stmt s σ st).1 (ρ.stmt id a (Resolve.stmt s σ st).1)
  | .print e, .print hw, .print hu, _, he => by
      obtain ⟨heq, h⟩ := renamed_expr s (Aim.distance_child hk 0) hσ e hw hu he
      refine ⟨σ', ?_, hσ, .print h⟩
      simp only [Resolve.stmt, Renaming.stmt, heq]
  | .expression e, .expression hw, .expression hu, _, he => by
      obtain ⟨heq, h⟩ := renamed_expr s (Aim.distance_child hk 0) hσ e hw hu he
      refine ⟨σ', ?_, hσ, .expression h⟩
      simp only [Resolve.stmt, Renaming.stmt, heq]
  | .varDecl x e, .varDecl _ hw, .varDecl hx hu, _, he => by
      simp only [Resolve.stmt, Findings.errors_append, List.append_eq_nil_iff] at he
      have hnames := Renaming.names_declared (k := k) hx
      have hσ₁ := hσ.declare hx hnames.words true
      obtain ⟨heq, h⟩ := renamed_optionExpr s (Aim.distance_child hk 0) hσ₁ e hw hu he.2
      refine ⟨_, ?_, hσ₁.define hx hnames.words, ?_⟩
      · simp only [Resolve.stmt, Renaming.stmt, hk, heq, hσ.redeclared hnames he.1]
      · simp only [Resolve.stmt, Renaming.stmt, hk]
        exact .varDecl hnames h
  | .letDecl x e, .letDecl _ hw, .letDecl hx hu, _, he => by
      simp only [Resolve.stmt, Findings.errors_append, List.append_eq_nil_iff] at he
      have hnames := Renaming.names_declared (k := k) hx
      have hσ₁ := hσ.declare hx hnames.words false
      obtain ⟨heq, h⟩ := renamed_expr s (Aim.distance_child hk 0) hσ₁ e hw hu he.2
      refine ⟨_, ?_, hσ₁.define hx hnames.words, ?_⟩
      · simp only [Resolve.stmt, Renaming.stmt, hk, heq, hσ.redeclared hnames he.1]
      · simp only [Resolve.stmt, Renaming.stmt, hk]
        exact .letDecl hnames h
  | .block body, .block hw, .block hu, _, he => by
      have hi := (Renaming.outer_enter (ρ := ρ) (body.filterMap Stmt.declaration?) a).trans hk
      have hsole : ∀ st ∈ body, ρ.Sole _ st := fun st hst =>
        Renaming.sole_enter (a := a) (distinct_of_stmts (List.cons_ne_nil [] σ) he).2 fun d hd =>
          List.mem_filterMap.mpr ⟨st, hst, hd⟩
      obtain ⟨_, heq, -, h⟩ := renamed_stmts s rfl (hσ.enter hi) body hw hu hsole he
      refine ⟨σ', ?_, hσ, ?_⟩
      · simp only [Resolve.stmt, Renaming.stmt, Resolve.declarations_stmts, heq]
      · simp only [Resolve.stmt, Renaming.stmt, Resolve.declarations_stmts]
        exact .block hi h
  | .branch c onTrue onFalse, .branch hwc hwt hnone hwf hnone', .branch huc hut huf, _, he => by
      simp only [Resolve.stmt, Findings.errors_append, List.append_eq_nil_iff] at he
      obtain ⟨heqc, hc⟩ := renamed_expr s (Aim.distance_child hk 0) hσ c hwc huc he.1.1
      obtain ⟨σ₁, heqt, hσ₁, ht⟩ := renamed_stmt s (Aim.distance_child hk 1) hσ onTrue hwt hut
        (Renaming.sole_of_none hnone) he.1.2
      obtain ⟨σ₂, heqf, hσ₂, hf⟩ := renamed_optionStmt s (Aim.distance_child hk 2) hσ₁ onFalse hwf
        huf (fun st hst => Renaming.sole_of_none (hnone' st hst)) he.2
      refine ⟨σ₂, ?_, hσ₂, .branch hc ht hf⟩
      simp only [Resolve.stmt, Renaming.stmt, heqc, heqt, heqf]
  | .whileLoop c body step, .whileLoop hwc hw hnone hws, .whileLoop huc hu hus, _, he => by
      simp only [Resolve.stmt, Findings.errors_append, List.append_eq_nil_iff] at he
      obtain ⟨heqc, hc⟩ := renamed_expr s (Aim.distance_child hk 0) hσ c hwc huc he.1.1
      obtain ⟨σ₁, heq, hσ₁, h⟩ := renamed_stmt { s with inLoop := true } (Aim.distance_child hk 1)
        hσ body hw hu (Renaming.sole_of_none hnone) he.1.2
      obtain ⟨heqs, hs⟩ := renamed_optionExpr s (Aim.distance_child hk 2) hσ₁ step hws hus he.2
      refine ⟨σ₁, ?_, hσ₁, .whileLoop hc h hs⟩
      simp only [Resolve.stmt, Renaming.stmt, heqc, heq, heqs]
  | .functionDecl d, .functionDecl hw, .functionDecl hu, hsole, he => by
      simp only [Resolve.stmt, Findings.errors_append, List.append_eq_nil_iff] at he
      cases hd : d.name with
      | none =>
          simp only [hd] at he
          obtain ⟨heq, h⟩ := renamed_decl s .function (Aim.distance_child hk 0) hσ d hw hu he.2
          have hname := (Resolve.name_function s .function σ d).trans hd
          refine ⟨σ', ?_, ?_, ?_⟩
          · simp only [Resolve.stmt, Renaming.stmt, Renaming.name_function, hd, hname, heq]
          · simpa only [Resolve.stmt, hd] using hσ
          · simp only [Resolve.stmt, hd]
            exact .functionDecl (by rw [hname]; exact nofun) h
      | some x =>
          simp only [hd] at he
          have hx : x.lexeme ≠ ρ.new := hu.name x hd
          have hnames : ρ.Names (k = some 0) x x := hsole.names
            (d := ⟨x, .function⟩) (by simp only [Stmt.declaration?, hd, Option.map_some])
            (by simp [Renaming.concerns]) hx
          have hσ₁ := hσ.introduce hx hnames.words true
          obtain ⟨heq, h⟩ := renamed_decl s .function (Aim.distance_child hk 0) hσ₁ d hw hu he.2
          have hname := (Resolve.name_function s .function (σ.introduce x.lexeme true) d).trans hd
          refine ⟨σ'.introduce x.lexeme true, ?_, ?_, ?_⟩
          · simp only [Resolve.stmt, Renaming.stmt, Renaming.name_function, hd, hname, heq,
              hσ.redeclared hnames he.1]
          · simpa only [Resolve.stmt, hd] using hσ₁
          · simp only [Resolve.stmt, hd]
            refine .functionDecl ?_ h
            rw [hname]
            rintro y ⟨⟩
            exact hnames
  | .classDecl x none ms, .classDecl _ _ hw, .classDecl hx _ hu, hsole, he => by
      simp only [Resolve.stmt, Findings.errors_append, List.append_eq_nil_iff] at he
      have hnames : ρ.Names (k = some 0) x x :=
        hsole.names (d := ⟨x, .class⟩) rfl (by simp [Renaming.concerns]) hx
      have hσ₁ := hσ.introduce hx hnames.words true
      obtain ⟨heq, h⟩ := renamed_decls { s with inClass := .base } (Aim.distance_methods hk none)
        (hσ₁.push _ (Renaming.implicit_new (by decide))) ms hw hu he.2
      refine ⟨_, ?_, hσ₁, .classDecl hnames .none h⟩
      simp only [Resolve.stmt, Renaming.stmt, Renaming.optionExpr, heq, hσ.redeclared hnames he.1]
  | .classDecl x (some e) ms, .classDecl _ hwe hw, .classDecl hx hue hu, hsole, he => by
      simp only [Resolve.stmt, Findings.errors_append, List.append_eq_nil_iff] at he
      have hnames : ρ.Names (k = some 0) x x :=
        hsole.names (d := ⟨x, .class⟩) rfl (by simp [Renaming.concerns]) hx
      have hσ₁ := hσ.introduce hx hnames.words true
      obtain ⟨heqe, hinherits⟩ := renamed_expr { s with inClass := .derived }
        (Aim.distance_child hk 0) hσ₁ e (hwe e rfl) (hue e rfl) he.1.2
      have haim := Aim.distance_methods hk
        (some (Resolve.expr { s with inClass := .derived } (σ.introduce x.lexeme true) e).1)
      obtain ⟨heq, h⟩ := renamed_decls { s with inClass := .derived } haim
        ((hσ₁.push _ (Renaming.implicit_new (by decide))).push _
          (Renaming.implicit_new (by decide)))
        ms hw hu he.2
      refine ⟨_, ?_, hσ₁, .classDecl hnames (.some hinherits) h⟩
      simp only [Resolve.stmt, Renaming.stmt, Renaming.optionExpr, heqe, heq,
        hσ.redeclared hnames he.1.1.1, Renaming.inheritance_eq hx he.1.1.2]
  | .returnWith keyword e, .returnWith hw, .returnWith hu, _, he => by
      simp only [Resolve.stmt, Findings.errors_append, List.append_eq_nil_iff] at he
      obtain ⟨heq, h⟩ := renamed_optionExpr s (Aim.distance_child hk 0) hσ e hw hu he.2
      refine ⟨σ', ?_, hσ, .returnWith h⟩
      simp only [Resolve.stmt, Renaming.stmt, heq, Renaming.isSome_optionExpr]
  | .breakLoop keyword, _, _, _, _ => ⟨σ', rfl, hσ, .breakLoop⟩
  | .continueLoop keyword, _, _, _, _ => ⟨σ', rfl, hσ, .continueLoop⟩
  | .moduleDecl x body, .moduleDecl _ hw, .moduleDecl hx hu, hsole, he => by
      simp only [Resolve.stmt, Findings.errors_append, List.append_eq_nil_iff] at he
      have hnames : ρ.Names (k = some 0) x x :=
        hsole.names (d := ⟨x, .module⟩) rfl (by simp [Renaming.concerns]) hx
      obtain ⟨_, heq, -, h⟩ := renamed_stmts { s with inLoop := false } (Aim.distance_deeper hk)
        (hσ.push [] rfl) body hw hu (fun st _ => Renaming.sole_of_inner st) he.1
      refine ⟨_, ?_, hσ.introduce hx hnames.words false, .moduleDecl hnames h⟩
      simp only [Resolve.stmt, Renaming.stmt, heq, hσ.redeclared hnames he.2]
termination_by structural st => st

theorem renamed_optionStmt (s : Surroundings) {a : Aim} {k : Option Nat} (hk : a.distance = k)
    {σ σ' : Scopes} (hσ : RenamedScopes ρ k σ σ') :
    ∀ (st : Option Stmt), (∀ u ∈ st, WordedStmt u) → (∀ u ∈ st, UnusedStmt ρ.new u) →
      (∀ u ∈ st, ρ.Sole k u) → (Resolve.optionStmt s σ st).2.2.errors = [] →
      ∃ σ₁, Resolve.optionStmt s σ'
          (ρ.optionStmt (fun _ => none) a (Resolve.optionStmt s σ st).1) =
          (ρ.optionStmt id a (Resolve.optionStmt s σ st).1, σ₁,
            (Resolve.optionStmt s σ st).2.2) ∧
        RenamedScopes ρ k (Resolve.optionStmt s σ st).2.1 σ₁ ∧
        RenamedOptionStmt ρ k (Resolve.optionStmt s σ st).1
          (ρ.optionStmt id a (Resolve.optionStmt s σ st).1)
  | none, _, _, _, _ => ⟨σ', rfl, hσ, .none⟩
  | some st, hw, hu, hsole, he => by
      obtain ⟨σ₁, heq, hσ₁, h⟩ :=
        renamed_stmt s hk hσ st (hw st rfl) (hu st rfl) (hsole st rfl) he
      refine ⟨σ₁, ?_, hσ₁, .some h⟩
      simp only [Resolve.optionStmt, Renaming.optionStmt, heq]
termination_by structural st => st

theorem renamed_stmts (s : Surroundings) {a : Aim} {k : Option Nat} (hk : a.distance = k)
    {σ σ' : Scopes} (hσ : RenamedScopes ρ k σ σ') :
    ∀ (sts : List Stmt), (∀ st ∈ sts, WordedStmt st) → (∀ st ∈ sts, UnusedStmt ρ.new st) →
      (∀ st ∈ sts, ρ.Sole k st) → (Resolve.stmts s σ sts).2.2.errors = [] →
      ∃ σ₁, Resolve.stmts s σ' (ρ.stmts (fun _ => none) a (Resolve.stmts s σ sts).1) =
          (ρ.stmts id a (Resolve.stmts s σ sts).1, σ₁, (Resolve.stmts s σ sts).2.2) ∧
        RenamedScopes ρ k (Resolve.stmts s σ sts).2.1 σ₁ ∧
        RenamedStmts ρ k (Resolve.stmts s σ sts).1 (ρ.stmts id a (Resolve.stmts s σ sts).1)
  | [], _, _, _, _ => ⟨σ', rfl, hσ, .nil⟩
  | st :: sts, hw, hu, hsole, he => by
      simp only [Resolve.stmts, Findings.errors_append, List.append_eq_nil_iff] at he
      obtain ⟨hw, hws⟩ := List.forall_mem_cons.mp hw
      obtain ⟨hu, hus⟩ := List.forall_mem_cons.mp hu
      obtain ⟨hsole, hsoles⟩ := List.forall_mem_cons.mp hsole
      have haim := Aim.distance_child hk
        (Resolve.stmts s (Resolve.stmt s σ st).2.1 sts).1.length
      obtain ⟨σ₁, heq, hσ₁, h⟩ := renamed_stmt s haim hσ st hw hu hsole he.1
      obtain ⟨σ₂, heqs, hσ₂, hs⟩ := renamed_stmts s hk hσ₁ sts hws hus hsoles he.2
      refine ⟨σ₂, ?_, hσ₂, .cons h hs⟩
      simp only [Resolve.stmts, Renaming.stmts, heq, heqs]
termination_by structural sts => sts

end

end

end Lox
