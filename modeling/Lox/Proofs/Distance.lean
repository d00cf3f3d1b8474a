/-
# Depths are distances in the text

The resolver leaves the shape of a program as it is (`node_resolved`) and gives every
use of a name its depth.  The depth is the number of scopes between the use and the
nearest scope with a declaration of the name that starts before it, and there is none
where no scope around the use has one: `depth_eq_distance`.

It holds of every program that was read, redeclarations and all, since a scope keeps
the names that it has.
-/
import Lox.Proofs.Coherent.Step
import Lox.Proofs.Described
import Lox.Proofs.Lexical

namespace Lox

/-! ## What the resolver makes of a node -/

/-- What the resolver makes of the node that it visits. -/
def Visit.resolved (v : Visit) : Node :=
  match v.node with
  | .text body => .text (v.context.stmts body)
  | .expr e => .expr (v.context.expr e)
  | .stmt st => .stmt (v.context.stmt st)
  | .function kind d => .function kind (v.context.function kind d)

namespace Visit

theorem resolved_operand (c : Context) (es : List Expr) (i : Nat) :
    (operand c es (i + 1)).map resolved = (c.exprs es).reverse[i]?.map .expr := by
  induction es with
  | nil => rfl
  | cons e es ih =>
      have hexprs : c.exprs (e :: es) = c.expr e :: c.exprs es := rfl
      have hlength : (c.exprs es).length = es.length := Resolve.length_exprs ..
      rw [hexprs, getElem?_reverse_cons, operand, hlength]
      simp only [Nat.add_right_cancel_iff]
      split
      · rfl
      · exact ih

theorem resolved_method (c : Context) (ds : List FunctionDecl) (i : Nat) :
    (method c ds (i + 1)).map resolved =
      (c.decls ds).reverse[i]?.map fun d => .function d.methodKind d := by
  induction ds with
  | nil => rfl
  | cons d ds ih =>
      have hdecls : c.decls (d :: ds) = c.function d.methodKind d :: c.decls ds := rfl
      have hlength : (c.decls ds).length = ds.length := Resolve.length_methods ..
      have hkind : (c.function d.methodKind d).methodKind = d.methodKind := by
        cases d
        rfl
      rw [hdecls, getElem?_reverse_cons, method, hlength]
      simp only [Nat.add_right_cancel_iff]
      split
      · rw [Option.map_some, Option.map_some, hkind]
        rfl
      · exact ih

theorem resolved_statement (c : Context) (sts : List Stmt) (i : Nat) :
    (statement c sts i).map resolved = (c.stmts sts).reverse[i]?.map .stmt := by
  induction sts generalizing c with
  | nil => rfl
  | cons st sts ih =>
      have hstmts : c.stmts (st :: sts) = c.stmt st :: (c.after st).stmts sts := rfl
      have hlength : ((c.after st).stmts sts).length = sts.length := Resolve.length_stmts ..
      rw [hstmts, getElem?_reverse_cons, statement, hlength]
      split
      · rfl
      · exact ih (c.after st)

theorem resolved_ofExpr (p : Place) (c : Context) (e : Expr) (i : Nat) :
    (ofExpr p c e i).map resolved = (c.expr e).part i := by
  cases e with
  | call callee paren es =>
      cases i with
      | zero => rfl
      | succ i => exact resolved_operand c es i
  | array bracket size es =>
      cases i with
      | zero => cases size <;> rfl
      | succ i => exact resolved_operand c es i
  | function d =>
      rw [c.expr_function p]
      rcases i with _ | i <;> rfl
  | receiver keyword depth =>
      obtain ⟨depth', h, -⟩ := c.expr_receiver keyword depth
      rw [h]
      rfl
  | superMethod keyword method depth =>
      obtain ⟨depth', h, -⟩ := c.expr_superMethod keyword method depth
      rw [h]
      rfl
  | _ => rcases i with _ | _ | _ | i <;> rfl

theorem resolved_ofStmt (p : Place) (c : Context) (st : Stmt) (i : Nat) :
    (ofStmt p c st i).map resolved = (c.stmt st).part i := by
  cases st with
  | block body => exact resolved_statement (c.push (.block p)) body i
  | moduleDecl name body => exact resolved_statement (c.members p) body i
  | functionDecl d =>
      rw [c.stmt_functionDecl]
      rcases i with _ | i <;> rfl
  | classDecl name e ms =>
      cases i with
      | zero =>
          cases e with
          | none =>
              cases h : method (c.methods p name none) ms 0 with
              | none => simp only [ofStmt, h]; rfl
              | some w => exact absurd (method_pos h) (Nat.lt_irrefl 0)
          | some e => rfl
      | succ i =>
          cases e with
          | none => exact resolved_method (c.methods p name none) ms i
          | some e => exact resolved_method (c.methods p name (some e)) ms i
  | varDecl name e =>
      rcases i with _ | i
      · cases e <;> rfl
      · rfl
  | branch condition onTrue onFalse =>
      rcases i with _ | _ | _ | i
      all_goals try rfl
      cases onFalse <;> rfl
  | whileLoop condition body step =>
      rcases i with _ | _ | _ | i
      all_goals try rfl
      cases step <;> rfl
  | returnWith keyword e =>
      rcases i with _ | i
      · cases e <;> rfl
      · rfl
  | _ => rcases i with _ | i <;> rfl

/-- What the resolver makes of the children of a node are the children of what it
makes of the node. -/
theorem resolved_child (p : Place) (v : Visit) (i : Nat) :
    (v.child p i).map resolved = v.resolved.child i := by
  obtain ⟨c, node⟩ := v
  cases node with
  | text body => exact resolved_statement c body i
  | expr e => exact resolved_ofExpr p c e i
  | stmt st => exact resolved_ofStmt p c st i
  | function kind d =>
      cases d with
      | mk keyword name params body => exact resolved_statement (c.body p kind params) body i

end Visit

/-- A resolved program has at every place what the resolver made of the node there. -/
theorem node_resolved (texts : List (List Stmt)) (p : Place) :
    nodeAt (texts.map fun body => (Resolve.program body).1) p =
      (visitAt texts p).map Visit.resolved := by
  induction p with
  | nil => rfl
  | cons i p ih =>
      cases p with
      | nil =>
          rw [visitAt, nodeAt, List.getElem?_map, Option.map_map, Option.map_map]
          rfl
      | cons j p =>
          rw [visitAt, nodeAt, ih]
          cases visitAt texts (j :: p) with
          | none => rfl
          | some v => exact (v.resolved_child (j :: p) i).symm

/-! ## Distances -/

/-- A scope has a declaration of a name. -/
def Declared (declared : List Declaration) (n : String) : Prop :=
  ∃ d ∈ declared, d.name.lexeme = n

/-- The least number of scopes to cross to one with a declaration of a name. -/
structure Distance (scopes : List (List Declaration)) (n : String) (d : Nat) : Prop where
  reached : ∃ declared, scopes[d]? = some declared ∧ Declared declared n
  least : ∀ k < d, ∀ declared, scopes[k]? = some declared → ¬ Declared declared n

/-- The distance of a name and its first declaration in the scope there. -/
def nearest : List (List Declaration) → String → Option (Nat × Declaration)
  | [], _ => none
  | declared :: outer, n =>
    match firstOf declared n with
    | some d => some (0, d)
    | none => (nearest outer n).map fun (k, d) => (k + 1, d)

theorem declared_iff {declared : List Declaration} {n : String} :
    Declared declared n ↔ (firstOf declared n).isSome = true := by
  simp [Declared, firstOf, List.find?_isSome]

theorem nearest_spec (scopes : List (List Declaration)) (n : String) :
    match nearest scopes n with
    | some (d, first) => Distance scopes n d ∧
        ∃ declared, scopes[d]? = some declared ∧ firstOf declared n = some first
    | none => ∀ declared ∈ scopes, ¬ Declared declared n := by
  induction scopes with
  | nil => exact nofun
  | cons here outer ih =>
      rw [nearest]
      cases hhere : firstOf here n with
      | some first =>
          have hdeclared : Declared here n := declared_iff.mpr (by rw [hhere]; rfl)
          exact ⟨⟨⟨here, rfl, hdeclared⟩, fun k hk => absurd hk (Nat.not_lt_zero k)⟩,
            here, rfl, hhere⟩
      | none =>
          have hnot : ¬ Declared here n := fun h => by
            rw [declared_iff, hhere] at h
            cases h
          cases hnext : nearest outer n with
          | none =>
              rw [hnext] at ih
              exact List.forall_mem_cons.mpr ⟨hnot, ih⟩
          | some found =>
              obtain ⟨d, first⟩ := found
              rw [hnext] at ih
              obtain ⟨⟨hreached, hleast⟩, hfirst⟩ := ih
              refine ⟨⟨hreached, fun k hk declared hget => ?_⟩, hfirst⟩
              cases k with
              | zero =>
                  cases hget
                  exact hnot
              | succ k => exact hleast k (Nat.lt_of_succ_lt_succ hk) declared hget

theorem Distance.unique {scopes : List (List Declaration)} {n : String} {d d' : Nat}
    (h : Distance scopes n d) (h' : Distance scopes n d') : d = d' := by
  obtain ⟨declared, hget, hdeclared⟩ := h.reached
  obtain ⟨declared', hget', hdeclared'⟩ := h'.reached
  rcases Nat.lt_trichotomy d d' with hlt | heq | hlt
  · exact absurd hdeclared (h'.least d hlt declared hget)
  · exact heq
  · exact absurd hdeclared' (h.least d' hlt declared' hget')

/-- A name is found where the text has its nearest declaration, under the mark of
that declaration. -/
theorem find?_eq_nearest {σ : Scopes} {scopes : List (List Declaration)}
    (h : List.Forall₂ Describes σ scopes) {n : String} (ht : n ≠ "this") (hs : n ≠ "super") :
    (σ.find? n).map (fun (d, b) => (d, b.assignable)) =
      (nearest scopes n).map fun (d, first) => (d, !first.readOnly) := by
  induction h with
  | nil => rfl
  | @cons scope declared σ outer hhere _ ih =>
      have hhere := hhere n ht hs
      rw [Scopes.find?, nearest]
      cases hb : scope.get? n with
      | some b =>
          rw [hb] at hhere
          cases hd : firstOf declared n with
          | none => rw [hd] at hhere; cases hhere
          | some first =>
              rw [hd] at hhere
              exact congrArg (Option.map (Prod.mk 0)) hhere
      | none =>
          rw [hb] at hhere
          cases hd : firstOf declared n with
          | some first => rw [hd] at hhere; cases hhere
          | none =>
              have := congrArg (Option.map fun found : Nat × Bool => (found.1 + 1, found.2)) ih
              rw [Option.map_map, Option.map_map] at this
              dsimp only
              rw [Option.map_map, Option.map_map]
              exact this

/-! ## Depths -/

/-- The name that a node uses, read or assigned to, with its depth. -/
def Expr.use? : Expr → Option (Token × Option Nat)
  | .variable name depth => some (name, depth)
  | .assign name _ depth => some (name, depth)
  | _ => none

/-- What the resolver makes of a use. -/
theorem use_expr {c : Context} {e : Expr} {name : Token} {old : Option Nat}
    (h : e.use? = some (name, old)) :
    ∃ assigning, (c.expr e).use? = some (name, (c.scopes.refer name old assigning).1) := by
  cases e with
  | «variable» x depth =>
      cases h
      exact ⟨false, rfl⟩
  | assign x v depth =>
      cases h
      exact ⟨true, rfl⟩
  | _ => cases h

/-- In a program that was read every use of a name gets as its depth the least number
of scopes between the use and one with a declaration of the name that starts before
the use, and no depth if there is no such scope. -/
theorem depth_eq_distance {body : List Stmt} (hread : WasRead body) {p : Place} {e : Expr}
    {name : Token} {old : Option Nat} (hp : nodeAt [body] p = some (.expr e))
    (he : e.use? = some (name, old)) :
    ∃ e' depth, nodeAt [(Resolve.program body).1] p = some (.expr e') ∧
      e'.use? = some (name, depth) ∧
      (∀ d, depth = some d ↔ Distance (scopesOf (around [body] p)) name.lexeme d) ∧
      (depth = none ↔
        ∀ declared ∈ scopesOf (around [body] p), ¬ Declared declared name.lexeme) := by
  have hall : ∀ b ∈ [body], WasRead b := List.forall_mem_singleton.mpr hread
  rw [← node_visitAt] at hp
  obtain ⟨⟨c, node⟩, hv, hnode⟩ := Option.map_eq_some_iff.mp hp
  cases hnode
  obtain ⟨assigning, huse⟩ := use_expr (c := c) he
  have hresolved := node_resolved [body] p
  rw [hv] at hresolved
  refine ⟨c.expr e, _, hresolved, huse, ?_⟩
  have hfresh : old = none := by
    have hfresh := visitAt_fresh hall hv
    cases e <;> cases he <;> exact hfresh
  have hplain : name.Plain := by
    have hworded : WordedExpr e := visitAt_worded hall hv
    cases e <;> cases he <;> cases hworded <;> assumption
  have hfind := find?_eq_nearest (visitAt_known hall hv).scopes.1 hplain.1 hplain.2
  have hspec := nearest_spec (scopesOf (around [body] p)) name.lexeme
  rw [hfresh]
  unfold Scopes.refer
  cases hnearest : nearest (scopesOf (around [body] p)) name.lexeme with
  | none =>
      rw [hnearest] at hspec hfind
      rw [Option.map_eq_none_iff.mp hfind]
      refine ⟨fun d => ⟨nofun, fun h => ?_⟩, fun _ => hspec, fun _ => rfl⟩
      obtain ⟨declared, hget, hdeclared⟩ := h.reached
      exact absurd hdeclared (hspec declared (List.mem_of_getElem? hget))
  | some found =>
      obtain ⟨d, first⟩ := found
      rw [hnearest] at hspec hfind
      obtain ⟨⟨d', b⟩, hfound, heq⟩ := Option.map_eq_some_iff.mp hfind
      have hd : d' = d := congrArg Prod.fst heq
      subst hd
      rw [hfound]
      refine ⟨fun k => ⟨?_, fun h => ?_⟩, nofun, fun h => ?_⟩
      · rintro ⟨⟩
        exact hspec.1
      · rw [hspec.1.unique h]
      · obtain ⟨declared, hget, hdeclared⟩ := hspec.1.reached
        exact absurd hdeclared (h declared (List.mem_of_getElem? hget))

/-! ### One text -/

/-- The name that is printed is declared in the scope that it is printed in. -/
theorem depth_eq_distance_printed :
    nodeAt [Session.printed] [0, 0, 0] =
      some (.expr (.variable (Session.nameAt "a" 14) none)) ∧
    ∃ e' depth, nodeAt [(Resolve.program Session.printed).1] [0, 0, 0] = some (.expr e') ∧
      e'.use? = some (Session.nameAt "a" 14, depth) ∧
      (∀ d, depth = some d ↔ Distance (scopesOf (around [Session.printed] [0, 0, 0])) "a" d) ∧
      (depth = none ↔
        ∀ declared ∈ scopesOf (around [Session.printed] [0, 0, 0]), ¬ Declared declared "a") :=
  ⟨rfl, depth_eq_distance ⟨_, Session.read_printed⟩ rfl rfl⟩

end Lox
