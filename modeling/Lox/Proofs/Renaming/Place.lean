/-
# The renamed program, place by place

A program and the program with a name renamed have the same nodes at the same places,
one of them renamed: `node_renamed`.  The aim at a place is what is left of it on the way
there.  So names have the depths that they had: `depthAt_renamed`.
-/
import Lox.Proofs.Lexical
import Lox.Proofs.Around
import Lox.Proofs.Renaming

namespace Lox

namespace Renaming

variable (ρ : Renaming) (depths : Option Nat → Option Nat)

/-- A node with the name renamed. -/
def node (a : Aim) : Node → Node
  | .text body => .text (ρ.stmts depths a body)
  | .expr e => .expr (ρ.expr depths a e)
  | .stmt st => .stmt (ρ.stmt depths a st)
  | .function kind d => .function kind (ρ.function depths a d)

/-- The same scope, seen from inside of a node: from what is in its own scope, if it has
one. -/
def inside (a : Aim) : Node → Aim
  | .stmt (.block body) => ρ.enter (body.filterMap Stmt.declaration?) a
  | .stmt (.moduleDecl _ _) => a.deeper
  | .function _ d =>
    ρ.enter (d.params.map (⟨·, .parameter⟩) ++ d.body.filterMap Stmt.declaration?) a
  | _ => a

/-- The same scope, seen from a child of a node. -/
def aimAt (a : Aim) (n : Node) (i : Nat) : Aim :=
  match n with
  | .expr (.function d) => a.lambda d
  | .stmt (.classDecl _ superclass _) =>
    if i = 0 then a.child i else (a.methods superclass).child i
  | n => (ρ.inside a n).child i

theorem length_exprs (a : Aim) (es : List Expr) : (ρ.exprs depths a es).length = es.length := by
  induction es with
  | nil => rfl
  | cons e es ih => simp only [exprs, List.length_cons, ih]

theorem length_functions (a : Aim) (ds : List FunctionDecl) :
    (ρ.functions depths a ds).length = ds.length := by
  induction ds with
  | nil => rfl
  | cons d ds ih => simp only [functions, List.length_cons, ih]

theorem length_stmts (a : Aim) (sts : List Stmt) :
    (ρ.stmts depths a sts).length = sts.length := by
  induction sts with
  | nil => rfl
  | cons st sts ih => simp only [stmts, List.length_cons, ih]

theorem getElem?_exprs (a : Aim) (es : List Expr) (i : Nat) :
    (ρ.exprs depths a es).reverse[i]? = es.reverse[i]?.map (ρ.expr depths (a.child (i + 1))) := by
  induction es with
  | nil => rfl
  | cons e es ih =>
      rw [exprs, getElem?_reverse_cons, getElem?_reverse_cons, length_exprs]
      split
      · subst i
        rfl
      · exact ih

theorem getElem?_functions (a : Aim) (ds : List FunctionDecl) (i : Nat) :
    (ρ.functions depths a ds).reverse[i]? =
      ds.reverse[i]?.map (ρ.function depths (a.child (i + 1))) := by
  induction ds with
  | nil => rfl
  | cons d ds ih =>
      rw [functions, getElem?_reverse_cons, getElem?_reverse_cons, length_functions]
      split
      · subst i
        rfl
      · exact ih

theorem getElem?_stmts (a : Aim) (sts : List Stmt) (i : Nat) :
    (ρ.stmts depths a sts).reverse[i]? = sts.reverse[i]?.map (ρ.stmt depths (a.child i)) := by
  induction sts with
  | nil => rfl
  | cons st sts ih =>
      rw [stmts, getElem?_reverse_cons, getElem?_reverse_cons, length_stmts]
      split
      · subst i
        rfl
      · exact ih

theorem map_optionExpr (a : Aim) (e : Option Expr) :
    (ρ.optionExpr depths a e).map Node.expr = (e.map Node.expr).map (ρ.node depths a) := by
  cases e <;> rfl

theorem map_exprs (a : Aim) (es : List Expr) (i : Nat) :
    (ρ.exprs depths a es).reverse[i]?.map Node.expr =
      (es.reverse[i]?.map Node.expr).map (ρ.node depths (a.child (i + 1))) := by
  rw [getElem?_exprs, Option.map_map, Option.map_map]
  rfl

theorem map_stmts (a : Aim) (sts : List Stmt) (i : Nat) :
    (ρ.stmts depths a sts).reverse[i]?.map Node.stmt =
      (sts.reverse[i]?.map Node.stmt).map (ρ.node depths (a.child i)) := by
  rw [getElem?_stmts, Option.map_map, Option.map_map]
  rfl

theorem part_expr (a : Aim) (e : Expr) (i : Nat) :
    (ρ.expr depths a e).part i = (e.part i).map (ρ.node depths (ρ.aimAt a (.expr e) i)) := by
  cases e with
  | call callee paren es =>
      cases i with
      | zero => rfl
      | succ i => exact ρ.map_exprs depths a es i
  | array bracket size es =>
      cases i with
      | zero => exact ρ.map_optionExpr depths (a.child 0) size
      | succ i => exact ρ.map_exprs depths a es i
  | _ => rcases i with _ | _ | _ | i <;> rfl

theorem part_stmt (a : Aim) (st : Stmt) (i : Nat) :
    (ρ.stmt depths a st).part i = (st.part i).map (ρ.node depths (ρ.aimAt a (.stmt st) i)) := by
  cases st with
  | block body => exact ρ.map_stmts depths (ρ.enter (body.filterMap Stmt.declaration?) a) body i
  | moduleDecl x body => exact ρ.map_stmts depths a.deeper body i
  | classDecl x e ms =>
      cases i with
      | zero => exact ρ.map_optionExpr depths (a.child 0) e
      | succ i =>
          simp only [stmt, Stmt.part, getElem?_functions, Option.map_map]
          refine Option.map_congr fun d _ => ?_
          cases d
          rfl
  | varDecl x e =>
      rcases i with _ | i
      · exact ρ.map_optionExpr depths (a.child 0) e
      · rfl
  | branch c onTrue onFalse =>
      rcases i with _ | _ | _ | i
      all_goals try rfl
      cases onFalse <;> rfl
  | whileLoop c body step =>
      rcases i with _ | _ | _ | i
      all_goals try rfl
      cases step <;> rfl
  | returnWith keyword e =>
      rcases i with _ | i
      · exact ρ.map_optionExpr depths (a.child 0) e
      · rfl
  | _ => rcases i with _ | i <;> rfl

/-- The children of a renamed node are the children renamed. -/
theorem child_node (a : Aim) (n : Node) (i : Nat) :
    (ρ.node depths a n).child i = (n.child i).map (ρ.node depths (ρ.aimAt a n i)) := by
  cases n with
  | text body => exact ρ.map_stmts depths a body i
  | expr e => exact ρ.part_expr depths a e i
  | stmt st => exact ρ.part_stmt depths a st i
  | function kind d =>
      cases d with
      | mk keyword name ps body =>
          exact ρ.map_stmts depths
            (ρ.enter (ps.map (⟨·, .parameter⟩) ++ body.filterMap Stmt.declaration?) a) body i

/-- The renamed program has at every place the node there renamed. -/
theorem node_renamed (a : Aim) (body : List Stmt) (p : Place) :
    ∃ b, nodeAt [ρ.stmts depths a body] p = (nodeAt [body] p).map (ρ.node depths b) := by
  induction p with
  | nil => exact ⟨a, rfl⟩
  | cons i p ih =>
      cases p with
      | nil =>
          refine ⟨a, ?_⟩
          cases i <;> rfl
      | cons j p =>
          obtain ⟨b, hb⟩ := ih
          cases hn : nodeAt [body] (j :: p) with
          | none =>
              refine ⟨b, ?_⟩
              simp only [nodeAt, hb, hn, Option.map_none, Option.bind_none]
          | some n =>
              refine ⟨ρ.aimAt b n i, ?_⟩
              simp only [nodeAt, hb, hn, Option.map_some, Option.bind_some, child_node]

end Renaming

/-! ## Depths -/

/-- The depth of the name that is used at a place, if one is. -/
def depthAt (texts : List (List Stmt)) (p : Place) : Option (Option Nat) :=
  match nodeAt texts p with
  | some (.expr e) => e.reference.map Prod.snd
  | _ => none

/-- Renaming changes no depth. -/
theorem depthAt_renamed (ρ : Renaming) (a : Aim) (body : List Stmt) (p : Place) :
    depthAt [ρ.stmts id a body] p = depthAt [body] p := by
  obtain ⟨b, hb⟩ := ρ.node_renamed id a body p
  unfold depthAt
  rw [hb]
  cases nodeAt [body] p with
  | none => rfl
  | some n =>
      cases n with
      | expr e => cases e <;> rfl
      | _ => rfl

end Lox
