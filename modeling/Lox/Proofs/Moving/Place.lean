/-
# The program with a step moved, place by place

A program and the program with the step of a loop moved have the same nodes at the same
places, but at the loop itself and below it, and but for this around it.  So what is moved
is the step of that loop and nothing else: `nodeAt_stmts` says what stands at a place on
the way to the loop, `nodeAt_aside` what stands at a place aside.
-/
import Lox.Proofs.Around
import Lox.Proofs.Moving
import Mathlib.Data.List.Induction

namespace Lox

namespace Moving

/-- A node with the step of a loop moved. -/
def node (w : Descent) : Node → Node
  | .text body => .text (stmts w body)
  | .expr e => .expr (expr w e)
  | .stmt st => .stmt (stmt w st)
  | .function kind d => .function kind (function w d)

theorem node_none (n : Node) : node none n = n := by
  cases n with
  | text body => exact congrArg Node.text (stmts_none body)
  | expr e => exact congrArg Node.expr (expr_none e)
  | stmt st => exact congrArg Node.stmt (stmt_none st)
  | function kind d => exact congrArg (Node.function kind) (function_none d)

section
variable (w : Descent)

theorem map_optionExpr (e : Option Expr) :
    (optionExpr w e).map Node.expr = (e.map Node.expr).map (node w) := by
  cases e <;> rfl

theorem map_exprs (es : List Expr) (i : Nat) :
    (exprs w es).reverse[i]?.map Node.expr =
      (es.reverse[i]?.map Node.expr).map (node (w.child (i + 1))) := by
  rw [getElem?_reverse_numbered (f := exprs w) (g := fun i => expr (w.child (i + 1))) rfl
    (fun _ _ => rfl), Option.map_map, Option.map_map]
  rfl

theorem map_stmts (sts : List Stmt) (i : Nat) :
    (stmts w sts).reverse[i]?.map Node.stmt =
      (sts.reverse[i]?.map Node.stmt).map (node (w.child i)) := by
  rw [getElem?_reverse_numbered (f := stmts w) (g := fun i => stmt (w.child i)) rfl
    (fun _ _ => rfl), Option.map_map, Option.map_map]
  rfl

theorem map_functions (ds : List FunctionDecl) (i : Nat) :
    ((functions w ds).reverse[i]?.map fun d => Node.function d.methodKind d) =
      (ds.reverse[i]?.map fun d => Node.function d.methodKind d).map
        (node (w.child (i + 1))) := by
  rw [getElem?_reverse_numbered (f := functions w) (g := fun i => function (w.child (i + 1))) rfl
    (fun _ _ => rfl), Option.map_map, Option.map_map]
  refine Option.map_congr fun d _ => ?_
  simp only [Function.comp_apply, node, methodKind_function]

theorem part_expr (e : Expr) (i : Nat) :
    (expr w e).part i = (e.part i).map (node (w.child i)) := by
  cases e with
  | call callee paren es =>
      cases i with
      | zero => rfl
      | succ i => exact map_exprs w es i
  | array bracket size es =>
      cases i with
      | zero => exact map_optionExpr (w.child 0) size
      | succ i => exact map_exprs w es i
  | _ => rcases i with _ | _ | _ | i <;> rfl

variable {w} (hw : w ≠ some [])
include hw

theorem part_stmt (st : Stmt) (i : Nat) :
    (stmt w st).part i = (st.part i).map (node (w.child i)) := by
  cases st with
  | block body => exact map_stmts w body i
  | moduleDecl x body => exact map_stmts w body i
  | classDecl x e ms =>
      cases i with
      | zero => exact map_optionExpr (w.child 0) e
      | succ i => exact map_functions w ms i
  | varDecl x e =>
      rcases i with _ | i
      · exact map_optionExpr (w.child 0) e
      · rfl
  | branch c onTrue onFalse =>
      rcases i with _ | _ | _ | i
      all_goals try rfl
      cases onFalse <;> rfl
  | whileLoop c body step =>
      have hkept : ¬ (w = some [] ∧ body.continues = false) := fun h => hw h.1
      simp only [stmt, if_neg hkept]
      rcases i with _ | _ | _ | i
      all_goals try rfl
      cases step <;> rfl
  | returnWith keyword e =>
      rcases i with _ | i
      · exact map_optionExpr (w.child 0) e
      · rfl
  | _ => rcases i with _ | i <;> rfl

/-- The children of a node that is not the loop. -/
theorem child_node (n : Node) (i : Nat) :
    (node w n).child i = (n.child i).map (node (w.child i)) := by
  cases n with
  | text body => exact map_stmts w body i
  | expr e => exact part_expr w e i
  | stmt st => exact part_stmt hw st i
  | function kind d =>
      cases d with
      | mk keyword name ps body => exact map_stmts w body i

end

theorem nodeAt_cons (texts : List (List Stmt)) (i : Nat) {p : Place} (hp : p ≠ []) :
    nodeAt texts (i :: p) = (nodeAt texts p).bind (·.child i) := by
  cases p with
  | nil => exact absurd rfl hp
  | cons j p => rfl

/-- What stands on the way to a loop: the node that stood there, with the step of the loop
moved, which is so much of the way further down. -/
theorem nodeAt_stmts (body : List Stmt) (way rest : List Nat) :
    nodeAt [stmts (some (way ++ rest)) body] (way.reverse ++ [0]) =
      (nodeAt [body] (way.reverse ++ [0])).map (node (some rest)) := by
  induction way using List.reverseRecOn generalizing rest with
  | nil => rfl
  | append_singleton way i ih =>
      have hplace : way.reverse ++ [0] ≠ [] := List.concat_ne_nil _ _
      rw [List.append_assoc, List.singleton_append, List.reverse_append, List.reverse_singleton,
        List.singleton_append, List.cons_append, nodeAt_cons _ i hplace, nodeAt_cons _ i hplace,
        ih (i :: rest)]
      cases nodeAt [body] (way.reverse ++ [0]) with
      | none => rfl
      | some n =>
          have hchild := child_node (w := some (i :: rest)) nofun n i
          rwa [Descent.child, if_pos rfl] at hchild

/-- Where the way goes on to one child, the other ones stay as they are. -/
theorem nodeAt_other (body : List Stmt) (way rest : List Nat) {i k : Nat} (hne : k ≠ i) :
    nodeAt [stmts (some (way ++ k :: rest)) body] (i :: (way.reverse ++ [0])) =
      nodeAt [body] (i :: (way.reverse ++ [0])) := by
  have hplace : way.reverse ++ [0] ≠ [] := List.concat_ne_nil _ _
  rw [nodeAt_cons _ i hplace, nodeAt_cons _ i hplace, nodeAt_stmts]
  cases nodeAt [body] (way.reverse ++ [0]) with
  | none => rfl
  | some n =>
      have hchild := child_node (w := some (k :: rest)) nofun n i
      rw [Descent.child, if_neg hne] at hchild
      simp only [Option.map_some, Option.bind_some, hchild]
      cases n.child i with
      | none => rfl
      | some n => exact congrArg some (node_none n)

/-- A place aside of the way to a loop, neither on the way nor below the loop, has the node
that it had. -/
theorem nodeAt_aside (body : List Stmt) (way : List Nat) (p : Place)
    (habove : ¬ p <:+ way.reverse ++ [0]) (hbelow : ¬ way.reverse ++ [0] <:+ p) :
    nodeAt [stmts (some way) body] p = nodeAt [body] p := by
  induction p with
  | nil => rfl
  | cons i p ih =>
      rcases List.eq_nil_or_concat p with rfl | ⟨q, a, hq⟩
      · cases i with
        | zero => exact absurd (List.suffix_append _ _) habove
        | succ i => rfl
      · by_cases hon : p <:+ way.reverse ++ [0]
        · obtain ⟨more, hmore⟩ := hon
          have hsplit : more ++ q ++ [a] = way.reverse ++ [0] := by
            rw [← hmore, hq, List.concat_eq_append, List.append_assoc]
          obtain ⟨hway, hzero⟩ := List.append_inj' hsplit rfl
          cases hzero
          rcases List.eq_nil_or_concat more with rfl | ⟨more, k, rfl⟩
          · rw [← hmore] at hbelow
            exact absurd (List.suffix_cons i p) hbelow
          · have hne : k ≠ i := by
              rintro rfl
              exact habove ⟨more, by rw [← hmore]; simp⟩
            have hplace : way = q.reverse ++ k :: more.reverse := by
              rw [← List.reverse_reverse way, ← hway]
              simp
            have hother := nodeAt_other body q.reverse more.reverse hne
            rw [List.reverse_reverse, ← hplace, ← List.concat_eq_append, ← hq] at hother
            exact hother
        · have hp : p ≠ [] := fun hnil => hon (hnil ▸ List.nil_suffix)
          rw [nodeAt_cons _ i hp, nodeAt_cons _ i hp,
            ih hon fun h => hbelow (h.trans (List.suffix_cons i p))]

/-- A `for` whose body has no `continue` for it, with its step moved. -/
theorem stmt_forLoop (initializer : Option Stmt) (condition step : Expr) {body : Stmt}
    (hbody : body.continues = false) :
    stmt (some [0]) (.forLoop initializer condition (some step) body) =
      .forLoop initializer condition none (.block [body, .expression step]) := by
  have hloop : stmt (some []) (.whileLoop condition body (some step)) =
      .whileLoop condition (.block [body, .expression step]) none := by
    simp only [stmt, optionExpr, Descent.child, expr_none, stmt_none, hbody, and_self, if_true]
    rfl
  have hlast : stmts (some [0]) [.whileLoop condition body (some step)] =
      [.whileLoop condition (.block [body, .expression step]) none] := congrArg (· :: []) hloop
  unfold Stmt.forLoop
  cases initializer with
  | none => exact congrArg Stmt.block hlast
  | some first => exact congrArg Stmt.block (congrArg₂ List.cons (stmt_none first) hlast)

/-- The step of a `for` is moved, and what stands aside of the `for` stays as it is. -/
theorem nodeAt_forLoop {body : List Stmt} {way : List Nat} {initializer : Option Stmt}
    {condition step : Expr} {inner : Stmt}
    (hfor : nodeAt [body] (way.reverse ++ [0]) =
      some (.stmt (.forLoop initializer condition (some step) inner)))
    (hinner : inner.continues = false) :
    nodeAt [program (way ++ [0]) body] (way.reverse ++ [0]) =
      some (.stmt (.forLoop initializer condition none (.block [inner, .expression step]))) ∧
    ∀ p, ¬ p <:+ way.reverse ++ [0] → ¬ way.reverse ++ [0] <:+ p →
      nodeAt [program (way ++ [0]) body] p = nodeAt [body] p := by
  have hloop : (way ++ [0]).reverse ++ [0] = 0 :: (way.reverse ++ [0]) := by simp
  refine ⟨?_, fun p habove hbelow => nodeAt_aside body (way ++ [0]) p ?_ ?_⟩
  · rw [program, nodeAt_stmts, hfor, Option.map_some, node, stmt_forLoop _ _ _ hinner]
  · rw [hloop, List.suffix_cons_iff]
    rintro (rfl | h)
    · exact hbelow (List.suffix_cons 0 _)
    · exact habove h
  · rw [hloop]
    exact fun h => hbelow ((List.suffix_cons 0 _).trans h)

end Moving

end Lox
