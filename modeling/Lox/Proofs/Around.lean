/-
# What stands around a place

The nodes of a program without the resolver: `nodeAt` follows a place down the
tree, and `around` lists the constructs on the way, each with the number of the
child that the way takes.  From these alone it is said which declarations every
scope around the place holds that start before it (`scopesAround`), what is being
initialized there, and which function and loop are around it.

A name that is declared among statements counts from its own token on, so inside
of its own statement too; the name of a module counts behind the module.
-/
import Lox.Proofs.Words

namespace Lox

/-! ## Declarations -/

/-- The ways to declare a name. -/
inductive DeclarationForm where
  | variable
  | constant
  | function
  | «class»
  | module
  | parameter
  | self
deriving DecidableEq

/-- A name that is declared, and how. -/
structure Declaration where
  name : Token
  form : DeclarationForm

/-- A declaration whose name no assignment may change. -/
def Declaration.readOnly (d : Declaration) : Bool :=
  d.form = .constant ∨ d.form = .module ∨ d.form = .self

/-- The first declaration of a name. -/
def firstOf (declared : List Declaration) (n : String) : Option Declaration :=
  declared.find? fun d => d.name.lexeme = n

/-- What a statement declares in the scope that it stands in. -/
def Stmt.declaration? : Stmt → Option Declaration
  | .varDecl name _ => some ⟨name, .variable⟩
  | .letDecl name _ => some ⟨name, .constant⟩
  | .functionDecl d => d.name.map (⟨·, .function⟩)
  | .classDecl name _ _ => some ⟨name, .class⟩
  | .moduleDecl name _ => some ⟨name, .module⟩
  | _ => none

/-- What a statement declares before its own inside begins. -/
def Stmt.declaresInside : Stmt → List Declaration
  | .moduleDecl _ _ => []
  | st => st.declaration?.toList

/-! ## Nodes -/

/-- The parts of an expression. -/
def Expr.part : Expr → Nat → Option Node
  | .grouping e, 0 => some (.expr e)
  | .unary _ e, 0 => some (.expr e)
  | .binary l _ _, 0 => some (.expr l)
  | .binary _ _ r, 1 => some (.expr r)
  | .logical l _ _, 0 => some (.expr l)
  | .logical _ _ r, 1 => some (.expr r)
  | .assign _ v _, 0 => some (.expr v)
  | .call callee _ _, 0 => some (.expr callee)
  | .call _ _ es, i + 1 => es.reverse[i]?.map .expr
  | .get object _, 0 => some (.expr object)
  | .set object _ _, 0 => some (.expr object)
  | .set _ _ v, 1 => some (.expr v)
  | .function d, 0 => some (.function .function d)
  | .array _ size _, 0 => size.map .expr
  | .array _ _ es, i + 1 => es.reverse[i]?.map .expr
  | .index object _ _, 0 => some (.expr object)
  | .index _ _ i, 1 => some (.expr i)
  | .setIndex object _ _ _, 0 => some (.expr object)
  | .setIndex _ _ i _, 1 => some (.expr i)
  | .setIndex _ _ _ v, 2 => some (.expr v)
  | _, _ => none

/-- The parts of a statement. -/
def Stmt.part : Stmt → Nat → Option Node
  | .print e, 0 => some (.expr e)
  | .expression e, 0 => some (.expr e)
  | .varDecl _ e, 0 => e.map .expr
  | .letDecl _ e, 0 => some (.expr e)
  | .block body, i => body.reverse[i]?.map .stmt
  | .branch condition _ _, 0 => some (.expr condition)
  | .branch _ onTrue _, 1 => some (.stmt onTrue)
  | .branch _ _ onFalse, 2 => onFalse.map .stmt
  | .whileLoop condition _ _, 0 => some (.expr condition)
  | .whileLoop _ body _, 1 => some (.stmt body)
  | .whileLoop _ _ step, 2 => step.map .expr
  | .functionDecl d, 0 => some (.function .function d)
  | .classDecl _ superclass _, 0 => superclass.map .expr
  | .classDecl _ _ ms, i + 1 => ms.reverse[i]?.map fun d => .function d.methodKind d
  | .returnWith _ v, 0 => v.map .expr
  | .moduleDecl _ body, i => body.reverse[i]?.map .stmt
  | _, _ => none

/-- The child of a node by its number. -/
def Node.child : Node → Nat → Option Node
  | .text body, i => body.reverse[i]?.map .stmt
  | .expr e, i => e.part i
  | .stmt st, i => st.part i
  | .function _ d, i => d.body.reverse[i]?.map .stmt

/-- The node at a place of the texts. -/
def nodeAt (texts : List (List Stmt)) : Place → Option Node
  | [] => none
  | [r] => texts[r]?.map .text
  | i :: j :: p => (nodeAt texts (j :: p)).bind (·.child i)

/-- A construct, and the number of the child through which it is entered. -/
abbrev Way := Node × Nat

/-- The constructs around a place, the innermost first. -/
def around (texts : List (List Stmt)) : Place → List Way
  | i :: j :: p =>
    match nodeAt texts (j :: p) with
    | some n => (n, i) :: around texts (j :: p)
    | none => []
  | _ => []

/-! ## Scopes -/

/-- The constructs whose scope holds what their statements declare: what it holds
ahead of them, and the statements. -/
def Node.members : Node → Option (List Declaration × List Stmt)
  | .text body => some ([], body)
  | .function _ d => some (d.params.map (⟨·, .parameter⟩), d.body)
  | .stmt (.block body) => some ([], body)
  | .stmt (.moduleDecl _ body) => some ([], body)
  | _ => none

/-- What the scope of a construct holds before the statement that the way enters. -/
def Way.earlier : Way → List Declaration
  | (n, i) =>
    match n.members with
    | some (ahead, body) =>
      ahead ++ (body.take (body.length - (i + 1))).filterMap Stmt.declaration?
    | none => []

/-- What the statement that the way enters declares before its inside begins. -/
def Way.entered : Way → List Declaration
  | (n, i) =>
    match n.child i with
    | some (.stmt st) => st.declaresInside
    | _ => []

/-- The scopes that a way crosses, the innermost first, each with the declarations
that start before the inside of what is entered.  A class has a scope for `this`
and one for `super` if it has a superclass, which itself stands outside of both. -/
def Way.crossed : Way → List (List Declaration)
  | (.expr (.function d), _) => d.name.toList.map fun name => [⟨name, .self⟩]
  | (.stmt (.classDecl _ none _), _) => [[]]
  | (.stmt (.classDecl _ (some _) _), 0) => []
  | (.stmt (.classDecl _ (some _) _), _ + 1) => [[], []]
  | w =>
    match w.1.members with
    | some _ => [w.earlier ++ w.entered]
    | none => []

/-- The scopes around a place, the innermost first, each with its declarations that
start before the place. -/
def scopesOf (ways : List Way) : List (List Declaration) := ways.flatMap Way.crossed

/-- The variable that is being initialized, function expressions apart, if this is
the first declaration of its name in its scope. -/
def initializing : List Way → Option String
  | (.stmt (.varDecl name _), _) :: outer | (.stmt (.letDecl name _), _) :: outer =>
    match outer.head? with
    | some w => if (firstOf w.earlier name.lexeme).isSome then none else some name.lexeme
    | none => none
  | (.expr (.function _), _) :: _ => none
  | (.expr _, _) :: outer => initializing outer
  | _ => none

/-- The kind of the innermost function around a place. -/
def functionOf : List Way → FunctionKind
  | (.function kind _, _) :: _ => kind
  | _ :: outer => functionOf outer
  | [] => .none

/-- Whether a place is in the body of a loop that goes on there. -/
def loops : List Way → Bool
  | (.stmt (.whileLoop _ _ _), 1) :: _ => true
  | (.function _ _, _) :: _ => false
  | (.stmt (.moduleDecl _ _), _) :: _ => false
  | _ :: outer => loops outer
  | [] => false

/-! ## Lists that are numbered from the end -/

theorem getElem?_reverse_cons {α : Type} (a : α) (as : List α) (i : Nat) :
    (a :: as).reverse[i]? = if i = as.length then some a else as.reverse[i]? := by
  rw [List.reverse_cons, List.getElem?_append, List.length_reverse]
  by_cases h : i = as.length
  · simp [h]
  · rw [if_neg h]
    split
    · rfl
    · rw [List.getElem?_eq_none (by simp; omega), List.getElem?_eq_none (by simp; omega)]

/-- A list in which every element is mapped by its number. -/
theorem getElem?_reverse_numbered {α β : Type} {f : List α → List β} {g : Nat → α → β}
    (hnil : f [] = []) (hcons : ∀ a as, f (a :: as) = g as.length a :: f as) (as : List α)
    (i : Nat) : (f as).reverse[i]? = as.reverse[i]?.map (g i) := by
  have hlength : ∀ as, (f as).length = as.length := by
    intro as
    induction as with
    | nil => rw [hnil, List.length_nil, List.length_nil]
    | cons a as ih => rw [hcons, List.length_cons, List.length_cons, ih]
  induction as with
  | nil =>
      rw [hnil]
      rfl
  | cons a as ih =>
      rw [hcons, getElem?_reverse_cons, getElem?_reverse_cons, hlength]
      split
      · subst i
        rfl
      · exact ih

theorem getElem?_reverse_later {α : Type} (before later : List α) (a : α) :
    (before ++ a :: later).reverse[later.length]? = some a := by
  simp

namespace Visit

theorem node_operand (c : Context) (es : List Expr) (i : Nat) :
    (operand c es (i + 1)).map node = es.reverse[i]?.map .expr := by
  induction es with
  | nil => rfl
  | cons e es ih =>
      rw [getElem?_reverse_cons, operand]
      simp only [Nat.add_right_cancel_iff]
      split
      · rfl
      · exact ih

theorem node_method (c : Context) (ds : List FunctionDecl) (i : Nat) :
    (method c ds (i + 1)).map node = ds.reverse[i]?.map fun d => .function d.methodKind d := by
  induction ds with
  | nil => rfl
  | cons d ds ih =>
      rw [getElem?_reverse_cons, method]
      simp only [Nat.add_right_cancel_iff]
      split
      · rfl
      · exact ih

theorem node_statement (c : Context) (sts : List Stmt) (i : Nat) :
    (statement c sts i).map node = sts.reverse[i]?.map .stmt := by
  induction sts generalizing c with
  | nil => rfl
  | cons st sts ih =>
      rw [getElem?_reverse_cons, statement]
      split
      · rfl
      · exact ih (c.after st)

/-- Where a statement stands among others is said by its number. -/
theorem statement_at {c : Context} {sts : List Stmt} {i : Nat} {w : Visit}
    (h : statement c sts i = some w) :
    ∃ before st later, sts = before ++ st :: later ∧ i = later.length ∧
      w = ⟨c.through before, .stmt st⟩ := by
  induction sts generalizing c with
  | nil => cases h
  | cons st sts ih =>
      rw [statement] at h
      split at h
      · cases h
        exact ⟨[], st, sts, rfl, ‹_›, rfl⟩
      · obtain ⟨before, st', later, rfl, hi, hw⟩ := ih h
        exact ⟨st :: before, st', later, rfl, hi, hw⟩

theorem node_ofExpr (p : Place) (c : Context) (e : Expr) (i : Nat) :
    (ofExpr p c e i).map node = e.part i := by
  cases e with
  | call callee paren es =>
      cases i with
      | zero => rfl
      | succ i => exact node_operand c es i
  | array bracket size es =>
      cases i with
      | zero => cases size <;> rfl
      | succ i => exact node_operand c es i
  | _ => rcases i with _ | _ | _ | i <;> rfl

theorem node_ofStmt (p : Place) (c : Context) (st : Stmt) (i : Nat) :
    (ofStmt p c st i).map node = st.part i := by
  cases st with
  | block body => exact node_statement (c.push (.block p)) body i
  | moduleDecl name body => exact node_statement (c.members p) body i
  | classDecl name e ms =>
      cases i with
      | zero =>
          cases e with
          | none =>
              cases h : method (c.methods p name none) ms 0 with
              | none => simp only [ofStmt, h]; rfl
              | some w => exact absurd (method_pos h) (Nat.lt_irrefl 0)
          | some e => rfl
      | succ i =>
          have h : ofStmt p c (.classDecl name e ms) (i + 1) =
              method (c.methods p name e) ms (i + 1) := by
            cases e <;> rfl
          rw [h]
          exact node_method _ ms i
  | varDecl name e =>
      rcases i with _ | i
      · cases e <;> rfl
      · rfl
  | branch condition onTrue onFalse =>
      rcases i with _ | _ | _ | i
      all_goals try rfl
      cases onFalse <;> rfl
  | whileLoop condition body step =>
      rcases i with _ | _ | _ | i
      all_goals try rfl
      cases step <;> rfl
  | returnWith keyword e =>
      rcases i with _ | i
      · cases e <;> rfl
      · rfl
  | _ => rcases i with _ | i <;> rfl

/-- The resolver goes to the children of a node. -/
theorem node_child (p : Place) (v : Visit) (i : Nat) :
    (v.child p i).map node = v.node.child i := by
  obtain ⟨c, node⟩ := v
  cases node with
  | text body => exact node_statement c body i
  | expr e => exact node_ofExpr p c e i
  | stmt st => exact node_ofStmt p c st i
  | function kind d => exact node_statement _ d.body i

end Visit

/-- The resolver visits every node. -/
theorem node_visitAt (texts : List (List Stmt)) (p : Place) :
    (visitAt texts p).map Visit.node = nodeAt texts p := by
  induction p with
  | nil => rfl
  | cons i p ih =>
      cases p with
      | nil =>
          rw [visitAt, nodeAt, Option.map_map]
          rfl
      | cons j p =>
          rw [visitAt, nodeAt, ← ih]
          cases visitAt texts (j :: p) with
          | none => rfl
          | some v => exact v.node_child (j :: p) i

theorem around_cons {texts : List (List Stmt)} {p : Place} {v : Visit}
    (h : visitAt texts p = some v) (i : Nat) :
    around texts (i :: p) = (v.node, i) :: around texts p := by
  cases p with
  | nil => cases h
  | cons j p => simp only [around, ← node_visitAt, h, Option.map_some]

end Lox
