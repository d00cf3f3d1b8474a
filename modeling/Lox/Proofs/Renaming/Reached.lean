/-
# Runs of a program with a renamed scope

A program in which nothing is renamed belongs together with itself (`same_stmts`),
and so does every state that a session can reach (`Reached.renamed`), whatever earlier
texts left in it.  From states that belong together two programs that do so come to ends
that do: `renamed_interpret`.
-/
import Lox.Proofs.Reached
import Lox.Proofs.Renaming.Step

namespace Lox

/-! ## Programs in which nothing is renamed -/

section
variable (ρ : Renaming)

theorem Renaming.Names.anywhere {ρ : Renaming} (d : Option Nat) (x : Token) :
    ρ.Names (Renaming.Reaches none d) x x :=
  .of_not (fun h => by rw [h.2] at h; exact nomatch h.1) x

theorem FunctionDecl.around_none (d : FunctionDecl) : d.around none = none := by
  unfold around
  cases d.name <;> rfl

theorem aroundMethods_none (e : Option Expr) : aroundMethods e none = none := by
  cases e <;> rfl

mutual

theorem same_expr : ∀ e : Expr, RenamedExpr ρ none e e
  | .literal v => .literal v
  | .grouping e => .grouping (same_expr e)
  | .unary _ e => .unary (same_expr e)
  | .binary l _ r => .binary (same_expr l) (same_expr r)
  | .logical l _ r => .logical (same_expr l) (same_expr r)
  | .variable x d => .variable (.anywhere d x)
  | .assign x v d => .assign (.anywhere d x) (same_expr v)
  | .call callee _ es => .call (same_expr callee) (same_exprs es)
  | .get object _ => .get (same_expr object)
  | .set object _ v => .set (same_expr object) (same_expr v)
  | .receiver keyword d => .receiver (.anywhere d keyword)
  | .superMethod keyword _ d => .superMethod (.anywhere d keyword)
  | .function d => by
      refine .function ?_
      rw [d.around_none]
      exact same_decl d
  | .array _ size es => .array (same_optionExpr size) (same_exprs es)
  | .index object _ i => .index (same_expr object) (same_expr i)
  | .setIndex object _ i v => .setIndex (same_expr object) (same_expr i) (same_expr v)
termination_by structural e => e

theorem same_exprs : ∀ es : List Expr, RenamedExprs ρ none es es
  | [] => .nil
  | e :: es => .cons (same_expr e) (same_exprs es)
termination_by structural es => es

theorem same_optionExpr : ∀ e : Option Expr, RenamedOptionExpr ρ none e e
  | none => .none
  | some e => .some (same_expr e)
termination_by structural e => e

theorem same_decl : ∀ d : FunctionDecl, RenamedDecl ρ none d d
  | .mk _ _ _ body =>
    .mk rfl (List.forall₂_same.mpr fun x _ => .of_not nofun x) (same_stmts body)
termination_by structural d => d

theorem same_decls : ∀ ds : List FunctionDecl, RenamedDecls ρ none ds ds
  | [] => .nil
  | d :: ds => .cons (same_decl d) (same_decls ds)
termination_by structural ds => ds

theorem same_stmt : ∀ st : Stmt, RenamedStmt ρ none st st
  | .print e => .print (same_expr e)
  | .expression e => .expression (same_expr e)
  | .varDecl x e => .varDecl (.of_not nofun x) (same_optionExpr e)
  | .letDecl x e => .letDecl (.of_not nofun x) (same_expr e)
  | .block body => .block rfl (same_stmts body)
  | .branch c a b => .branch (same_expr c) (same_stmt a) (same_optionStmt b)
  | .whileLoop c b step => .whileLoop (same_expr c) (same_stmt b) (same_optionExpr step)
  | .functionDecl d => .functionDecl (fun x _ => .of_not nofun x) (same_decl d)
  | .classDecl x e ms => by
      refine .classDecl (.of_not nofun x) (same_optionExpr e) ?_
      rw [aroundMethods_none]
      exact same_decls ms
  | .returnWith _ e => .returnWith (same_optionExpr e)
  | .breakLoop _ => .breakLoop
  | .continueLoop _ => .continueLoop
  | .moduleDecl x body => .moduleDecl (.of_not nofun x) (same_stmts body)
termination_by structural st => st

theorem same_optionStmt : ∀ st : Option Stmt, RenamedOptionStmt ρ none st st
  | none => .none
  | some st => .some (same_stmt st)
termination_by structural st => st

theorem same_stmts : ∀ sts : List Stmt, RenamedStmts ρ none sts sts
  | [] => .nil
  | st :: sts => .cons (same_stmt st) (same_stmts sts)
termination_by structural sts => sts

end

end

/-! ## How runs end -/

/-- Runs end alike, and with an error at the same place. -/
inductive RenamedOutcome (ρ : Renaming) : State.Outcome → State.Outcome → Prop
  | success : RenamedOutcome ρ .success .success
  | error {e e'} : RenamedError ρ e e' →
      e'.token.map Token.position = e.token.map Token.position →
      RenamedOutcome ρ (.error e) (.error e')
  | unfinished : RenamedOutcome ρ .unfinished .unfinished

/-- Ends of runs, with as much written and the same globals, and states from which the
same can be said of whatever runs next. -/
structure RenamedEnding (ρ : Renaming) (c c' : State.Outcome × State) : Prop where
  outcome : RenamedOutcome ρ c.1 c'.1
  output : c'.2.output = c.2.output
  state : ∃ B, RenamedState ρ B c.2 c'.2 ∧ ∀ n,
    Option.Rel (RenamedValue ρ B) (c.2.store.getLocal? State.globals n)
      (c'.2.store.getLocal? State.globals n) ∧
    c'.2.store.isReadOnly State.globals n = c.2.store.isReadOnly State.globals n

theorem RenamedError.outcome {ρ : Renaming} {e e' : RuntimeError} (h : RenamedError ρ e e') :
    RenamedOutcome ρ (.error e) (.error e') := by
  refine .error h ?_
  cases h <;> rfl

/-- What states have in common that belong together. -/
theorem RenamedState.ending {ρ : Renaming} {B : Bearings} {s s' : State}
    (hs : RenamedState ρ B s s') {o o' : State.Outcome} (ho : RenamedOutcome ρ o o') :
    RenamedEnding ρ (o, s) (o', s') := by
  have hnot : ¬ B State.globals (some 0) := fun h0 =>
    nomatch hs.store.charted.unique hs.store.charted.globals h0
  exact ⟨ho, hs.output, B, hs, fun n =>
    ⟨hs.store.getLocal? (.of_not hnot n), hs.store.isReadOnly hnot n⟩⟩

namespace State

variable {ρ : Renaming}

theorem renamed_surface {B : Bearings} {g g' : Signal} (hg : RenamedSignal ρ B g g') {s s' : State}
    (hs : RenamedState ρ B s s') :
    RenamedError ρ (surface g s).1 (surface g' s').1 ∧
      RenamedState ρ B (surface g s).2 (surface g' s').2 := by
  cases hg with
  | failure he => exact ⟨he, hs⟩
  | returning _ => exact ⟨.same _, hs.note _ _⟩
  | breaking => exact ⟨.same _, hs.note _ _⟩
  | continuing => exact ⟨.same _, hs.note _ _⟩

theorem renamed_concluded {m m' : Machine} (h : RenamedMachine ρ m m') :
    RenamedEnding ρ (concluded m) (concluded m') := by
  obtain ⟨control, stack, s⟩ := m
  obtain ⟨control', stack', s'⟩ := m'
  obtain ⟨B, hcontrol, hstack, hs⟩ := h
  dsimp only at hcontrol hstack hs
  cases hcontrol with
  | evaluate | execute | value => exact hs.ending .unfinished
  | done =>
      cases hstack with
      | nil => exact hs.ending .success
      | cons => exact hs.ending .unfinished
  | unwind hg =>
      cases hstack with
      | nil =>
          obtain ⟨he, hs⟩ := renamed_surface hg hs
          exact hs.ending he.outcome
      | cons => exact hs.ending .unfinished

theorem renamed_starting {B : Bearings} {s s' : State} (hs : RenamedState ρ B s s')
    {program program' : List Stmt} (h : RenamedStmts ρ none program program') :
    RenamedMachine ρ (starting program s) (starting program' s') :=
  ⟨B, .done, .cons (.sequence hs.store.charted.globals h) .nil, hs⟩

/-- From states that belong together, programs that do so come to ends that do. -/
theorem renamed_interpret {B : Bearings} {s s' : State} (hs : RenamedState ρ B s s')
    {program program' : List Stmt} (h : RenamedStmts ρ none program program') (moves : Nat) :
    RenamedEnding ρ (interpret moves program s) (interpret moves program' s') :=
  renamed_concluded (renamed_run (renamed_starting hs h) moves)

/-- So they do whatever runs next. -/
theorem renamed_next {c c' : Outcome × State} (h : RenamedEnding ρ c c') (moves : Nat)
    (program : List Stmt) :
    RenamedEnding ρ (interpret moves program c.2) (interpret moves program c'.2) := by
  obtain ⟨B, hs, -⟩ := h.state
  exact renamed_interpret hs (same_stmts ρ program) moves

end State

namespace Session

variable (ρ : Renaming)

/-! ## States -/

/-- At the beginning there are the native functions, and no scope is renamed. -/
theorem renamed_initial (limit : Option Nat) (now : ClockReading) :
    ∃ B, RenamedState ρ B (.initial limit now) (.initial limit now) := by
  let B : Bearings := fun e k => e = State.globals ∧ k = none
  have hnot : ∀ e, ¬ B e (some 0) := fun e h => nomatch h.2
  have hcharted : Charted B (Store.empty.newEnvironment default).2 := by
    refine ⟨?_, ?_, ?_, ⟨rfl, rfl⟩, rfl⟩
    · rintro e k ⟨rfl, rfl⟩
      exact Nat.zero_lt_one
    · rintro e j k ⟨-, rfl⟩ ⟨-, rfl⟩
      rfl
    · rintro e k p ⟨rfl, rfl⟩ hp
      cases hp
  have hbase : RenamedStore ρ B (Store.empty.newEnvironment default).2
      (Store.empty.newEnvironment default).2 := by
    refine ⟨rfl, fun e => ?_, .nil, .nil, rfl, hcharted⟩
    rw [Store.environment_newEnvironment]
    split
    · exact ⟨.nil, fun _ => rfl, rfl⟩
    · exact ⟨.nil, fun _ => rfl, rfl⟩
  have hclock := hbase.put (.of_not (hnot State.globals) Native.clock.name)
    (.callable (.native .clock))
  have hlen := hclock.put (.of_not (hnot State.globals) Native.len.name) (.callable (.native .len))
  exact ⟨B, hlen, rfl, rfl, rfl, rfl⟩

/-- A state of a session belongs together with itself. -/
theorem Reached.renamed {sources : List String} {s : State} (h : Reached sources s) :
    ∃ B, RenamedState ρ B s s := by
  induction h with
  | first limit now => exact renamed_initial ρ limit now
  | @ran sources s moves source h hfinished ih =>
      obtain ⟨B, hs⟩ := ih
      unfold run
      cases hstart : start source s with
      | error failed =>
          obtain ⟨f, s'⟩ := failed
          obtain ⟨events, rfl⟩ := start_eq_error hstart
          exact ⟨B, hs.notes events events⟩
      | ok m =>
          obtain ⟨body, events, hread, haccepted, rfl⟩ := start_eq_ok hstart
          have hm := State.renamed_starting (hs.notes events events)
            (same_stmts ρ (Resolve.program body).1)
          dsimp only
          rw [conclude_state]
          obtain ⟨B', hs', -⟩ := (State.renamed_concluded (renamed_run hm moves)).state
          exact ⟨B', hs'⟩
  | aside output events clock h ih =>
      obtain ⟨B, hs⟩ := ih
      exact ⟨B, hs.store, rfl, rfl, rfl, rfl⟩

end Session

end Lox
