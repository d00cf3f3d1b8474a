/-
# A `for` is a loop with its step at the end of the body

    for (a; c; e) b      reads      { a  while (c) b, then e }

Of a program that the resolver accepts, take a `for` whose body has no `continue` that goes
on with it, and move its step into a block around the body:

    { a  while (c) { b  e; } }

The resolver accepts that program too.  The names in the body have other depths there, and
every round has an environment more, but what the one program comes to, the other one
comes to: the same outcome, with the same error at the same token, the same output and the
same globals (`MovedEnding`).

    moving        what is replaced, and nothing else         `Moving.Place`
    resolving     depths with a scope more in between        `Moving.Resolve`
    running       what differs so moves alike                `Moving.Step`

As the `for` is written, its step is evaluated once after each body that is done or goes
on, and after no other one.  This is so of every loop: `Machine.RoundsOf`.
-/
import Lox.Proofs.Lexical
import Lox.Proofs.Moving.Place
import Lox.Proofs.Moving.Reached
import Lox.Proofs.Rounds

namespace Lox

/-- A `for` is a `while`.  The way leads to the block that the `for` is read as. -/
theorem for_is_while {sources : List String} {s : State} (hreached : Session.Reached sources s)
    {source : String} {body : List Stmt} (hread : (Session.read source).2 = .ok body)
    (haccepted : Accepted body) (way : List Nat) {initializer : Option Stmt}
    {condition step : Expr} {inner : Stmt}
    (hfor : nodeAt [body] (way.reverse ++ [0]) =
      some (.stmt (.forLoop initializer condition (some step) inner))) :
    (inner.continues = false →
      (nodeAt [Moving.program (way ++ [0]) body] (way.reverse ++ [0]) =
          some (.stmt (.forLoop initializer condition none (.block [inner, .expression step]))) ∧
        ∀ p, ¬ p <:+ way.reverse ++ [0] → ¬ way.reverse ++ [0] <:+ p →
          nodeAt [Moving.program (way ++ [0]) body] p = nodeAt [body] p) ∧
      Accepted (Moving.program (way ++ [0]) body) ∧
      (∀ moves, ∃ moves', moves ≤ moves' ∧
        MovedEnding (State.interpret moves (Resolve.program body).1 s)
          (State.interpret moves' (Resolve.program (Moving.program (way ++ [0]) body)).1 s)) ∧
      ∀ moves', ∃ moves,
        MovedEnding (State.interpret moves (Resolve.program body).1 s)
          (State.interpret moves' (Resolve.program (Moving.program (way ++ [0]) body)).1 s)) ∧
    ∀ c b e, Machine.RoundsOf c b e := by
  refine ⟨fun hinner => ?_, Machine.roundsOf⟩
  obtain ⟨haccepted', h⟩ := moved_program ⟨source, hread⟩ haccepted (some (way ++ [0]))
  obtain ⟨T, hs⟩ := hreached.moved
  exact ⟨Moving.nodeAt_forLoop hfor hinner, haccepted', State.moved_interpret hs h,
    State.moved_interpret_back hs h⟩

/-! ### One text -/

/-- The program of `for (var a = "x"; a; a = nil) print a;`. -/
def printing : List Stmt :=
  [.forLoop (some (.varDecl (Session.nameAt "a" 10) (some (.literal (.string "x")))))
    (.variable (Session.nameAt "a" 19) none)
    (some (.assign (Session.nameAt "a" 22) (.literal .nil) none))
    (.print (.variable (Session.nameAt "a" 37) none))]

theorem read_printing :
    (Session.read "for (var a = \"x\"; a; a = nil) print a;").2 = .ok printing := by
  with_unfolding_all rfl

/-- Its step is moved, one scope further inside. -/
def printingMoved : List Stmt :=
  [.forLoop (some (.varDecl (Session.nameAt "a" 10) (some (.literal (.string "x")))))
    (.variable (Session.nameAt "a" 19) none) none
    (.block [.print (.variable (Session.nameAt "a" 37) none),
      .expression (.assign (Session.nameAt "a" 22) (.literal .nil) none)])]

/-- A loop that prints once does so with its step moved, too. -/
theorem for_is_while_printing :
    Accepted printing ∧ Moving.program [0, 0] printing = printingMoved ∧ Accepted printingMoved ∧
    (∀ moves, ∃ moves', moves ≤ moves' ∧
      MovedEnding (State.interpret moves (Resolve.program printing).1 (.initial none 0))
        (State.interpret moves' (Resolve.program printingMoved).1 (.initial none 0))) ∧
    ∀ moves', ∃ moves,
      MovedEnding (State.interpret moves (Resolve.program printing).1 (.initial none 0))
        (State.interpret moves' (Resolve.program printingMoved).1 (.initial none 0)) := by
  have haccepted : Accepted printing := rfl
  have hmoved : Moving.program [0, 0] printing = printingMoved := rfl
  obtain ⟨h, -⟩ := for_is_while (.first none 0) read_printing haccepted [0] rfl
  obtain ⟨-, hend⟩ := h rfl
  exact ⟨haccepted, hmoved, hmoved ▸ hend⟩

end Lox
