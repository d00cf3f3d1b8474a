/-
# Sessions

A session runs source texts one after the other in one state: each is scanned,
parsed, resolved and interpreted, and the first stage that finds an error ends
it.  What a text defined is there for the next one, also if it failed half way.
-/
import Lox.Scan
import Lox.Syntax.Parser
import Lox.Scope.Resolve
import Lox.Interpreter

namespace Lox

/-- Why a text did not run to its end.  The first three carry every error of
the text, none of which ran. -/
inductive Failure where
  | scan (errors : List ScanError)
  | parse (errors : List SyntaxError)
  | resolve (errors : List ScopeError)
  | runtime (error : RuntimeError)

namespace Failure

/-- The exit code of a program that failed. -/
def exitCode : Failure → Nat
  | scan _ | parse _ | resolve _ => 65
  | runtime _ => 70

/-- The messages, one for each error. -/
def messages : Failure → List String
  | scan es => es.map ScanError.text
  | parse es => es.map SyntaxError.text
  | resolve es => es.map ScopeError.text
  | runtime e => [e.text]

/-- The messages, one on each line. -/
def text (f : Failure) : String := String.intercalate "\n" f.messages

end Failure

/-- How the run of a text ended. -/
inductive Verdict where
  | success
  | failure (f : Failure)
  | unfinished

namespace Session

/-- The program that a text writes, its names not resolved, with the events on
the way. -/
def read (source : String) : List Event × Except Failure (List Stmt) :=
  match Token.scan source with
  | .error es => ([], .error (.scan es))
  | .ok tokens =>
    match parse tokens with
    | .error es => ([.scanned tokens.length], .error (.parse es))
    | .ok program => ([.scanned tokens.length, .parsed program.length], .ok program)

/-- A program with its names resolved, with the events on the way. -/
def settle (program : List Stmt) : List Event × Except Failure (List Stmt) :=
  let (resolved, found) := Resolve.program program
  ([.resolved found.references found.errors.length],
    match found.errors with
    | [] => .ok resolved
    | errors => .error (.resolve errors))

/-- The program that a text writes, its names resolved, with the events on the
way. -/
def prepare (source : String) : List Event × Except Failure (List Stmt) :=
  match read source with
  | (events, .error f) => (events, .error f)
  | (events, .ok program) =>
    let (more, r) := settle program
    (events ++ more, r)

/-- The machine that is about to run a text, or why the text cannot run. -/
def start (source : String) (s : State) : Except (Failure × State) Machine :=
  let (events, r) := prepare source
  let s := events.foldl State.note s
  match r with
  | .ok program => .ok (s.starting program)
  | .error f => .error (f, s)

/-- How the text of a machine ended, and the state that it left. -/
def conclude (m : Machine) : Verdict × State :=
  match State.concluded m with
  | (.success, s) => (.success, s)
  | (.error e, s) => (.failure (.runtime e), s)
  | (.unfinished, s) => (.unfinished, s)

/-- Runs a text in a state, with at most so many moves. -/
def run (moves : Nat) (source : String) (s : State) : Verdict × State :=
  match start source s with
  | .ok m => conclude (Machine.run moves m)
  | .error (f, s) => (.failure f, s)

end Session

end Lox
