/-
# The state of a running program

Beside the store, a running program has a number of active calls, an output, a
record of what it did, and a clock.

The output is written piece by piece to a writer, which takes a piece or fails
at it; so a pipe fails once its reader has gone away.  The writer and the clock
belong to the world: they may answer in any way, and differently each time.  So
that a program runs the same way whenever it is given the same answers, their
answers are functions of how often they were asked before.
-/
import Lox.Display

namespace Lox

/-- What a program does that can be watched, beside its output. -/
inductive Event where
  | scanned (tokens : Nat)
  | parsed (statements : Nat)
  | resolved (references errors : Nat)
  | moduleMade (name : String)
  | classDefined (c : Class)
  | called (c : Callable) (arguments : Nat)
  | escapedTopLevel (what : String)

/-- The level and the wording of an event. -/
def Event.text : Event → String
  | scanned n => "DEBUG scanned " ++ toString n ++ " token(s)"
  | parsed n => "DEBUG parsed " ++ toString n ++ " statement(s)"
  | resolved n m =>
    "DEBUG resolved " ++ toString n ++ " reference(s), " ++ toString m ++ " error(s)"
  | moduleMade name => "DEBUG materialized module '" ++ name ++ "'"
  | classDefined c => "DEBUG defined " ++ c.describe
  | called c n => "TRACE call " ++ c.display ++ " with " ++ toString n ++ " argument(s)"
  | escapedTopLevel what => "ERROR " ++ what ++ " at the top level"

/-! ## Output -/

/-- How a writer fails at a piece: how many characters of it were still taken, and why no
more were. -/
structure Refusal where
  taken : Nat
  reason : String

/-- How a writer answers a piece, after so many that it was offered and so many newlines
that it took: with nothing if it takes the piece, else with how it fails. -/
abbrev Writer := (offered newlines : Nat) → (piece : String) → Option Refusal

/-- The writer that takes nothing after so many newlines. -/
def Writer.closing (limit : Option Nat) : Writer := fun _ newlines _ =>
  if limit.any (· ≤ newlines) then some ⟨0, "output closed"⟩ else none

/-- Where a program prints to. -/
structure Output where
  written : String
  offered : Nat
  newlines : Nat
  writer : Writer

namespace Output

/-- Adds to what is written. -/
def add (o : Output) (text : String) : Output :=
  { o with written := o.written ++ text, newlines := o.newlines + text.toList.count '\n' }

/-- Offers one piece to the writer, and says why it failed if it did.  An empty piece is
not offered. -/
def write (o : Output) (piece : String) : Output × Option String :=
  if piece.isEmpty then (o, none)
  else
    let next := { o with offered := o.offered + 1 }
    match o.writer o.offered o.newlines piece with
    | none => (next.add piece, none)
    | some r => (next.add (String.ofList (piece.toList.take r.taken)), some r.reason)

/-- Writes pieces one after the other, as far as the writer takes them, and says why it
failed if it did. -/
def writeAll (o : Output) : List String → Output × Option String
  | [] => (o, none)
  | p :: ps =>
    match o.write p with
    | (o', none) => o'.writeAll ps
    | (o', some reason) => (o', some reason)

end Output

/-! ## State -/

/-- What a machine changes as it runs.  The clock has gone on by so many ticks, one for each
native function that was called. -/
structure State where
  store : Store
  callDepth : Nat
  output : Output
  events : List Event
  clock : Nat → ClockReading
  ticks : Nat

namespace State

/-- The environment that is around all others. -/
def globals : EnvironmentId := 0

/-- Notes an event; the latest stands first. -/
def note (s : State) (e : Event) : State := { s with events := e :: s.events }

/-- What the clock says now. -/
def now (s : State) : ClockReading := s.clock s.ticks

/-- Lets the clock go on. -/
def tick (s : State) : State := { s with ticks := s.ticks + 1 }

end State

end Lox
