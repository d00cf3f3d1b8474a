/-
# The program

Hands arguments, files and lines to `Lox.CommandLine` and writes what comes
back.  A machine is run a number of moves at a time, so that what a script
prints appears while it runs.
-/
import Lox.CommandLine
import Std.Time

namespace Lox

open CommandLine

/-- What the clock of the system says, in seconds since the epoch. -/
def readClock : IO ClockReading := do
  let nanoseconds := (← Std.Time.Timestamp.now).toNanosecondsSinceUnixEpoch.val
  return if nanoseconds < 0 then .wrong "second time provided was later than self"
    else .seconds (Float.ofInt nanoseconds / 1000000000)

/-- Reads a file. -/
def readBytes (path : String) : IO (Except ReadFault ByteArray) := do
  try
    return .ok (← IO.FS.readBinFile path)
  catch
    | .noFileOrDirectory .. => return .error .missing
    | .inappropriateType _ code _ =>
      return .error (if -code = 20 then .notADirectory else .directory)
    | e@(.invalidArgument _ code _) =>
      return .error (if -code = 36 then .nameTooLong else .other (toString e))
    | e => return .error (.other (toString e))

/-- Writes what a session has written since the last time. -/
def flushWritten (s : State) : IO State := do
  let (text, s) := s.takeWritten
  if text.isEmpty then return s
  let out ← IO.getStdout
  out.putStr text
  out.flush
  return s

/-- Runs a machine until it halts, writing what it prints.  The clock is read once in a
while. -/
partial def drive (m : Machine) : IO Machine := do
  let now ← readClock
  let m := Machine.run 1000 { m with state := { m.state with clock := fun _ => now } }
  let m := { m with state := ← flushWritten m.state }
  if m.hasHalted then return m else drive m

/-- Runs a text, and reports how it ended. -/
def runOnline (source : String) (s : State) : IO (Verdict × State) := do
  let (v, s) ← match Session.start source s with
    | .ok m => Session.conclude <$> drive m
    | .error (f, s) => pure (.failure f, s)
  IO.eprint (report v)
  return (v, s)

/-- Writes a transcript. -/
def write (t : Transcript) : IO UInt32 := do
  IO.print t.stdout
  IO.eprint t.stderr
  return t.exitCode.toUInt32

/-- Reads the bytes of a line with its newline, `read` of them having been
read. -/
partial def readLine (read : ByteArray) : IO ByteArray := do
  let next ← (← IO.getStdin).read 1
  let read := read ++ next
  if next.isEmpty || next[0]? = some 10 then return read else readLine read

/-- Reads and runs lines. -/
partial def converseOnline (text : String) (s : State) : IO UInt32 := do
  let s ← flushWritten (showPrompt text s)
  match decode (← readLine .empty) with
  | .error f => write ⟨unreadableCode, "", f.message ++ "\n"⟩
  | .ok line =>
    let source := trimmedEnd line
    if source.isEmpty then return 0
    let (_, s) ← runOnline source s
    converseOnline text s

end Lox

open Lox CommandLine in
/-- Answers the arguments. -/
def main (arguments : List String) : IO UInt32 := do
  let now ← readClock
  match request arguments with
  | .prompt text => converseOnline text (.initial none now)
  | .script path =>
    match (← readBytes path).bind decode with
    | .ok source =>
      let (v, _) ← runOnline source (.initial none now)
      return (exitCode v).toUInt32
    | .error f => write ⟨unreadableCode, "", unreadable path f⟩
  | _ => write (run arguments [] .empty now)
