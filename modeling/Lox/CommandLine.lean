/-
# The command line

The arguments ask for a script to be run, for a prompt, for help or for the
version, or they are wrong.  `CommandLine.run` answers them without touching
the world: files stand in a folder, the standard input is a run of bytes, and
the answer is an exit code with the texts that were written.

A prompt reads one line at a time, runs it, and ends at an empty line, at the
end of the input or at a line that is not text.
-/
import Lox.Folder
import Lox.Session

namespace Lox.CommandLine

/-! ## Arguments -/

/-- What the arguments ask for. -/
inductive Request where
  | script (path : String)
  | prompt (text : String)
  | help
  | version
  | misuse
deriving DecidableEq, Repr

/-- What is known after some of the arguments: the script, the text of the
prompt and how often it was given. -/
structure Given where
  script : Option String
  prompt : Option String
  prompts : Nat

/-- The prompt that is shown unless another is given. -/
def defaultPrompt : String := "> "

/-- What is asked for when there are no more arguments.  The prompt may be
given only once. -/
def Given.request (g : Given) : Request :=
  if 1 < g.prompts then .misuse
  else match g.script with
    | some path => .script path
    | none => .prompt (g.prompt.getD defaultPrompt)

/-- The name of a long option and the value written behind an equals sign. -/
def splitOption (argument : String) : String × Option String :=
  let cs := argument.toList.dropWhile (· = '-')
  match cs.span (· ≠ '=') with
  | (name, []) => (String.ofList name, none)
  | (name, _ :: value) => (String.ofList name, some (String.ofList (value.dropWhile (· = '='))))

/-- What a word of short options asks for: its first letter decides. -/
def shortOption (argument : String) : Request :=
  match argument.toList.drop 1 with
  | 'h' :: _ => .help
  | 'V' :: _ => .version
  | _ => .misuse

/-- Adds a script; there can be only one. -/
def Given.withScript? (g : Given) (path : String) : Option Given :=
  match g.script with
  | none => some { g with script := some path }
  | some _ => none

/-- What the arguments after `--` ask for: they are no options. -/
def plainRequest (g : Given) : List String → Request
  | [] => g.request
  | a :: as =>
    match g.withScript? a with
    | some g => plainRequest g as
    | none => .misuse

/-- What further arguments ask for; `awaiting` says that the text of the prompt
may come next. -/
def requestFrom (g : Given) (awaiting : Bool) : List String → Request
  | [] => g.request
  | a :: as =>
    if a = "--" then plainRequest g as
    else if "--".isPrefixOf a then
      match splitOption a with
      | ("prompt", value) =>
        requestFrom { g with prompt := value.or g.prompt, prompts := g.prompts + 1 }
          value.isNone as
      | ("help", _) => .help
      | ("version", _) => .version
      | _ => .misuse
    else if "-".isPrefixOf a ∧ a ≠ "-" then shortOption a
    else if awaiting then requestFrom { g with prompt := some a } false as
    else match g.withScript? a with
      | some g => requestFrom g false as
      | none => .misuse

/-- What the arguments ask for. -/
def request (arguments : List String) : Request := requestFrom ⟨none, none, 0⟩ false arguments

/-! ## Texts and codes -/

def versionText : String := "loxe 0.1.0\n"

def helpText : String :=
  "loxe 0.1.0\n" ++
  "Tree-walking interpreter for the loxe scripting language\n" ++
  "\n" ++
  "USAGE:\n" ++
  "    loxe [OPTIONS] [script]\n" ++
  "\n" ++
  "FLAGS:\n" ++
  "    -h, --help       Prints help information\n" ++
  "    -V, --version    Prints version information\n" ++
  "\n" ++
  "OPTIONS:\n" ++
  "        --prompt <TEXT>    Prompt shown by the interactive loop [default: > ]\n" ++
  "\n" ++
  "ARGS:\n" ++
  "    <script>    Script to run; starts an interactive prompt when omitted\n"

/-- The exit code for arguments that ask for nothing. -/
def misuseCode : Nat := 64

/-- The exit code when a file or the input cannot be read. -/
def unreadableCode : Nat := 74

/-- The line that reports a file that cannot be read. -/
def unreadable (path : String) (f : ReadFault) : String :=
  "Could not read '" ++ path ++ "': " ++ f.message ++ "\n"

/-! ## Running -/

/-- More moves than any machine will ever make. -/
def manyMoves : Nat := Nat.pow 2 62

/-- What was written, and the exit code. -/
structure Transcript where
  exitCode : Nat
  stdout : String
  stderr : String
deriving DecidableEq, Repr

/-- The text of a file's bytes. -/
def decode (bytes : ByteArray) : Except ReadFault String :=
  match String.fromUTF8? bytes with
  | some text => .ok text
  | none => .error .notText

/-- The line that reports a failure. -/
def report : Verdict → String
  | .failure f => f.text ++ "\n"
  | _ => ""

/-- The exit code of a script. -/
def exitCode : Verdict → Nat
  | .failure f => f.exitCode
  | _ => 0

/-- Runs a script. -/
def runScript (source : String) (s : State) : Transcript :=
  let (v, s) := Session.run manyMoves source s
  ⟨exitCode v, s.output.written, report v⟩

/-- Characters that are dropped at the end of a line: Unicode's white space. -/
def isBlank (c : Char) : Bool :=
  let n := c.toNat
  (9 ≤ n && n ≤ 13) || (0x2000 ≤ n && n ≤ 0x200A) ||
  n ∈ [0x20, 0x85, 0xA0, 0x1680, 0x2028, 0x2029, 0x202F, 0x205F, 0x3000]

/-- A line without the blanks at its end. -/
def trimmedEnd (line : String) : String :=
  String.ofList (line.toList.reverse.dropWhile isBlank).reverse

/-- Shows a prompt. -/
def showPrompt (text : String) (s : State) : State :=
  { s with output := { s.output with written := s.output.written ++ text } }

/-- Answers a line: what is reported, and the state after it.  An empty line
ends the session. -/
def answer? (line : String) (s : State) : Option (String × State) :=
  let source := trimmedEnd line
  if source.isEmpty then none
  else
    let (v, s) := Session.run manyMoves source s
    some (report v, s)

/-- Cuts bytes into lines, each with its newline. -/
def lines : List UInt8 → List (List UInt8)
  | [] => []
  | b :: bs =>
    if b = 10 then [b] :: lines bs
    else match lines bs with
      | line :: rest => (b :: line) :: rest
      | [] => [[b]]

/-- Answers one line after the other, `reported` being what was reported so
far. -/
def converse (text : String) (reported : String) (s : State) :
    List (List UInt8) → Transcript
  | [] => ⟨0, (showPrompt text s).output.written, reported⟩
  | line :: rest =>
    let s := showPrompt text s
    match decode ⟨line.toArray⟩ with
    | .error f => ⟨unreadableCode, s.output.written, reported ++ f.message ++ "\n"⟩
    | .ok line =>
      match answer? line s with
      | none => ⟨0, s.output.written, reported⟩
      | some (report, s) => converse text (reported ++ report) s rest

/-- Answers the arguments.  The texts that go with misuse are left open. -/
def run (arguments : List String) (folder : Folder) (stdin : ByteArray) (now : ClockReading) :
    Transcript :=
  match request arguments with
  | .help => ⟨0, helpText, ""⟩
  | .version => ⟨0, versionText, ""⟩
  | .misuse => ⟨misuseCode, "", ""⟩
  | .prompt text => converse text "" (.initial none now) (lines stdin.toList)
  | .script path =>
    match (folder.read path).bind decode with
    | .error f => ⟨unreadableCode, "", unreadable path f⟩
    | .ok source => runScript source (.initial none now)

end Lox.CommandLine
