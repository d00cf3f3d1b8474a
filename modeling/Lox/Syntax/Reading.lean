/-
# What reading a construct yields

`Reading α n` is the outcome of reading a construct from the front of a token
list of length `n`: either the construct and a rest shorter than `n`, or the
error that stopped the reader and where it stopped.  Both carry the errors
noted on the way, in statements that were skipped inside a block.  Because the
rest is always shorter, a grammar whose productions call each other on rests
needs no other reason to end.
-/
import Lox.Syntax
import Lox.Diagnostic

namespace Lox

/-- Why a token list is no program. -/
inductive SyntaxFault where
  | expected (what : String)
  | tooMany (what : String)
  | invalidTarget
  | invalidNumber
deriving DecidableEq, Repr

/-- How many parameters a function, and arguments a call, may have. -/
def maxArguments : Nat := 255

/-- The wording of a syntax fault. -/
def SyntaxFault.message : SyntaxFault → String
  | .expected what => "Expect " ++ what ++ "."
  | .tooMany what => "Can't have more than " ++ toString maxArguments ++ " " ++ what ++ "."
  | .invalidTarget => "Invalid assignment target."
  | .invalidNumber => "Invalid number literal."

/-- A syntax fault and the token to blame. -/
structure SyntaxError where
  fault : SyntaxFault
  token : Token
deriving DecidableEq, Repr

/-- The message as it is shown. -/
def SyntaxError.text (e : SyntaxError) : String :=
  Diagnostic.located .parse e.token e.fault.message

/-- The outcome of reading a construct from a token list of length `n`. -/
inductive Reading (α : Type) (n : Nat) where
  | done (value : α) (rest : List Token) (noted : List SyntaxError)
      (shorter : rest.length < n)
  | stuck (error : SyntaxError) (rest : List Token) (noted : List SyntaxError)
      (bounded : rest.length ≤ n)

namespace Reading

variable {α β : Type} {m n : Nat}

/-- The construct is there, and nothing but `rest` is left. -/
@[inline] def here (value : α) (rest : List Token) : Reading α (rest.length + 1) :=
  done value rest [] (Nat.lt_succ_self _)

/-- Stops at the front of `ts`, blaming the token there, or `eof` if there is
none. -/
def stopAt (eof : Token) (fault : SyntaxFault) (ts : List Token) : Reading α ts.length :=
  stuck ⟨fault, ts.headD eof⟩ ts [] (Nat.le_refl _)

/-- Makes something else of the construct. -/
@[inline] def map (f : α → β) : Reading α n → Reading β n
  | done a rest noted h => done (f a) rest noted h
  | stuck e rest noted h => stuck e rest noted h

/-- The same outcome, seen from a longer list. -/
@[inline] def widen (le : m ≤ n) : Reading α m → Reading α n
  | done a rest noted h => done a rest noted (Nat.lt_of_lt_of_le h le)
  | stuck e rest noted h => stuck e rest noted (Nat.le_trans h le)

/-- The same outcome, seen from a list that has one token more in front. -/
@[inline] def loosen (r : Reading α n) : Reading α (n + 1) := r.widen (Nat.le_succ n)

/-- Puts errors noted earlier in front. -/
@[inline] def noting (earlier : List SyntaxError) : Reading α n → Reading α n
  | done a rest noted h => done a rest (earlier ++ noted) h
  | stuck e rest noted h => stuck e rest (earlier ++ noted) h

/-- Goes on with the construct and the rest, unless the reader is stuck.  What
follows may be nothing. -/
@[inline] def andPerhaps (r : Reading α n)
    (f : α → (rest : List Token) → rest.length < n → Reading β (rest.length + 1)) :
    Reading β n :=
  match r with
  | done a rest noted h => ((f a rest h).widen h).noting noted
  | stuck e rest noted h => stuck e rest noted h

/-- Goes on with the construct and the rest, unless the reader is stuck. -/
@[inline] def andThen (r : Reading α n)
    (f : α → (rest : List Token) → rest.length < n → Reading β rest.length) :
    Reading β n :=
  match r with
  | done a rest noted h => ((f a rest h).widen (Nat.le_of_lt h)).noting noted
  | stuck e rest noted h => stuck e rest noted h

end Reading

/-- Whether a token of the kind `kind` is next. -/
def nextIs (kind : TokenKind) : List Token → Bool
  | t :: _ => t.kind = kind
  | [] => false

/-- Reads one token of the kind `kind`, described as `what` when it is
missing. -/
def expect (eof : Token) (kind : TokenKind) (what : String) (ts : List Token) :
    Reading Token ts.length :=
  match ts with
  | t :: rest =>
    if t.kind = kind then .here t rest
    else .stopAt eof (.expected what) (t :: rest)
  | [] => .stopAt eof (.expected what) []

/-! ## Recovery -/

/-- The words that begin a statement, before which a skip may end. -/
def beginsStatement : List TokenKind :=
  [.kwClass, .kwFun, .kwVar, .kwLet, .kwModule, .kwFor, .kwIf, .kwWhile, .kwPrint,
   .kwReturn, .kwBreak, .kwContinue]

/-- What is left after the skipped token `last` and the further tokens that
have to be skipped: all up to a semicolon, which is skipped too, or to a word
that begins a statement. -/
def skipAfter (last : Token) : List Token → List Token
  | [] => []
  | t :: ts =>
    if last.kind = .semicolon then t :: ts
    else if t.kind ∈ beginsStatement then t :: ts
    else skipAfter t ts

/-- What is left after a reader stopped before `ts`: one token is skipped
whatever it is. -/
def resume : List Token → List Token
  | [] => []
  | t :: ts => skipAfter t ts

theorem length_skipAfter (last : Token) (ts : List Token) :
    (skipAfter last ts).length ≤ ts.length := by
  induction ts generalizing last with
  | nil => simp [skipAfter]
  | cons t ts ih =>
    unfold skipAfter
    repeat' split
    · exact Nat.le_refl _
    · exact Nat.le_refl _
    · exact Nat.le_succ_of_le (ih t)

theorem length_resume_lt {n : Nat} (pos : 0 < n) {ts : List Token} (h : ts.length ≤ n) :
    (resume ts).length < n := by
  cases ts with
  | nil => exact pos
  | cons t ts => exact Nat.lt_of_le_of_lt (length_skipAfter t ts) h

/-- A statement that was read, or the lack of one that was skipped, with the
errors noted and what is left of a list of length `n`. -/
structure Recovered (n : Nat) where
  statement : Option Stmt
  noted : List SyntaxError
  rest : List Token
  shorter : rest.length < n

/-- Skips what a stuck reader could not read. -/
def Reading.recover {n : Nat} (pos : 0 < n) : Reading Stmt n → Recovered n
  | .done s rest noted h => ⟨some s, noted, rest, h⟩
  | .stuck e rest noted h =>
    ⟨none, noted ++ [e], resume rest, length_resume_lt pos h⟩

/-- A run of statements, with the errors noted and what is left of a list of
length `n`. -/
structure Statements (n : Nat) where
  body : List Stmt
  noted : List SyntaxError
  rest : List Token
  bounded : rest.length ≤ n

end Lox
