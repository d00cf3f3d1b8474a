/-
# From a source text to its tokens

Each segment of a text is placed by the text before it.  The token segments
become tokens, the blanks are dropped, and every stray character and every
unclosed string becomes an error; a text with an error has no tokens.  The
last token is the end of the text.
-/
import Lox.Segment
import Lox.Diagnostic

namespace Lox

/-- Why a stretch of text is no token. -/
inductive ScanFault where
  | stray (c : Char)
  | unclosedString
deriving DecidableEq, Repr

/-- The wording of a scanning fault. -/
def ScanFault.message : ScanFault → String
  | .stray c => "Unexpected character '" ++ c.toString ++ "'."
  | .unclosedString => "Unterminated string."

/-- A scanning fault and where its segment begins. -/
structure ScanError where
  fault : ScanFault
  position : Position
deriving DecidableEq, Repr

/-- The message as it is shown. -/
def ScanError.text (e : ScanError) : String :=
  Diagnostic.placed .scan e.position e.fault.message

namespace Segment

/-- The segments of a text from the place `p` on, each with its place. -/
def place (p : Position) : List Segment → List (Position × Segment)
  | [] => []
  | s :: rest => (p, s) :: place (p.after s.text) rest

/-- What a token's segment contributes as its lexeme: a string's content, and
all of any other token. -/
def lexeme (kind : TokenKind) (text : List Char) : String :=
  String.ofList (if kind = .string then text.tail.dropLast else text)

/-- The token of a segment, if it is one. -/
def token? : Position × Segment → Option Token
  | (p, ⟨.token kind, text⟩) => some ⟨kind, lexeme kind text, p⟩
  | _ => none

/-- The fault of a segment, if it is one. -/
def error? : Position × Segment → Option ScanError
  | (p, ⟨.stray, c :: _⟩) => some ⟨.stray c, p⟩
  | (p, ⟨.unclosed, _⟩) => some ⟨.unclosedString, p⟩
  | _ => none

end Segment

namespace Token

/-- The token that ends a text. -/
def endOf (cs : List Char) : Token := ⟨.eof, "", Position.start.after cs⟩

/-- The tokens of a source text, or all its scanning errors in order. -/
def scan (source : String) : Except (List ScanError) (List Token) :=
  let cs := source.toList
  let placed := Segment.place .start (Segment.ofChars cs)
  match placed.filterMap Segment.error? with
  | [] => .ok (placed.filterMap Segment.token? ++ [endOf cs])
  | errors => .error errors

end Token

end Lox
