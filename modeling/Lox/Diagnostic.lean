/-
# The wording shared by all diagnostics

Every message about a token reads `[line, column] Kind: message at 'lexeme'`,
or `… at end` where the token is the end of the text.  A scanning message has
a place but no token; a runtime message may have neither.
-/
import Lox.Token

namespace Lox

/-- The stage that raised a message. -/
inductive Stage where
  | scan
  | parse
  | resolve
  | runtime
deriving DecidableEq, Repr

namespace Stage

/-- The name under which a stage's messages appear. -/
def label : Stage → String
  | .scan => "ScanError"
  | .parse => "ParseError"
  | .resolve => "ResolveError"
  | .runtime => "RuntimeError"

end Stage

/-- The opening `[line, column] ` of a message with a place. -/
def Position.tag (p : Position) : String :=
  "[" ++ toString p.line ++ ", " ++ toString p.column ++ "] "

namespace Diagnostic

/-- A message without a place. -/
def plain (stage : Stage) (message : String) : String :=
  stage.label ++ ": " ++ message

/-- A message about a place in the text. -/
def placed (stage : Stage) (p : Position) (message : String) : String :=
  p.tag ++ plain stage message

/-- How a message names its token. -/
def site (token : Token) : String :=
  if token.kind = .eof then " at end" else " at '" ++ token.lexeme ++ "'"

/-- A message about a token. -/
def located (stage : Stage) (token : Token) (message : String) : String :=
  placed stage token.position message ++ site token

/-- A message about a token, if there is one. -/
def text (stage : Stage) (token : Option Token) (message : String) : String :=
  match token with
  | some t => located stage t message
  | none => plain stage message

end Diagnostic

end Lox
