/-
# Values as text

`Store.pieces` writes a value as the pieces that are sent to the output one
after the other; `Store.display` joins them.  An array that is reached again
from inside itself is written `[...]`; an array that merely occurs twice is
written in full each time.

`Store.describe` writes what a value is rather than what it holds.
-/
import Lox.Store

namespace Lox

/-! ## Display -/

/-- How a function shows its name. -/
def Closure.pieces (f : Closure) : List String :=
  match f.declaration.lexeme? with
  | some name => ["<fn ", name, ">"]
  | none => ["<fn>"]

def Class.pieces (c : Class) : List String := ["<class ", c.name.lexeme, ">"]

def Callable.pieces : Callable → List String
  | function f => f.pieces
  | .class c => c.pieces
  | native n => ["<native fn ", n.name, ">"]

/-- What a call of `c` is reported as. -/
def Callable.display (c : Callable) : String := String.join c.pieces

/-- Puts a separator between runs of pieces. -/
def separated (separator : String) : List (List String) → List String
  | [] => []
  | [ps] => ps
  | ps :: rest => ps ++ separator :: separated separator rest

namespace Store

/-- The pieces of a value, inside the arrays of `path`, when at most `depth`
more arrays can be entered. -/
def piecesWithin (s : Store) (depth : Nat) (path : List ArrayId) : Value → List String
  | .nil => ["nil"]
  | .boolean b => [if b then "true" else "false"]
  | .number x => [Number.text x]
  | .string t => [t]
  | .callable c => c.pieces
  | .instance i => ["<", i.ofClass.name.lexeme, " instance>"]
  | .module m => ["<module ", m.name, ">"]
  | .array a =>
    match depth with
    | 0 => ["[...]"]
    | depth + 1 =>
      if a ∈ path then ["[...]"]
      else "[" :: separated ", "
        ((s.elements a).toList.map (s.piecesWithin depth (a :: path))) ++ ["]"]

/-- The pieces of a value.  On no path are there more arrays than the store
keeps, and one more attempt finds the array that closes a circle. -/
def pieces (s : Store) (v : Value) : List String :=
  s.piecesWithin (s.arrays.size + 1) [] v

/-- The text of a value. -/
def display (s : Store) (v : Value) : String := String.join (s.pieces v)

end Store

/-! ## Description -/

/-- A character inside quotes. -/
def quotedChar (c : Char) : String :=
  if c = '"' then "\\\""
  else if c = '\\' then "\\\\"
  else if c = '\n' then "\\n"
  else if c = '\r' then "\\r"
  else if c = '\t' then "\\t"
  else if c = '\x00' then "\\0"
  else if c.toNat < 32 ∨ c.toNat = 127 then
    "\\u\x7b" ++ String.ofList (Nat.toDigits 16 c.toNat) ++ "\x7d"
  else c.toString

/-- A text between quotes. -/
def quotedText (s : String) : String :=
  "\"" ++ String.join (s.toList.map quotedChar) ++ "\""

/-- Names between brackets. -/
def quotedList (names : List String) : String :=
  "[" ++ String.intercalate ", " (names.map quotedText) ++ "]"

/-- A name that may be missing. -/
def quotedOption : Option String → String
  | some name => "Some(" ++ quotedText name ++ ")"
  | none => "None"

/-- A record with its fields. -/
def record (name : String) (fields : List (String × String)) : String :=
  name ++ " \x7b " ++ String.intercalate ", " (fields.map fun (k, v) => k ++ ": " ++ v) ++ " \x7d"

def yesNo (b : Bool) : String := if b then "true" else "false"

/-- A function by its name, its arity and its use. -/
def Closure.describe (f : Closure) : String :=
  record "LoxFunction" [("name", quotedOption f.declaration.lexeme?),
    ("arity", toString f.declaration.arity), ("is_initializer", yesNo f.isInitializer)]

/-- A class by its name, its superclass and its own methods. -/
def Class.describe (c : Class) : String :=
  record "Class" [("name", quotedText c.name.lexeme),
    ("superclass", quotedOption (c.superclass.map (·.name.lexeme))),
    ("methods", quotedList c.methods.names)]

def Callable.describe : Callable → String
  | function f => "Function(" ++ f.describe ++ ")"
  | .class c => "Class(" ++ c.describe ++ ")"
  | native n => "Native(NativeFunction(" ++ n.name ++ "))"

namespace Store

/-- An environment by its names. -/
def describeEnvironment (s : Store) (e : EnvironmentId) : String :=
  record "Environment" [("names", quotedList (s.environment e).bindings.names),
    ("enclosed", yesNo (s.enclosing? e).isSome)]

/-- What a value is. -/
def describe (s : Store) : Value → String
  | .nil => "Nil"
  | .boolean b => "Boolean(" ++ yesNo b ++ ")"
  | .number x => "Number(" ++ Number.text x ++ ")"
  | .string t => "String(" ++ quotedText t ++ ")"
  | .callable c => "Callable(" ++ c.describe ++ ")"
  | .instance i => "Instance(" ++ record "Instance"
      [("class", quotedText i.ofClass.name.lexeme), ("fields", quotedList (s.fieldsOf i).names)]
      ++ ")"
  | .array a => "Array(Array(len = " ++ toString (s.length a) ++ "))"
  | .module m => "Module(" ++ record "Module"
      [("name", quotedText m.name), ("environment", s.describeEnvironment m.environment)] ++ ")"

end Store

end Lox
