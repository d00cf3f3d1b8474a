/-
# Tokens and their places in a source text

A token is a kind, the text it was written with and the place of its first
character.  `Position.advance` is the only rule about places: a newline opens
the next line, every other character moves one column to the right.  Kinds
that no source text produces (`implicit`) belong to tokens the interpreter
makes for its own messages.
-/

namespace Lox

/-- The kinds of token: punctuation, operators of one or two characters,
literals, the reserved words, the end of the text, and `implicit`. -/
inductive TokenKind where
  | leftParen | rightParen | leftBrace | rightBrace | leftBracket | rightBracket
  | colon | comma | dot | minus | plus | semicolon | slash | star
  | bang | bangEqual
  | equal | equalEqual
  | greater | greaterEqual
  | less | lessEqual
  | identifier | string | number
  | kwAnd | kwBreak | kwClass | kwContinue | kwElse | kwFalse | kwFun | kwFor | kwIf
  | kwLet | kwModule | kwNil | kwOr | kwPrint | kwReturn | kwSuper | kwThis | kwTrue
  | kwVar | kwWhile
  | eof
  | implicit
deriving DecidableEq, Repr, Inhabited

/-- The reserved words, each with its kind. -/
def reservedWords : List (String × TokenKind) :=
  [("and", .kwAnd), ("break", .kwBreak), ("class", .kwClass), ("continue", .kwContinue),
   ("else", .kwElse), ("false", .kwFalse), ("for", .kwFor), ("fun", .kwFun), ("if", .kwIf),
   ("let", .kwLet), ("module", .kwModule), ("nil", .kwNil), ("or", .kwOr),
   ("print", .kwPrint), ("return", .kwReturn), ("super", .kwSuper), ("this", .kwThis),
   ("true", .kwTrue), ("var", .kwVar), ("while", .kwWhile)]

/-- The kind of a word: the reserved word's own, or `identifier`. -/
def TokenKind.ofWord (word : String) : TokenKind :=
  (reservedWords.lookup word).getD .identifier

/-- A place in a source text; lines and columns count from one. -/
structure Position where
  line : Nat
  column : Nat
deriving DecidableEq, Repr, Inhabited

namespace Position

/-- Where a text begins. -/
def start : Position := ⟨1, 1⟩

/-- The place just after the character `c`. -/
def advance (p : Position) (c : Char) : Position :=
  if c = '\n' then ⟨p.line + 1, 1⟩ else ⟨p.line, p.column + 1⟩

/-- The place just after a stretch of text. -/
def after (p : Position) (text : List Char) : Position :=
  text.foldl advance p

@[simp] theorem after_nil (p : Position) : p.after [] = p := rfl

@[simp] theorem after_cons (p : Position) (c : Char) (text : List Char) :
    p.after (c :: text) = (p.advance c).after text := rfl

theorem after_append (p : Position) (s t : List Char) :
    p.after (s ++ t) = (p.after s).after t := by
  simp [after, List.foldl_append]

end Position

/-- A token of a source text.  The lexeme of a string is its content, without
the quotes. -/
structure Token where
  kind : TokenKind
  lexeme : String
  position : Position
deriving DecidableEq, Repr, Inhabited

namespace Token

/-- A token that no source text holds, placed where `site` is so that a
message about it still points somewhere. -/
def implicitAt (lexeme : String) (site : Token) : Token :=
  ⟨.implicit, lexeme, site.position⟩

end Token

end Lox
