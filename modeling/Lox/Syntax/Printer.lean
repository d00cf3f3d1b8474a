/-
# Expressions as parenthesised text

`Expr.text` writes an expression in prefix form, such as `(* (- 123) (group
45.67))`.  The body of a function and the places of tokens are not written.
-/
import Lox.Syntax
import Lox.Number.Text

namespace Lox

/-- The text of a literal; the content of a string is written as it is. -/
def Literal.text : Literal → String
  | .nil => "nil"
  | .boolean b => if b then "true" else "false"
  | .number x => Number.text x
  | .string s => "\"" ++ s ++ "\""

/-- A head and its operands between parentheses. -/
def parenthesized (head : String) (operands : List String) : String :=
  "(" ++ head ++ String.join (operands.map (" " ++ ·)) ++ ")"

mutual

/-- The text of an expression. -/
def Expr.text : Expr → String
  | .literal v => v.text
  | .grouping e => parenthesized "group" [e.text]
  | .unary op e => parenthesized op.lexeme [e.text]
  | .binary l op r => parenthesized op.lexeme [l.text, r.text]
  | .logical l op r => parenthesized op.lexeme [l.text, r.text]
  | .variable name _ => name.lexeme
  | .assign name v _ => parenthesized "assign" [name.lexeme, v.text]
  | .call callee _ arguments => parenthesized "call" (callee.text :: Expr.texts arguments)
  | .get object name => parenthesized "." [object.text, name.lexeme]
  | .set object name v => parenthesized "set" [object.text, name.lexeme, v.text]
  | .receiver _ _ => "this"
  | .superMethod _ method _ => parenthesized "super" [method.lexeme]
  | .function d => parenthesized "fun" d.lexeme?.toList
  | .array _ none elements => parenthesized "list" (Expr.texts elements)
  | .array _ (some size) elements =>
    parenthesized "array" [size.text, parenthesized "list" (Expr.texts elements)]
  | .index object _ i => parenthesized "[]" [object.text, i.text]
  | .setIndex object _ i v => parenthesized "[]=" [object.text, i.text, v.text]

/-- The texts of several expressions. -/
def Expr.texts : List Expr → List String
  | [] => []
  | e :: es => e.text :: Expr.texts es

end

end Lox
