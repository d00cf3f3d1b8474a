/-
# From tokens to a program

A reader for each construct of the language, by recursive descent with one
token of lookahead, and two where `fun` may begin a declaration or a lambda.
The binary operators share one reader, `climb`, which goes through the levels
of `Precedence` from loose to tight.  An error inside a block is noted and the
statement skipped, so that one bad statement does not hide the others; an error
outside of one stops the readers around it.  Calls that consume nothing go down
the ranks written beside the readers, so that the readers end.
-/
import Lox.Syntax.Reading
import Lox.Number.Text

namespace Lox

/-! ## Operators -/

/-- The levels of binary operators, from loose to tight. -/
inductive Precedence where
  | disjunction
  | conjunction
  | equality
  | comparison
  | sum
  | product
deriving DecidableEq, Repr

namespace Precedence

/-- The operators of a level. -/
def operators : Precedence → List TokenKind
  | disjunction => [.kwOr]
  | conjunction => [.kwAnd]
  | equality => [.bangEqual, .equalEqual]
  | comparison => [.greater, .greaterEqual, .less, .lessEqual]
  | sum => [.minus, .plus]
  | product => [.slash, .star]

/-- The next tighter level; the operands of a product are unary. -/
def tighter : Precedence → Option Precedence
  | disjunction => some conjunction
  | conjunction => some equality
  | equality => some comparison
  | comparison => some sum
  | sum => some product
  | product => none

/-- How many levels are tighter. -/
def height : Precedence → Nat
  | disjunction => 5
  | conjunction => 4
  | equality => 3
  | comparison => 2
  | sum => 1
  | product => 0

theorem height_le (p : Precedence) : p.height ≤ 5 := by
  cases p <;> decide

theorem height_tighter {p q : Precedence} (h : p.tighter = some q) : q.height < p.height := by
  cases p <;> simp [tighter] at h <;> subst h <;> decide

/-- The node of an operator of the level: `and` and `or` need not evaluate
their right operand. -/
def join (left : Expr) (operator : Token) (right : Expr) : Precedence → Expr
  | disjunction | conjunction => .logical left operator right
  | _ => .binary left operator right

end Precedence

/-- The assignment that an equals sign after `target` makes, if `target` can be
assigned to. -/
def Expr.assigned? (target value : Expr) : Option Expr :=
  match target with
  | .variable name _ => some (.assign name value none)
  | .get object name => some (.set object name value)
  | .index object bracket i => some (.setIndex object bracket i value)
  | _ => none

/-- The loop that a `for` stands for. -/
def Stmt.forLoop (initializer : Option Stmt) (condition : Expr) (step : Option Expr)
    (body : Stmt) : Stmt :=
  .block (initializer.toList ++ [.whileLoop condition body step])

namespace Parser

variable (eof : Token)

/-- Reads the parameters of a function, `count` of which have been read. -/
def parameters (count : Nat) (ts : List Token) : Reading (List Token) ts.length :=
  if maxArguments ≤ count then .stopAt eof (.tooMany "parameters") ts
  else (expect eof .identifier "parameter name" ts).andPerhaps fun name ts₁ h₁ =>
    match ts₁ with
    | t :: ts₂ =>
      if t.kind = .comma then
        have : ts₂.length < ts.length := Nat.lt_of_succ_lt h₁
        ((parameters (count + 1) ts₂).map (name :: ·)).loosen.loosen
      else .here [name] (t :: ts₂)
    | [] => .here [name] []
termination_by ts.length

mutual

/-- Reads an expression: an assignment, or what can stand on its left. -/
def expression (ts : List Token) : Reading Expr ts.length :=
  (climb .disjunction ts).andPerhaps fun target ts₁ h₁ =>
    match ts₁ with
    | t :: ts₂ =>
      if t.kind = .equal then
        have : ts₂.length < ts.length := Nat.lt_of_succ_lt h₁
        ((expression ts₂).andPerhaps fun value ts₃ _ =>
          match target.assigned? value with
          | some e => .here e ts₃
          | none => .stuck ⟨.invalidTarget, t⟩ ts₃ [] (Nat.le_succ _)).loosen.loosen
      else .here target (t :: ts₂)
    | [] => .here target []
termination_by 32 * ts.length + 15
decreasing_by all_goals grind [Precedence.height]

/-- Reads an operand of the level `p`. -/
def operand (p : Precedence) (ts : List Token) : Reading Expr ts.length :=
  match h : p.tighter with
  | some q => have := Precedence.height_tighter h; climb q ts
  | none => unary ts
termination_by 32 * ts.length + 2 * p.height + 3

/-- Reads operands of the level `p` joined by its operators. -/
def climb (p : Precedence) (ts : List Token) : Reading Expr ts.length :=
  (operand p ts).andPerhaps fun left ts₁ _ => climbOn p left ts₁
termination_by 32 * ts.length + 2 * p.height + 4

/-- Reads the operators of the level `p` that follow `left`, each with its
right operand; they join to the left. -/
def climbOn (p : Precedence) (left : Expr) (ts : List Token) : Reading Expr (ts.length + 1) :=
  match ts with
  | t :: ts₁ =>
    if t.kind ∈ p.operators then
      have := p.height_le
      ((operand p ts₁).andPerhaps fun right ts₂ _ =>
        climbOn p (p.join left t right) ts₂).loosen.loosen
    else .here left (t :: ts₁)
  | [] => .here left []
termination_by 32 * ts.length

/-- Reads an expression with its unary operators. -/
def unary (ts : List Token) : Reading Expr ts.length :=
  match ts with
  | t :: ts₁ =>
    if t.kind = .bang ∨ t.kind = .minus then ((unary ts₁).map (.unary t ·)).loosen
    else call (t :: ts₁)
  | [] => call []
termination_by 32 * ts.length + 2

/-- Reads an expression with its calls, property accesses and indexes. -/
def call (ts : List Token) : Reading Expr ts.length :=
  (primary ts).andPerhaps fun e ts₁ _ => callOn e ts₁
termination_by 32 * ts.length + 1

/-- Reads the calls, property accesses and indexes that follow `e`. -/
def callOn (e : Expr) (ts : List Token) : Reading Expr (ts.length + 1) :=
  match ts with
  | t :: ts₁ =>
    if t.kind = .leftParen then
      ((arguments ts₁).andPerhaps fun (values, paren) ts₂ _ =>
        callOn (.call e paren values) ts₂).loosen.loosen
    else if t.kind = .dot then
      ((expect eof .identifier "property name after '.'" ts₁).andPerhaps fun name ts₂ _ =>
        callOn (.get e name) ts₂).loosen.loosen
    else if t.kind = .leftBracket then
      ((expression ts₁).andThen fun i ts₂ _ =>
        (expect eof .rightBracket "']' after index" ts₂).andPerhaps fun _ ts₃ _ =>
          callOn (.index e t i) ts₃).loosen.loosen
    else .here e (t :: ts₁)
  | [] => .here e []
termination_by 32 * ts.length

/-- Reads the arguments of a call and the closing parenthesis. -/
def arguments (ts : List Token) : Reading (List Expr × Token) ts.length :=
  match ts with
  | t :: ts₁ =>
    if t.kind = .rightParen then .here ([], t) ts₁
    else (argumentList 0 (t :: ts₁)).andThen fun values ts₂ _ =>
      (expect eof .rightParen "')' after arguments" ts₂).map fun paren => (values, paren)
  | [] => .stopAt eof (.expected "expression") []
termination_by 32 * ts.length + 17

/-- Reads one argument or more, `count` of them having been read. -/
def argumentList (count : Nat) (ts : List Token) : Reading (List Expr) ts.length :=
  if maxArguments ≤ count then .stopAt eof (.tooMany "arguments") ts
  else (expression ts).andPerhaps fun value ts₁ h₁ =>
    match ts₁ with
    | t :: ts₂ =>
      if t.kind = .comma then
        have : ts₂.length < ts.length := Nat.lt_of_succ_lt h₁
        ((argumentList (count + 1) ts₂).map (value :: ·)).loosen.loosen
      else .here [value] (t :: ts₂)
    | [] => .here [value] []
termination_by 32 * ts.length + 16

/-- Reads a literal, a name, a parenthesised expression, a lambda or an array. -/
def primary (ts : List Token) : Reading Expr ts.length :=
  match ts with
  | [] => .stopAt eof (.expected "expression") []
  | t :: ts₁ =>
    match t.kind with
    | .kwFalse => .here (.literal (.boolean false)) ts₁
    | .kwTrue => .here (.literal (.boolean true)) ts₁
    | .kwNil => .here (.literal .nil) ts₁
    | .number =>
      match Number.ofText? t.lexeme with
      | some x => .here (.literal (.number x)) ts₁
      | none => .stuck ⟨.invalidNumber, t⟩ ts₁ [] (Nat.le_succ _)
    | .string => .here (.literal (.string t.lexeme)) ts₁
    | .identifier => .here (.variable t none) ts₁
    | .kwThis => .here (.receiver t none) ts₁
    | .kwSuper =>
      ((expect eof .dot "'.' after 'super'" ts₁).andThen fun _ ts₂ _ =>
        (expect eof .identifier "superclass method name" ts₂).map
          fun method => .superMethod t method none).loosen
    | .kwFun => ((lambda t ts₁).map .function).loosen
    | .leftBracket => (array t ts₁).loosen
    | .leftParen =>
      ((expression ts₁).andThen fun e ts₂ _ =>
        (expect eof .rightParen "')' after expression" ts₂).map fun _ => .grouping e).loosen
    | _ => .stopAt eof (.expected "expression") (t :: ts₁)
termination_by 32 * ts.length

/-- Reads a lambda after its keyword; it may have a name. -/
def lambda (keyword : Token) (ts : List Token) : Reading FunctionDecl ts.length :=
  match ts with
  | name :: ts₁ =>
    if name.kind = .identifier then (functionAfterName keyword (some name) ts₁).loosen
    else functionAfterName keyword none (name :: ts₁)
  | [] => functionAfterName keyword none []
termination_by 32 * ts.length + 1

/-- Reads an array after its opening bracket: a list of elements, or a size, a
colon and possibly elements. -/
def array (bracket : Token) (ts : List Token) : Reading Expr ts.length :=
  match ts with
  | t :: ts₁ =>
    if t.kind = .rightBracket then .here (.array bracket none []) ts₁
    else (expression (t :: ts₁)).andThen fun first ts₂ _ => arrayAfter bracket first ts₂
  | [] => .stopAt eof (.expected "expression") []
termination_by 32 * ts.length + 16
decreasing_by all_goals grind

/-- Reads what follows the first expression of an array, which is its size if a
colon comes next. -/
def arrayAfter (bracket : Token) (first : Expr) (ts : List Token) : Reading Expr ts.length :=
  if nextIs .colon ts then
    (expect eof .colon "':'" ts).andThen fun _ ts₁ _ =>
    (elements ts₁).map fun es => .array bracket (some first) es
  else (elementsAfter ts).map fun es => .array bracket none (first :: es)
termination_by 32 * ts.length + 1

/-- Reads elements, if there are any, and the closing bracket. -/
def elements (ts : List Token) : Reading (List Expr) ts.length :=
  match ts with
  | t :: ts₁ =>
    if t.kind = .rightBracket then .here [] ts₁
    else (expression (t :: ts₁)).andThen fun first ts₂ _ =>
      (elementsAfter ts₂).map (first :: ·)
  | [] => .stopAt eof (.expected "expression") []
termination_by 32 * ts.length + 16
decreasing_by all_goals grind

/-- Reads further elements, each after a comma, and the closing bracket. -/
def elementsAfter (ts : List Token) : Reading (List Expr) ts.length :=
  match ts with
  | t :: ts₁ =>
    if t.kind = .comma then
      ((expression ts₁).andThen fun e ts₂ _ => (elementsAfter ts₂).map (e :: ·)).loosen
    else if t.kind = .rightBracket then .here [] ts₁
    else .stopAt eof (.expected "']' after array elements") (t :: ts₁)
  | [] => .stopAt eof (.expected "']' after array elements") []
termination_by 32 * ts.length

/-- Reads the name of a function and what follows it. -/
def functionNamed (keyword : Token) (ts : List Token) : Reading FunctionDecl ts.length :=
  (expect eof .identifier "function name" ts).andThen fun name ts₁ _ =>
    functionAfterName keyword (some name) ts₁
termination_by 32 * ts.length

/-- Reads the parameters and the body of a function. -/
def functionAfterName (keyword : Token) (name : Option Token) (ts : List Token) :
    Reading FunctionDecl ts.length :=
  (expect eof .leftParen "'(' after function name" ts).andThen fun _ ts₁ _ =>
    if nextIs .rightParen ts₁ then functionBody keyword name [] ts₁
    else (parameters eof 0 ts₁).andThen fun params ts₂ _ =>
      functionBody keyword name params ts₂
termination_by 32 * ts.length

/-- Reads the body of a function, from the parenthesis that closes the
parameters on. -/
def functionBody (keyword : Token) (name : Option Token) (params ts : List Token) :
    Reading FunctionDecl ts.length :=
  (expect eof .rightParen "')' after parameters" ts).andThen fun _ ts₁ _ =>
  (expect eof .leftBrace "'\x7b' before function body" ts₁).andThen fun _ ts₂ _ =>
  (blockBody ts₂).map fun body => .mk keyword name params body
termination_by 32 * ts.length

/-- Reads statements up to the closing brace, and the brace. -/
def blockBody (ts : List Token) : Reading (List Stmt) ts.length :=
  let s := statements true ts
  (((expect eof .rightBrace "'\x7d' after block" s.rest).map fun _ => s.body).widen
    s.bounded).noting s.noted
termination_by 32 * ts.length + 20

/-- Reads statements to the end of the list, or, in a block, to a closing
brace. -/
def statements (inBlock : Bool) (ts : List Token) : Statements ts.length :=
  match ts with
  | [] => ⟨[], [], [], Nat.le_refl _⟩
  | t :: ts₁ =>
    if inBlock && t.kind = .rightBrace then ⟨[], [], t :: ts₁, Nat.le_refl _⟩
    else
      match (declaration (t :: ts₁)).recover (Nat.succ_pos _) with
      | ⟨st, noted, rest, shorter⟩ =>
        let s := statements inBlock rest
        ⟨st.toList ++ s.body, noted ++ s.noted, s.rest,
          Nat.le_trans s.bounded (Nat.le_of_lt shorter)⟩
termination_by 32 * ts.length + 19

/-- Reads a declaration or another statement. -/
def declaration (ts : List Token) : Reading Stmt ts.length :=
  match ts with
  | [] => statement []
  | t :: ts₁ =>
    match t.kind with
    | .kwVar => (varDeclaration ts₁).loosen
    | .kwLet => (letDeclaration ts₁).loosen
    | .kwClass => (classDeclaration ts₁).loosen
    | .kwModule => (moduleDeclaration ts₁).loosen
    | .kwFun =>
      if nextIs .identifier ts₁ then ((functionNamed t ts₁).map .functionDecl).loosen
      else statement (t :: ts₁)
    | _ => statement (t :: ts₁)
termination_by 32 * ts.length + 18

/-- Reads a `var` declaration after its keyword. -/
def varDeclaration (ts : List Token) : Reading Stmt ts.length :=
  (expect eof .identifier "variable name" ts).andThen fun name ts₁ _ =>
    if nextIs .equal ts₁ then
      (expect eof .equal "'='" ts₁).andThen fun _ ts₂ _ =>
      (expression ts₂).andThen fun value ts₃ _ =>
      (expect eof .semicolon "';' after variable declaration" ts₃).map
        fun _ => .varDecl name (some value)
    else
      (expect eof .semicolon "';' after variable declaration" ts₁).map
        fun _ => .varDecl name none
termination_by 32 * ts.length

/-- Reads a `let` declaration after its keyword. -/
def letDeclaration (ts : List Token) : Reading Stmt ts.length :=
  (expect eof .identifier "variable name" ts).andThen fun name ts₁ _ =>
  (expect eof .equal "'=' after 'let' binding name" ts₁).andThen fun _ ts₂ _ =>
  (expression ts₂).andThen fun value ts₃ _ =>
  (expect eof .semicolon "';' after variable declaration" ts₃).map
    fun _ => .letDecl name value
termination_by 32 * ts.length

/-- Reads a class after its keyword. -/
def classDeclaration (ts : List Token) : Reading Stmt ts.length :=
  (expect eof .identifier "class name" ts).andThen fun name ts₁ _ =>
    if nextIs .less ts₁ then
      (expect eof .less "'<'" ts₁).andThen fun _ ts₂ _ =>
      (call ts₂).andThen fun superclass ts₃ _ => classBody name (some superclass) ts₃
    else classBody name none ts₁
termination_by 32 * ts.length

/-- Reads the methods of a class between braces. -/
def classBody (name : Token) (superclass : Option Expr) (ts : List Token) :
    Reading Stmt ts.length :=
  (expect eof .leftBrace "'\x7b' before class body" ts).andThen fun _ ts₁ _ =>
  (methods ts₁).map fun ms => .classDecl name superclass ms
termination_by 32 * ts.length

/-- Reads methods and the closing brace. -/
def methods (ts : List Token) : Reading (List FunctionDecl) ts.length :=
  match ts with
  | t :: ts₁ =>
    if t.kind = .rightBrace then .here [] ts₁
    else (functionNamed t (t :: ts₁)).andThen fun m ts₂ _ => (methods ts₂).map (m :: ·)
  | [] => .stopAt eof (.expected "'\x7d' after class body") []
termination_by 32 * ts.length + 1
decreasing_by all_goals grind

/-- Reads a module after its keyword. -/
def moduleDeclaration (ts : List Token) : Reading Stmt ts.length :=
  (expect eof .identifier "module name" ts).andThen fun name ts₁ _ =>
  (expect eof .leftBrace "'\x7b' before module body" ts₁).andThen fun _ ts₂ _ =>
  (blockBody ts₂).map fun body => .moduleDecl name body
termination_by 32 * ts.length

/-- Reads a statement that is no declaration. -/
def statement (ts : List Token) : Reading Stmt ts.length :=
  match ts with
  | [] => expressionStatement []
  | t :: ts₁ =>
    match t.kind with
    | .kwIf => (ifStatement ts₁).loosen
    | .kwPrint =>
      ((expression ts₁).andThen fun e ts₂ _ =>
        (expect eof .semicolon "';' after value" ts₂).map fun _ => .print e).loosen
    | .leftBrace => ((blockBody ts₁).map .block).loosen
    | .kwWhile => (whileStatement ts₁).loosen
    | .kwFor => (forStatement ts₁).loosen
    | .kwReturn => (returnStatement t ts₁).loosen
    | .kwBreak =>
      ((expect eof .semicolon "';' after 'break'" ts₁).map fun _ => .breakLoop t).loosen
    | .kwContinue =>
      ((expect eof .semicolon "';' after 'continue'" ts₁).map fun _ => .continueLoop t).loosen
    | _ => expressionStatement (t :: ts₁)
termination_by 32 * ts.length + 17

/-- Reads an expression and its semicolon. -/
def expressionStatement (ts : List Token) : Reading Stmt ts.length :=
  (expression ts).andThen fun e ts₁ _ =>
  (expect eof .semicolon "';' after expression" ts₁).map fun _ => .expression e
termination_by 32 * ts.length + 16

/-- Reads a branch after `if`; an `else` belongs to the nearest `if`. -/
def ifStatement (ts : List Token) : Reading Stmt ts.length :=
  (expect eof .leftParen "'(' after 'if'" ts).andThen fun _ ts₁ _ =>
  (expression ts₁).andThen fun condition ts₂ _ =>
  (expect eof .rightParen "')' after if condition" ts₂).andThen fun _ ts₃ _ =>
  (statement ts₃).andPerhaps fun onTrue ts₄ _ =>
    (elseBranch ts₄).map fun onFalse => .branch condition onTrue onFalse
termination_by 32 * ts.length

/-- Reads the other side of a branch, if there is one. -/
def elseBranch (ts : List Token) : Reading (Option Stmt) (ts.length + 1) :=
  match ts with
  | t :: ts₁ =>
    if t.kind = .kwElse then ((statement ts₁).map some).loosen.loosen else .here none (t :: ts₁)
  | [] => .here none []
termination_by 32 * ts.length

/-- Reads a loop after `while`. -/
def whileStatement (ts : List Token) : Reading Stmt ts.length :=
  (expect eof .leftParen "'(' after 'while'" ts).andThen fun _ ts₁ _ =>
  (expression ts₁).andThen fun condition ts₂ _ =>
  (expect eof .rightParen "')' after while condition" ts₂).andThen fun _ ts₃ _ =>
  (statement ts₃).map fun body => .whileLoop condition body none
termination_by 32 * ts.length

/-- Reads a loop after `for`. -/
def forStatement (ts : List Token) : Reading Stmt ts.length :=
  (expect eof .leftParen "'(' after 'for'" ts).andThen fun _ ts₁ _ =>
  (forInitializer ts₁).andThen fun initializer ts₂ _ =>
  (forCondition ts₂).andThen fun condition ts₃ _ =>
  (forStep ts₃).andThen fun step ts₄ _ =>
  (statement ts₄).map fun body => .forLoop initializer condition step body
termination_by 32 * ts.length

/-- Reads the first clause of a `for` with its semicolon. -/
def forInitializer (ts : List Token) : Reading (Option Stmt) ts.length :=
  match ts with
  | [] => (expressionStatement []).map some
  | t :: ts₁ =>
    match t.kind with
    | .semicolon => .here none ts₁
    | .kwVar => ((varDeclaration ts₁).map some).loosen
    | .kwLet => ((letDeclaration ts₁).map some).loosen
    | _ => (expressionStatement (t :: ts₁)).map some
termination_by 32 * ts.length + 17

/-- Reads the second clause of a `for` with its semicolon; a missing condition
is true. -/
def forCondition (ts : List Token) : Reading Expr ts.length :=
  if nextIs .semicolon ts then
    (expect eof .semicolon "';' after loop condition" ts).map
      fun _ => .literal (.boolean true)
  else (expression ts).andThen fun e ts₁ _ =>
    (expect eof .semicolon "';' after loop condition" ts₁).map fun _ => e
termination_by 32 * ts.length + 16

/-- Reads the third clause of a `for` with the closing parenthesis. -/
def forStep (ts : List Token) : Reading (Option Expr) ts.length :=
  if nextIs .rightParen ts then
    (expect eof .rightParen "')' after for clauses" ts).map fun _ => none
  else (expression ts).andThen fun e ts₁ _ =>
    (expect eof .rightParen "')' after for clauses" ts₁).map fun _ => some e
termination_by 32 * ts.length + 16

/-- Reads the value of a `return`, if there is one, and the semicolon. -/
def returnStatement (keyword : Token) (ts : List Token) : Reading Stmt ts.length :=
  if nextIs .semicolon ts then
    (expect eof .semicolon "';' after return value" ts).map fun _ => .returnWith keyword none
  else (expression ts).andThen fun e ts₁ _ =>
    (expect eof .semicolon "';' after return value" ts₁).map
      fun _ => .returnWith keyword (some e)
termination_by 32 * ts.length + 16

end

end Parser

/-- The program that a list of tokens writes up to its first `eof`, or all its
syntax errors in order. -/
def parse (tokens : List Token) : Except (List SyntaxError) (List Stmt) :=
  let (ts, rest) := tokens.span (·.kind ≠ .eof)
  let s := Parser.statements (rest.headD ⟨.eof, "", .start⟩) false ts
  match s.noted with
  | [] => .ok s.body
  | errors => .error errors

end Lox
