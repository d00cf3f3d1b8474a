/-
# The grammar

The language as a grammar: which token lists make up a construct, and the tree
of each.  It says nothing of how a list is read.

    program     := declaration*
    declaration := "class" IDENT ("<" call)? "{" method* "}"
                 | "fun" IDENT callable | varDecl | letDecl
                 | "module" IDENT block
                 | statement                        (not if "fun" IDENT begins it)
    varDecl     := "var" IDENT ("=" expression)? ";"
    letDecl     := "let" IDENT "=" expression ";"
    method      := IDENT callable
    callable    := "(" (IDENT ("," IDENT)*)? ")" block
    block       := "{" declaration* "}"
    statement   := exprStmt | "print" expression ";" | block
                 | "if" "(" expression ")" statement
                 | "if" "(" expression ")" closed "else" statement
                 | "while" "(" expression ")" statement
                 | "for" "(" initializer expression? ";" expression? ")" statement
                 | "return" expression? ";" | "break" ";" | "continue" ";"
    initializer := ";" | varDecl | letDecl | exprStmt
    exprStmt    := expression ";"
    expression  := IDENT "=" expression | call "." IDENT "=" expression
                 | call "[" expression "]" "=" expression | operation
    operation   := operation OPERATOR operand | operand
    unary       := ("!" | "-") unary | call
    call        := call "(" items ")" | call "." IDENT | call "[" expression "]" | primary
    primary     := LITERAL | IDENT | "this" | "super" "." IDENT | "(" expression ")"
                 | "fun" IDENT? callable | "[" items "]" | "[" expression ":" items "]"
    items       := (expression ("," expression)*)?

There is an operation for each level of `Precedence`; its operands are those of
the next tighter level, and at last unary.  A statement is closed if it does
not end in an `if` without `else`, to which an `else` behind it would belong:
so only a closed statement stands before an `else`.  Parameters and arguments
are at most `maxArguments`.
-/
import Lox.Syntax.Parser

namespace Lox.Grammar

/-- The nonterminals.  The level `none` of operations is unary. -/
inductive Category where
  | program | declaration | varDecl | letDecl | methods | callable | params | block
  | statement (closed : Bool) | initializer | exprStmt
  | expression | operation (level : Option Precedence) | call | primary
  | optional | items | list | more

/-- What a construct is read as. -/
abbrev Category.Tree : Category → Type
  | .program | .block => List Stmt
  | .declaration | .varDecl | .letDecl | .statement _ | .exprStmt => Stmt
  | .methods => List FunctionDecl
  | .callable => List Token × List Stmt
  | .params => List Token
  | .initializer => Option Stmt
  | .expression | .operation _ | .call | .primary => Expr
  | .optional => Option Expr
  | .items | .list | .more => List Expr

/-- The tokens begin with `fun` and a name, as the declaration of a function
does. -/
def BeginsFunction (ts : List Token) : Prop :=
  nextIs .kwFun ts = true ∧ nextIs .identifier ts.tail = true

/-- The tokens make up a construct with this tree. -/
inductive Derives : (c : Category) → List Token → c.Tree → Prop where
  | noDeclaration : Derives .program [] []
  | declarations {ts us st sts} : Derives .declaration ts st → Derives .program us sts →
      Derives .program (ts ++ us) (st :: sts)
  -- declarations
  | classDecl {k x l r : Token} {ts ms} : k.kind = .kwClass → x.kind = .identifier →
      l.kind = .leftBrace → Derives .methods ts ms → r.kind = .rightBrace →
      Derives .declaration (k :: x :: l :: (ts ++ [r])) (.classDecl x none ms)
  | subclassDecl {k x s l r : Token} {us ts e ms} : k.kind = .kwClass → x.kind = .identifier →
      s.kind = .less → Derives .call us e → l.kind = .leftBrace → Derives .methods ts ms →
      r.kind = .rightBrace →
      Derives .declaration (k :: x :: s :: (us ++ l :: (ts ++ [r]))) (.classDecl x (some e) ms)
  | functionDecl {k x : Token} {ts ps body} : k.kind = .kwFun → x.kind = .identifier →
      Derives .callable ts (ps, body) →
      Derives .declaration (k :: x :: ts) (.functionDecl (.mk k (some x) ps body))
  | ofVarDecl {ts st} : Derives .varDecl ts st → Derives .declaration ts st
  | ofLetDecl {ts st} : Derives .letDecl ts st → Derives .declaration ts st
  | moduleDecl {k x : Token} {ts body} : k.kind = .kwModule → x.kind = .identifier →
      Derives .block ts body → Derives .declaration (k :: x :: ts) (.moduleDecl x body)
  | ofStatement {closed ts st} : Derives (.statement closed) ts st → ¬ BeginsFunction ts →
      Derives .declaration ts st
  | varDecl {k x s : Token} : k.kind = .kwVar → x.kind = .identifier → s.kind = .semicolon →
      Derives .varDecl [k, x, s] (.varDecl x none)
  | varInitialized {k x q s : Token} {ts e} : k.kind = .kwVar → x.kind = .identifier →
      q.kind = .equal → Derives .expression ts e → s.kind = .semicolon →
      Derives .varDecl (k :: x :: q :: (ts ++ [s])) (.varDecl x (some e))
  | letDecl {k x q s : Token} {ts e} : k.kind = .kwLet → x.kind = .identifier →
      q.kind = .equal → Derives .expression ts e → s.kind = .semicolon →
      Derives .letDecl (k :: x :: q :: (ts ++ [s])) (.letDecl x e)
  -- functions
  | noMethod : Derives .methods [] []
  | methods {x : Token} {ts us ps body ms} : x.kind = .identifier →
      Derives .callable ts (ps, body) → Derives .methods us ms →
      Derives .methods (x :: (ts ++ us)) (.mk x (some x) ps body :: ms)
  | callable {l r : Token} {ts body} : l.kind = .leftParen → r.kind = .rightParen →
      Derives .block ts body → Derives .callable (l :: r :: ts) ([], body)
  | callableOf {l r : Token} {us ts ps body} : l.kind = .leftParen → Derives .params us ps →
      ps.length ≤ maxArguments → r.kind = .rightParen → Derives .block ts body →
      Derives .callable (l :: (us ++ r :: ts)) (ps, body)
  | param {x : Token} : x.kind = .identifier → Derives .params [x] [x]
  | params {x c : Token} {ts ps} : x.kind = .identifier → c.kind = .comma →
      Derives .params ts ps → Derives .params (x :: c :: ts) (x :: ps)
  | block {l r : Token} {ts body} : l.kind = .leftBrace → Derives .program ts body →
      r.kind = .rightBrace → Derives .block (l :: (ts ++ [r])) body
  -- statements
  | ofExprStmt {ts st} : Derives .exprStmt ts st → Derives (.statement true) ts st
  | print {k s : Token} {ts e} : k.kind = .kwPrint → Derives .expression ts e →
      s.kind = .semicolon → Derives (.statement true) (k :: (ts ++ [s])) (.print e)
  | ofBlock {ts body} : Derives .block ts body → Derives (.statement true) ts (.block body)
  | ifThen {k l r : Token} {closed ts us e a} : k.kind = .kwIf → l.kind = .leftParen →
      Derives .expression ts e → r.kind = .rightParen → Derives (.statement closed) us a →
      Derives (.statement false) (k :: l :: (ts ++ r :: us)) (.branch e a none)
  | ifElse {k l r o : Token} {closed ts us vs e a b} : k.kind = .kwIf → l.kind = .leftParen →
      Derives .expression ts e → r.kind = .rightParen → Derives (.statement true) us a →
      o.kind = .kwElse → Derives (.statement closed) vs b →
      Derives (.statement closed) (k :: l :: (ts ++ r :: (us ++ o :: vs))) (.branch e a (some b))
  | whileLoop {k l r : Token} {closed ts us e b} : k.kind = .kwWhile → l.kind = .leftParen →
      Derives .expression ts e → r.kind = .rightParen → Derives (.statement closed) us b →
      Derives (.statement closed) (k :: l :: (ts ++ r :: us)) (.whileLoop e b none)
  | forLoop {k l s r : Token} {closed ts us vs ws a e i b} : k.kind = .kwFor →
      l.kind = .leftParen → Derives .initializer ts a → Derives .optional us e →
      s.kind = .semicolon → Derives .optional vs i → r.kind = .rightParen →
      Derives (.statement closed) ws b →
      Derives (.statement closed) (k :: l :: (ts ++ (us ++ s :: (vs ++ r :: ws))))
        (.block (a.toList ++ [.whileLoop (e.getD (.literal (.boolean true))) b i]))
  | returnWith {k s : Token} {ts e} : k.kind = .kwReturn → Derives .optional ts e →
      s.kind = .semicolon → Derives (.statement true) (k :: (ts ++ [s])) (.returnWith k e)
  | breakLoop {k s : Token} : k.kind = .kwBreak → s.kind = .semicolon →
      Derives (.statement true) [k, s] (.breakLoop k)
  | continueLoop {k s : Token} : k.kind = .kwContinue → s.kind = .semicolon →
      Derives (.statement true) [k, s] (.continueLoop k)
  | noInitializer {s : Token} : s.kind = .semicolon → Derives .initializer [s] none
  | varInitializer {ts st} : Derives .varDecl ts st → Derives .initializer ts (some st)
  | letInitializer {ts st} : Derives .letDecl ts st → Derives .initializer ts (some st)
  | exprInitializer {ts st} : Derives .exprStmt ts st → Derives .initializer ts (some st)
  | exprStmt {s : Token} {ts e} : Derives .expression ts e → s.kind = .semicolon →
      Derives .exprStmt (ts ++ [s]) (.expression e)
  -- expressions
  | assign {x q : Token} {ts v} : x.kind = .identifier → q.kind = .equal →
      Derives .expression ts v → Derives .expression (x :: q :: ts) (.assign x v none)
  | set {d x q : Token} {ts us o v} : Derives .call ts o → d.kind = .dot →
      x.kind = .identifier → q.kind = .equal → Derives .expression us v →
      Derives .expression (ts ++ d :: x :: q :: us) (.set o x v)
  | setIndex {l r q : Token} {ts us vs o i v} : Derives .call ts o → l.kind = .leftBracket →
      Derives .expression us i → r.kind = .rightBracket → q.kind = .equal →
      Derives .expression vs v →
      Derives .expression (ts ++ l :: (us ++ r :: q :: vs)) (.setIndex o l i v)
  | ofOperation {ts e} : Derives (.operation (some .disjunction)) ts e → Derives .expression ts e
  | operand {p : Precedence} {ts e} : Derives (.operation p.tighter) ts e →
      Derives (.operation (some p)) ts e
  | join {p : Precedence} {op : Token} {ts us a b} : Derives (.operation (some p)) ts a →
      op.kind ∈ p.operators → Derives (.operation p.tighter) us b →
      Derives (.operation (some p)) (ts ++ op :: us) (p.join a op b)
  | unary {op : Token} {ts e} : op.kind = .bang ∨ op.kind = .minus →
      Derives (.operation none) ts e → Derives (.operation none) (op :: ts) (.unary op e)
  | ofCall {ts e} : Derives .call ts e → Derives (.operation none) ts e
  | call {l r : Token} {ts us f es} : Derives .call ts f → l.kind = .leftParen →
      Derives .items us es → es.length ≤ maxArguments → r.kind = .rightParen →
      Derives .call (ts ++ l :: (us ++ [r])) (.call f r es)
  | get {d x : Token} {ts o} : Derives .call ts o → d.kind = .dot → x.kind = .identifier →
      Derives .call (ts ++ [d, x]) (.get o x)
  | index {l r : Token} {ts us o i} : Derives .call ts o → l.kind = .leftBracket →
      Derives .expression us i → r.kind = .rightBracket →
      Derives .call (ts ++ l :: (us ++ [r])) (.index o l i)
  | ofPrimary {ts e} : Derives .primary ts e → Derives .call ts e
  | ofFalse {t : Token} : t.kind = .kwFalse → Derives .primary [t] (.literal (.boolean false))
  | ofTrue {t : Token} : t.kind = .kwTrue → Derives .primary [t] (.literal (.boolean true))
  | ofNil {t : Token} : t.kind = .kwNil → Derives .primary [t] (.literal .nil)
  | ofNumber {t : Token} {x} : t.kind = .number → Number.ofText? t.lexeme = some x →
      Derives .primary [t] (.literal (.number x))
  | ofString {t : Token} : t.kind = .string → Derives .primary [t] (.literal (.string t.lexeme))
  | ofName {x : Token} : x.kind = .identifier → Derives .primary [x] (.variable x none)
  | receiver {k : Token} : k.kind = .kwThis → Derives .primary [k] (.receiver k none)
  | superMethod {k d x : Token} : k.kind = .kwSuper → d.kind = .dot → x.kind = .identifier →
      Derives .primary [k, d, x] (.superMethod k x none)
  | grouping {l r : Token} {ts e} : l.kind = .leftParen → Derives .expression ts e →
      r.kind = .rightParen → Derives .primary (l :: (ts ++ [r])) (.grouping e)
  | lambda {k : Token} {ts ps body} : k.kind = .kwFun → Derives .callable ts (ps, body) →
      Derives .primary (k :: ts) (.function (.mk k none ps body))
  | namedLambda {k x : Token} {ts ps body} : k.kind = .kwFun → x.kind = .identifier →
      Derives .callable ts (ps, body) →
      Derives .primary (k :: x :: ts) (.function (.mk k (some x) ps body))
  | array {l r : Token} {ts es} : l.kind = .leftBracket → Derives .items ts es →
      r.kind = .rightBracket → Derives .primary (l :: (ts ++ [r])) (.array l none es)
  | sizedArray {l c r : Token} {us ts n es} : l.kind = .leftBracket →
      Derives .expression us n → c.kind = .colon → Derives .items ts es →
      r.kind = .rightBracket →
      Derives .primary (l :: (us ++ c :: (ts ++ [r]))) (.array l (some n) es)
  | absent : Derives .optional [] none
  | present {ts e} : Derives .expression ts e → Derives .optional ts (some e)
  | noItem : Derives .items [] []
  | ofList {ts es} : Derives .list ts es → Derives .items ts es
  | list {ts us e es} : Derives .expression ts e → Derives .more us es →
      Derives .list (ts ++ us) (e :: es)
  | noMore : Derives .more [] []
  | more {c : Token} {ts us e es} : c.kind = .comma → Derives .expression ts e →
      Derives .more us es → Derives .more (c :: (ts ++ us)) (e :: es)

/-! ## What a construct begins with -/

/-- A token of one of these kinds comes first. -/
def Begins (kinds : List TokenKind) (ts : List Token) : Prop :=
  ∃ t us, ts = t :: us ∧ t.kind ∈ kinds

/-- The kinds of token that a primary begins with. -/
def primaryFirst : List TokenKind :=
  [.kwFalse, .kwTrue, .kwNil, .number, .string, .identifier, .kwThis, .kwSuper, .leftParen,
   .kwFun, .leftBracket]

/-- The kinds of token that an expression begins with. -/
def expressionFirst : List TokenKind := .bang :: .minus :: primaryFirst

/-- The kinds of token that a statement begins with. -/
def statementFirst : List TokenKind :=
  [.kwPrint, .leftBrace, .kwIf, .kwWhile, .kwFor, .kwReturn, .kwBreak, .kwContinue] ++
    expressionFirst

/-- The kinds of token that a declaration begins with. -/
def declarationFirst : List TokenKind :=
  [.kwClass, .kwVar, .kwLet, .kwModule] ++ statementFirst

/-- The kinds of token that a construct begins with. -/
def Category.first : Category → List TokenKind
  | .program | .declaration => declarationFirst
  | .varDecl => [.kwVar]
  | .letDecl => [.kwLet]
  | .methods | .params => [.identifier]
  | .callable => [.leftParen]
  | .block => [.leftBrace]
  | .statement _ => statementFirst
  | .initializer => .semicolon :: .kwVar :: .kwLet :: expressionFirst
  | .exprStmt | .expression | .operation _ | .optional | .items | .list => expressionFirst
  | .call | .primary => primaryFirst
  | .more => [.comma]

/-- Whether a construct may be made up of nothing. -/
def Category.nullable : Category → Bool
  | .program | .methods | .optional | .items | .more => true
  | _ => false

section
variable {kinds kinds' : List TokenKind} {k : TokenKind} {t : Token} {ts us : List Token}

theorem begins_cons (h : t.kind ∈ kinds) : Begins kinds (t :: ts) := ⟨t, ts, rfl, h⟩

theorem Begins.append (h : Begins kinds ts) (us : List Token) : Begins kinds (ts ++ us) := by
  obtain ⟨t, ts, rfl, ht⟩ := h
  exact begins_cons ht

theorem Begins.mono (h : Begins kinds ts) (hsub : kinds ⊆ kinds') : Begins kinds' ts := by
  obtain ⟨t, ts, rfl, ht⟩ := h
  exact begins_cons (hsub ht)

theorem Begins.ne (h : Begins kinds (t :: ts)) (hk : k ∉ kinds) : t.kind ≠ k := by
  obtain ⟨_, _, heq, ht⟩ := h
  cases heq
  rintro rfl
  exact hk ht

theorem Begins.nextIs_eq_false (h : Begins kinds ts) (hk : k ∉ kinds) : nextIs k ts = false := by
  obtain ⟨t, ts, rfl, ht⟩ := h
  exact decide_eq_false (Begins.ne ⟨t, ts, rfl, ht⟩ hk)

theorem BeginsFunction.append (h : BeginsFunction ts) (us : List Token) :
    BeginsFunction (ts ++ us) := by
  obtain ⟨hfun, hname⟩ := h
  match ts with
  | _ :: _ :: _ => exact ⟨hfun, hname⟩
  | [_] => cases hname
  | [] => cases hfun

end

/-- A construct is nothing or begins with one of its first tokens. -/
theorem Derives.begins {c : Category} {ts : List Token} {v : c.Tree} (h : Derives c ts v) :
    Begins c.first ts ∨ c.nullable = true ∧ ts = [] := by
  induction h with
  -- a token comes first
  | classDecl hk | subclassDecl hk | functionDecl hk | moduleDecl hk | varDecl hk
  | varInitialized hk | letDecl hk | methods hk | callable hk | callableOf hk | param hk
  | params hk | block hk | print hk | returnWith hk | breakLoop hk | continueLoop hk
  | noInitializer hk | assign hk | ofFalse hk | ofTrue hk | ofNil hk | ofNumber hk | ofString hk
  | ofName hk | receiver hk | superMethod hk | grouping hk | lambda hk | namedLambda hk
  | array hk | sizedArray hk | more hk =>
      refine .inl (begins_cons ?_)
      rw [hk]
      decide
  | ifThen hk | ifElse hk | whileLoop hk | forLoop hk =>
      refine .inl (begins_cons ?_)
      show _ ∈ statementFirst
      rw [hk]
      decide
  | unary hk =>
      refine .inl (begins_cons ?_)
      show _ ∈ expressionFirst
      rcases hk with hk | hk
      all_goals rw [hk]; decide
  -- a construct comes first
  | ofVarDecl _ ih | ofLetDecl _ ih | ofExprStmt _ ih | ofBlock _ ih | varInitializer _ ih
  | letInitializer _ ih | exprInitializer _ ih | ofCall _ ih =>
      exact .inl ((ih.resolve_right nofun).mono (by decide))
  | ofStatement _ _ ih =>
      exact .inl ((ih.resolve_right nofun).mono (List.subset_append_right _ _))
  | ofOperation _ ih | operand _ ih | ofPrimary _ ih | present _ ih | ofList _ ih =>
      exact .inl (ih.resolve_right nofun)
  | declarations _ _ ih | exprStmt _ _ ih | join _ _ _ ih | call _ _ _ _ _ ih | get _ _ _ ih
  | index _ _ _ _ ih | list _ _ ih =>
      exact .inl ((ih.resolve_right nofun).append _)
  | set _ _ _ _ _ ih | setIndex _ _ _ _ _ _ ih =>
      exact .inl (((ih.resolve_right nofun).append _).mono (by decide))
  -- nothing does
  | noDeclaration | noMethod | absent | noItem | noMore => exact .inr ⟨rfl, rfl⟩

/-! ## What can be assigned to -/

/-- An operation that is no call cannot be assigned to. -/
def CallOrFixed : (c : Category) → List Token → c.Tree → Prop
  | .operation _, ts, e => Derives .call ts e ∨ ∀ v, e.assigned? v = none
  | _, _, _ => True

theorem Derives.callOrFixed {c : Category} {ts : List Token} {v : c.Tree} (h : Derives c ts v) :
    CallOrFixed c ts v := by
  induction h with
  | operand _ ih => exact ih
  | @join p op ts us a b _ _ _ _ _ =>
      refine .inr fun v => ?_
      cases p with
      | disjunction | conjunction | equality | comparison | sum | product => rfl
  | unary => exact .inr fun v => rfl
  | ofCall h _ => exact .inl h
  | _ => trivial

/-- What an equals sign makes of an operation before it is an assignment to a
name, a property or an element. -/
theorem Derives.assigned {q : Token} {ts us : List Token} {target v e : Expr}
    (h : Derives (.operation (some .disjunction)) ts target) (hq : q.kind = .equal)
    (hv : Derives .expression us v) (he : target.assigned? v = some e) :
    Derives .expression (ts ++ q :: us) e := by
  have hcall : Derives .call ts target := by
    rcases h.callOrFixed with h | h
    · exact h
    · rw [h v] at he
      cases he
  cases hcall with
  | ofPrimary h =>
      cases h with
      | ofName hx =>
          cases he
          exact .assign hx hq hv
      | _ => cases he
  | get ho hd hx =>
      cases he
      rw [List.append_assoc]
      exact .set ho hd hx hq hv
  | index ho hl hi hr =>
      cases he
      have := Derives.setIndex ho hl hi hr hq hv
      simpa using this
  | call => cases he

end Lox.Grammar
