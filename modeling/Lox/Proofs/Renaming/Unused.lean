/-
# Words that name nothing in a program

A word that no identifier of a text is names nothing in its program: no variable, no
parameter, no function, class or module, and nothing is used under it.  Nor is there a
depth anywhere, since reading sets none.  The grammar says so of a program as a whole.
-/
import Lox.Proofs.Words

namespace Lox

/-! ## Programs in which a word is not used -/

section
variable (n : String)

mutual

/-- An expression without depths in which the word names nothing. -/
inductive UnusedExpr : Expr → Prop
  | literal {v} : UnusedExpr (.literal v)
  | grouping {e} : UnusedExpr e → UnusedExpr (.grouping e)
  | unary {op e} : UnusedExpr e → UnusedExpr (.unary op e)
  | binary {l op r} : UnusedExpr l → UnusedExpr r → UnusedExpr (.binary l op r)
  | logical {l op r} : UnusedExpr l → UnusedExpr r → UnusedExpr (.logical l op r)
  | «variable» {x} : x.lexeme ≠ n → UnusedExpr (.variable x none)
  | assign {x v} : x.lexeme ≠ n → UnusedExpr v → UnusedExpr (.assign x v none)
  | call {callee paren es} : UnusedExpr callee → (∀ e ∈ es, UnusedExpr e) →
      UnusedExpr (.call callee paren es)
  | get {object x} : UnusedExpr object → UnusedExpr (.get object x)
  | set {object x v} : UnusedExpr object → UnusedExpr v → UnusedExpr (.set object x v)
  | receiver {keyword} : UnusedExpr (.receiver keyword none)
  | superMethod {keyword method} : UnusedExpr (.superMethod keyword method none)
  | function {d} : UnusedDecl d → UnusedExpr (.function d)
  | array {bracket size es} : (∀ e ∈ size, UnusedExpr e) → (∀ e ∈ es, UnusedExpr e) →
      UnusedExpr (.array bracket size es)
  | index {object bracket i} : UnusedExpr object → UnusedExpr i →
      UnusedExpr (.index object bracket i)
  | setIndex {object bracket i v} : UnusedExpr object → UnusedExpr i → UnusedExpr v →
      UnusedExpr (.setIndex object bracket i v)

/-- A function without depths in which the word names nothing. -/
inductive UnusedDecl : FunctionDecl → Prop
  | mk {keyword name params body} : (∀ x ∈ name, x.lexeme ≠ n) → (∀ p ∈ params, p.lexeme ≠ n) →
      (∀ st ∈ body, UnusedStmt st) → UnusedDecl (.mk keyword name params body)

/-- A statement without depths in which the word names nothing. -/
inductive UnusedStmt : Stmt → Prop
  | print {e} : UnusedExpr e → UnusedStmt (.print e)
  | expression {e} : UnusedExpr e → UnusedStmt (.expression e)
  | varDecl {x e} : x.lexeme ≠ n → (∀ v ∈ e, UnusedExpr v) → UnusedStmt (.varDecl x e)
  | letDecl {x e} : x.lexeme ≠ n → UnusedExpr e → UnusedStmt (.letDecl x e)
  | block {body} : (∀ st ∈ body, UnusedStmt st) → UnusedStmt (.block body)
  | branch {condition onTrue onFalse} : UnusedExpr condition → UnusedStmt onTrue →
      (∀ st ∈ onFalse, UnusedStmt st) → UnusedStmt (.branch condition onTrue onFalse)
  | whileLoop {condition body step} : UnusedExpr condition → UnusedStmt body →
      (∀ e ∈ step, UnusedExpr e) → UnusedStmt (.whileLoop condition body step)
  | functionDecl {d} : UnusedDecl d → UnusedStmt (.functionDecl d)
  | classDecl {x e ms} : x.lexeme ≠ n → (∀ v ∈ e, UnusedExpr v) → (∀ d ∈ ms, UnusedDecl d) →
      UnusedStmt (.classDecl x e ms)
  | returnWith {keyword e} : (∀ v ∈ e, UnusedExpr v) → UnusedStmt (.returnWith keyword e)
  | breakLoop {keyword} : UnusedStmt (.breakLoop keyword)
  | continueLoop {keyword} : UnusedStmt (.continueLoop keyword)
  | moduleDecl {x body} : x.lexeme ≠ n → (∀ st ∈ body, UnusedStmt st) →
      UnusedStmt (.moduleDecl x body)

end

end

theorem UnusedDecl.name {n : String} {d : FunctionDecl} (h : UnusedDecl n d) :
    ∀ x ∈ d.name, x.lexeme ≠ n := by
  cases h with
  | mk hx _ _ => exact hx

/-! ## The grammar -/

namespace Grammar

/-- What is said of the trees of a category. -/
def Category.Unused (n : String) : (c : Category) → c.Tree → Prop
  | .program, sts | .block, sts => ∀ st ∈ sts, UnusedStmt n st
  | .declaration, st | .varDecl, st | .letDecl, st => UnusedStmt n st
  | .statement _, st | .exprStmt, st => UnusedStmt n st
  | .initializer, st => ∀ s ∈ st, UnusedStmt n s
  | .methods, ms => ∀ d ∈ ms, UnusedDecl n d
  | .callable, v => (∀ p ∈ v.1, p.lexeme ≠ n) ∧ ∀ st ∈ v.2, UnusedStmt n st
  | .params, ps => ∀ p ∈ ps, p.lexeme ≠ n
  | .expression, e | .operation _, e | .call, e | .primary, e => UnusedExpr n e
  | .optional, e => ∀ v ∈ e, UnusedExpr n v
  | .items, es | .list, es | .more, es => ∀ e ∈ es, UnusedExpr n e

/-- A construct of tokens of which no identifier is the word. -/
theorem unused_of_derives {n : String} {c : Category} {ts : List Token} {v : c.Tree}
    (h : Derives c ts v) (hts : ∀ t ∈ ts, t.kind = .identifier → t.lexeme ≠ n) :
    c.Unused n v := by
  induction h with try simp only [List.forall_mem_cons, List.forall_mem_append] at hts
  | noDeclaration | noMethod | noInitializer | absent | noItem | noMore => exact nofun
  -- what is written with one construct more, or with none
  | ofVarDecl _ ih | ofLetDecl _ ih | ofExprStmt _ ih | ofOperation _ ih | operand _ ih
  | ofCall _ ih | ofPrimary _ ih | ofList _ ih | ofStatement _ _ ih => exact ih hts
  | present _ ih | varInitializer _ ih | letInitializer _ ih | exprInitializer _ ih =>
      rintro e ⟨⟩
      exact ih hts
  -- lists
  | declarations _ _ ih ihs => exact List.forall_mem_cons.mpr ⟨ih hts.1, ihs hts.2⟩
  | methods hx _ _ ih ihs =>
      obtain ⟨ht, hts, hus⟩ := hts
      obtain ⟨hps, hbody⟩ := ih hts
      refine List.forall_mem_cons.mpr ⟨.mk ?_ hps hbody, ihs hus⟩
      rintro x ⟨⟩
      exact ht hx
  | param hx => exact List.forall_mem_cons.mpr ⟨hts.1 hx, nofun⟩
  | params hx _ _ ih => exact List.forall_mem_cons.mpr ⟨hts.1 hx, ih hts.2.2⟩
  | list _ _ ih ihs => exact List.forall_mem_cons.mpr ⟨ih hts.1, ihs hts.2⟩
  | more _ _ _ ih ihs => exact List.forall_mem_cons.mpr ⟨ih hts.2.1, ihs hts.2.2⟩
  -- declarations
  | classDecl _ hx _ _ _ ih => exact .classDecl (hts.2.1 hx) nofun (ih hts.2.2.2.1)
  | subclassDecl _ hx _ _ _ _ _ ihe ih =>
      obtain ⟨-, ht, -, hus, -, hts, -⟩ := hts
      refine .classDecl (ht hx) ?_ (ih hts)
      rintro e ⟨⟩
      exact ihe hus
  | functionDecl _ hx _ ih =>
      obtain ⟨-, ht, hts⟩ := hts
      refine .functionDecl (.mk ?_ (ih hts).1 (ih hts).2)
      rintro x ⟨⟩
      exact ht hx
  | moduleDecl _ hx _ ih => exact .moduleDecl (hts.2.1 hx) (ih hts.2.2)
  | varDecl _ hx _ => exact .varDecl (hts.2.1 hx) nofun
  | varInitialized _ hx _ _ _ ih =>
      refine .varDecl (hts.2.1 hx) ?_
      rintro e ⟨⟩
      exact ih hts.2.2.2.1
  | letDecl _ hx _ _ _ ih => exact .letDecl (hts.2.1 hx) (ih hts.2.2.2.1)
  | callable _ _ _ ih => exact ⟨nofun, ih hts.2.2⟩
  | callableOf _ _ _ _ _ ihps ih => exact ⟨ihps hts.2.1, ih hts.2.2.2⟩
  | block _ _ _ ih => exact ih hts.2.1
  -- statements
  | exprStmt _ _ ih => exact .expression (ih hts.1)
  | print _ _ _ ih => exact .print (ih hts.2.1)
  | ofBlock _ ih => exact .block (ih hts)
  | ifThen _ _ _ _ _ ihe iha =>
      obtain ⟨-, -, hts, -, hus⟩ := hts
      exact .branch (ihe hts) (iha hus) nofun
  | ifElse _ _ _ _ _ _ _ ihe iha ihb =>
      obtain ⟨-, -, hts, -, hus, -, hvs⟩ := hts
      refine .branch (ihe hts) (iha hus) ?_
      rintro b ⟨⟩
      exact ihb hvs
  | whileLoop _ _ _ _ _ ihe ihb =>
      obtain ⟨-, -, hts, -, hus⟩ := hts
      exact .whileLoop (ihe hts) (ihb hus) nofun
  | @forLoop _ _ _ _ _ _ _ _ _ a e i b _ _ _ _ _ _ _ _ iha ihe ihi ihb =>
      obtain ⟨-, -, hts, hus, -, hvs, -, hws⟩ := hts
      refine .block (List.forall_mem_append.mpr ⟨?_, List.forall_mem_cons.mpr ⟨?_, nofun⟩⟩)
      · exact fun st hst => iha hts st (Option.mem_toList.mp hst)
      · refine .whileLoop ?_ (ihb hws) (ihi hvs)
        cases e with
        | none => exact .literal
        | some e => exact ihe hus e rfl
  | returnWith _ _ _ ih => exact .returnWith (ih hts.2.1)
  | breakLoop => exact .breakLoop
  | continueLoop => exact .continueLoop
  -- expressions
  | assign hx _ _ ih => exact .assign (hts.1 hx) (ih hts.2.2)
  | set _ _ _ _ _ iho ih => exact .set (iho hts.1) (ih hts.2.2.2.2)
  | setIndex _ _ _ _ _ _ iho ihi ih =>
      obtain ⟨hts, -, hus, -, -, hvs⟩ := hts
      exact .setIndex (iho hts) (ihi hus) (ih hvs)
  | @join p _ _ _ _ _ _ _ _ iha ihb =>
      obtain ⟨hts, -, hus⟩ := hts
      cases p with
      | disjunction | conjunction => exact .logical (iha hts) (ihb hus)
      | equality | comparison | sum | product => exact .binary (iha hts) (ihb hus)
  | unary _ _ ih => exact .unary (ih hts.2)
  | call _ _ _ _ _ ihf ih => exact .call (ihf hts.1) (ih hts.2.2.1)
  | get _ _ _ ih => exact .get (ih hts.1)
  | index _ _ _ _ iho ihi => exact .index (iho hts.1) (ihi hts.2.2.1)
  | ofFalse | ofTrue | ofNil | ofNumber | ofString => exact .literal
  | ofName hx => exact .variable (hts.1 hx)
  | receiver _ => exact .receiver
  | superMethod _ _ _ => exact .superMethod
  | grouping _ _ _ ih => exact .grouping (ih hts.2.1)
  | lambda _ _ ih => exact .function (.mk nofun (ih hts.2).1 (ih hts.2).2)
  | namedLambda _ hx _ ih =>
      obtain ⟨-, ht, hts⟩ := hts
      refine .function (.mk ?_ (ih hts).1 (ih hts).2)
      rintro x ⟨⟩
      exact ht hx
  | array _ _ _ ih => exact .array nofun (ih hts.2.1)
  | sizedArray _ _ _ _ _ ihn ih =>
      obtain ⟨-, hus, -, hts, -⟩ := hts
      refine .array ?_ (ih hts)
      rintro e ⟨⟩
      exact ihn hus

end Grammar

/-- Nowhere in a text does the word stand as an identifier. -/
def Unmentioned (n : String) (source : String) : Prop :=
  ∀ tokens, Token.scan source = .ok tokens → ∀ t ∈ tokens, t.kind = .identifier → t.lexeme ≠ n

theorem unused_of_read {source : String} {body : List Stmt}
    (hread : (Session.read source).2 = .ok body) {n : String} (h : Unmentioned n source) :
    ∀ st ∈ body, UnusedStmt n st := by
  unfold Session.read at hread
  split at hread
  · cases hread
  · rename_i tokens hscan
    split at hread
    · cases hread
    · rename_i hparse
      cases hread
      exact Grammar.unused_of_derives (derives_of_parse hparse) fun t ht =>
        h tokens hscan t ((List.takeWhile_sublist _).mem ht)

end Lox
