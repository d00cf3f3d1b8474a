/-
# Names as texts can write them

`this` and `super` are no names: in a program that was read from a text, whatever
is declared, assigned to or set is called something else, and the keywords are
written as they are meant.  Nor does a text declare anything as the branch of an
`if` or the body of a loop.  All of this the grammar says of a program as a whole,
and so of everything that the resolver visits in it: `visitAt_worded`.
-/
import Lox.Proofs.Grammar.Sound
import Lox.Proofs.Fresh
import Lox.Proofs.Declared

namespace Lox

/-- A name that a text can declare: neither of the words `this` and `super`. -/
def Token.Plain (t : Token) : Prop := t.lexeme ≠ "this" ∧ t.lexeme ≠ "super"

/-! ## Programs with such names -/

mutual

/-- An expression in which names are plain and keywords are written out. -/
inductive WordedExpr : Expr → Prop
  | literal {v} : WordedExpr (.literal v)
  | grouping {e} : WordedExpr e → WordedExpr (.grouping e)
  | unary {op e} : WordedExpr e → WordedExpr (.unary op e)
  | binary {l op r} : WordedExpr l → WordedExpr r → WordedExpr (.binary l op r)
  | logical {l op r} : WordedExpr l → WordedExpr r → WordedExpr (.logical l op r)
  | «variable» {name depth} : name.Plain → WordedExpr (.variable name depth)
  | assign {name v depth} : name.Plain → WordedExpr v → WordedExpr (.assign name v depth)
  | call {callee paren es} : WordedExpr callee → (∀ e ∈ es, WordedExpr e) →
      WordedExpr (.call callee paren es)
  | get {object name} : WordedExpr object → WordedExpr (.get object name)
  | set {object name v} : name.Plain → WordedExpr object → WordedExpr v →
      WordedExpr (.set object name v)
  | receiver {keyword depth} : keyword.lexeme = "this" → WordedExpr (.receiver keyword depth)
  | superMethod {keyword method depth} : keyword.lexeme = "super" →
      WordedExpr (.superMethod keyword method depth)
  | function {d} : WordedDecl d → WordedExpr (.function d)
  | array {bracket size es} : (∀ e ∈ size, WordedExpr e) → (∀ e ∈ es, WordedExpr e) →
      WordedExpr (.array bracket size es)
  | index {object bracket i} : WordedExpr object → WordedExpr i →
      WordedExpr (.index object bracket i)
  | setIndex {object bracket i v} : WordedExpr object → WordedExpr i → WordedExpr v →
      WordedExpr (.setIndex object bracket i v)

/-- A function in which names are plain and keywords are written out. -/
inductive WordedDecl : FunctionDecl → Prop
  | mk {keyword name params body} : (∀ x ∈ name, x.Plain) → (∀ p ∈ params, p.Plain) →
      (∀ st ∈ body, WordedStmt st) → WordedDecl (.mk keyword name params body)

/-- A statement in which names are plain and keywords are written out, and nothing
is declared but among other statements. -/
inductive WordedStmt : Stmt → Prop
  | print {e} : WordedExpr e → WordedStmt (.print e)
  | expression {e} : WordedExpr e → WordedStmt (.expression e)
  | varDecl {name e} : name.Plain → (∀ v ∈ e, WordedExpr v) → WordedStmt (.varDecl name e)
  | letDecl {name e} : name.Plain → WordedExpr e → WordedStmt (.letDecl name e)
  | block {body} : (∀ st ∈ body, WordedStmt st) → WordedStmt (.block body)
  | branch {condition onTrue onFalse} : WordedExpr condition → WordedStmt onTrue →
      onTrue.declares = none → (∀ st ∈ onFalse, WordedStmt st) →
      (∀ st ∈ onFalse, st.declares = none) → WordedStmt (.branch condition onTrue onFalse)
  | whileLoop {condition body step} : WordedExpr condition → WordedStmt body →
      body.declares = none → (∀ e ∈ step, WordedExpr e) →
      WordedStmt (.whileLoop condition body step)
  | functionDecl {d} : WordedDecl d → WordedStmt (.functionDecl d)
  | classDecl {name e ms} : name.Plain → (∀ v ∈ e, WordedExpr v) →
      (∀ d ∈ ms, WordedDecl d) → WordedStmt (.classDecl name e ms)
  | returnWith {keyword e} : (∀ v ∈ e, WordedExpr v) → WordedStmt (.returnWith keyword e)
  | breakLoop {keyword} : WordedStmt (.breakLoop keyword)
  | continueLoop {keyword} : WordedStmt (.continueLoop keyword)
  | moduleDecl {name body} : name.Plain → (∀ st ∈ body, WordedStmt st) →
      WordedStmt (.moduleDecl name body)

end

theorem WordedDecl.plain {d : FunctionDecl} (h : WordedDecl d) {name : Token}
    (hname : d.name = some name) : name.Plain := by
  cases h with
  | mk hx => exact hx name hname

theorem WordedStmt.plain {st : Stmt} (h : WordedStmt st) {name : Token}
    (hname : st.declares = some name) : name.Plain := by
  cases h with
  | varDecl hx | letDecl hx | classDecl hx | moduleDecl hx =>
      cases hname
      exact hx
  | functionDecl hd => exact hd.plain hname
  | _ => cases hname

/-! ## The grammar -/

namespace Grammar

/-- What is said of the trees of a category. -/
def Category.Worded : (c : Category) → c.Tree → Prop
  | .program, sts | .block, sts => ∀ st ∈ sts, WordedStmt st
  | .declaration, st | .varDecl, st | .letDecl, st => WordedStmt st
  | .statement _, st | .exprStmt, st => WordedStmt st ∧ st.declares = none
  | .initializer, st => ∀ s ∈ st, WordedStmt s
  | .methods, ms => ∀ d ∈ ms, WordedDecl d
  | .callable, v => (∀ p ∈ v.1, p.Plain) ∧ ∀ st ∈ v.2, WordedStmt st
  | .params, ps => ∀ p ∈ ps, p.Plain
  | .expression, e | .operation _, e | .call, e | .primary, e => WordedExpr e
  | .optional, e => ∀ v ∈ e, WordedExpr v
  | .items, es | .list, es | .more, es => ∀ e ∈ es, WordedExpr e

theorem plain_of_written {x : Token} (h : x.Written) (hx : x.kind = .identifier) : x.Plain :=
  ⟨fun hthis => h.identifier hx .kwThis (hthis ▸ by decide),
    fun hsuper => h.identifier hx .kwSuper (hsuper ▸ by decide)⟩

/-- A construct of tokens that a text can hold. -/
theorem worded_of_derives {c : Category} {ts : List Token} {v : c.Tree} (h : Derives c ts v)
    (hts : ∀ t ∈ ts, t.Written) : c.Worded v := by
  induction h with try simp only [List.forall_mem_cons, List.forall_mem_append] at hts
  | noDeclaration | noMethod | noInitializer | absent | noItem | noMore => exact nofun
  -- what is written with one construct more, or with none
  | ofVarDecl _ ih | ofLetDecl _ ih | ofExprStmt _ ih | ofOperation _ ih | operand _ ih
  | ofCall _ ih | ofPrimary _ ih | ofList _ ih => exact ih hts
  | ofStatement _ _ ih => exact (ih hts).1
  | present _ ih | varInitializer _ ih | letInitializer _ ih =>
      rintro e ⟨⟩
      exact ih hts
  | exprInitializer _ ih =>
      rintro e ⟨⟩
      exact (ih hts).1
  -- lists
  | declarations _ _ ih ihs => exact List.forall_mem_cons.mpr ⟨ih hts.1, ihs hts.2⟩
  | methods hx _ _ ih ihs =>
      obtain ⟨ht, hts, hus⟩ := hts
      obtain ⟨hps, hbody⟩ := ih hts
      refine List.forall_mem_cons.mpr ⟨.mk ?_ hps hbody, ihs hus⟩
      rintro x ⟨⟩
      exact plain_of_written ht hx
  | param hx => exact List.forall_mem_cons.mpr ⟨plain_of_written hts.1 hx, nofun⟩
  | params hx _ _ ih =>
      exact List.forall_mem_cons.mpr ⟨plain_of_written hts.1 hx, ih hts.2.2⟩
  | list _ _ ih ihs => exact List.forall_mem_cons.mpr ⟨ih hts.1, ihs hts.2⟩
  | more _ _ _ ih ihs => exact List.forall_mem_cons.mpr ⟨ih hts.2.1, ihs hts.2.2⟩
  -- declarations
  | classDecl _ hx _ _ _ ih =>
      exact .classDecl (plain_of_written hts.2.1 hx) nofun (ih hts.2.2.2.1)
  | subclassDecl _ hx _ _ _ _ _ ihe ih =>
      obtain ⟨-, ht, -, hus, -, hts, -⟩ := hts
      refine .classDecl (plain_of_written ht hx) ?_ (ih hts)
      rintro e ⟨⟩
      exact ihe hus
  | functionDecl _ hx _ ih =>
      obtain ⟨-, ht, hts⟩ := hts
      refine .functionDecl (.mk ?_ (ih hts).1 (ih hts).2)
      rintro x ⟨⟩
      exact plain_of_written ht hx
  | moduleDecl _ hx _ ih => exact .moduleDecl (plain_of_written hts.2.1 hx) (ih hts.2.2)
  | varDecl _ hx _ => exact .varDecl (plain_of_written hts.2.1 hx) nofun
  | varInitialized _ hx _ _ _ ih =>
      refine .varDecl (plain_of_written hts.2.1 hx) ?_
      rintro e ⟨⟩
      exact ih hts.2.2.2.1
  | letDecl _ hx _ _ _ ih => exact .letDecl (plain_of_written hts.2.1 hx) (ih hts.2.2.2.1)
  | callable _ _ _ ih => exact ⟨nofun, ih hts.2.2⟩
  | callableOf _ _ _ _ _ ihps ih => exact ⟨ihps hts.2.1, ih hts.2.2.2⟩
  | block _ _ _ ih => exact ih hts.2.1
  -- statements
  | exprStmt _ _ ih => exact ⟨.expression (ih hts.1), rfl⟩
  | print _ _ _ ih => exact ⟨.print (ih hts.2.1), rfl⟩
  | ofBlock _ ih => exact ⟨.block (ih hts), rfl⟩
  | ifThen _ _ _ _ _ ihe iha =>
      obtain ⟨-, -, hts, -, hus⟩ := hts
      exact ⟨.branch (ihe hts) (iha hus).1 (iha hus).2 nofun nofun, rfl⟩
  | ifElse _ _ _ _ _ _ _ ihe iha ihb =>
      obtain ⟨-, -, hts, -, hus, -, hvs⟩ := hts
      refine ⟨.branch (ihe hts) (iha hus).1 (iha hus).2 ?_ ?_, rfl⟩
      · rintro b ⟨⟩
        exact (ihb hvs).1
      · rintro b ⟨⟩
        exact (ihb hvs).2
  | whileLoop _ _ _ _ _ ihe ihb =>
      obtain ⟨-, -, hts, -, hus⟩ := hts
      exact ⟨.whileLoop (ihe hts) (ihb hus).1 (ihb hus).2 nofun, rfl⟩
  | @forLoop _ _ _ _ _ _ _ _ _ a e i b _ _ _ _ _ _ _ _ iha ihe ihi ihb =>
      obtain ⟨-, -, hts, hus, -, hvs, -, hws⟩ := hts
      refine ⟨.block (List.forall_mem_append.mpr ⟨?_, List.forall_mem_cons.mpr ⟨?_, nofun⟩⟩), rfl⟩
      · exact fun st hst => iha hts st (Option.mem_toList.mp hst)
      · refine .whileLoop ?_ (ihb hws).1 (ihb hws).2 (ihi hvs)
        cases e with
        | none => exact .literal
        | some e => exact ihe hus e rfl
  | returnWith _ _ _ ih => exact ⟨.returnWith (ih hts.2.1), rfl⟩
  | breakLoop => exact ⟨.breakLoop, rfl⟩
  | continueLoop => exact ⟨.continueLoop, rfl⟩
  -- expressions
  | assign hx _ _ ih => exact .assign (plain_of_written hts.1 hx) (ih hts.2.2)
  | set _ _ hx _ _ iho ih =>
      obtain ⟨hts, -, ht, -, hus⟩ := hts
      exact .set (plain_of_written ht hx) (iho hts) (ih hus)
  | setIndex _ _ _ _ _ _ iho ihi ih =>
      obtain ⟨hts, -, hus, -, -, hvs⟩ := hts
      exact .setIndex (iho hts) (ihi hus) (ih hvs)
  | @join p _ _ _ _ _ _ _ _ iha ihb =>
      obtain ⟨hts, -, hus⟩ := hts
      cases p with
      | disjunction | conjunction => exact .logical (iha hts) (ihb hus)
      | equality | comparison | sum | product => exact .binary (iha hts) (ihb hus)
  | unary _ _ ih => exact .unary (ih hts.2)
  | call _ _ _ _ _ ihf ih => exact .call (ihf hts.1) (ih hts.2.2.1)
  | get _ _ _ ih => exact .get (ih hts.1)
  | index _ _ _ _ iho ihi => exact .index (iho hts.1) (ihi hts.2.2.1)
  | ofFalse | ofTrue | ofNil | ofNumber | ofString => exact .literal
  | ofName hx => exact .variable (plain_of_written hts.1 hx)
  | receiver hk => exact .receiver (hts.1.keyword "this" (hk ▸ by decide))
  | superMethod hk _ _ => exact .superMethod (hts.1.keyword "super" (hk ▸ by decide))
  | grouping _ _ _ ih => exact .grouping (ih hts.2.1)
  | lambda _ _ ih => exact .function (.mk nofun (ih hts.2).1 (ih hts.2).2)
  | namedLambda _ hx _ ih =>
      obtain ⟨-, ht, hts⟩ := hts
      refine .function (.mk ?_ (ih hts).1 (ih hts).2)
      rintro x ⟨⟩
      exact plain_of_written ht hx
  | array _ _ _ ih => exact .array nofun (ih hts.2.1)
  | sizedArray _ _ _ _ _ ihn ih =>
      obtain ⟨-, hus, -, hts, -⟩ := hts
      refine .array ?_ (ih hts)
      rintro e ⟨⟩
      exact ihn hus

end Grammar

/-! ## What the resolver visits -/

/-- What is visited is part of such a program. -/
def Visit.Worded (v : Visit) : Prop :=
  match v.node with
  | .text body => ∀ st ∈ body, WordedStmt st
  | .expr e => WordedExpr e
  | .stmt st => WordedStmt st
  | .function _ d => WordedDecl d

namespace Visit

theorem worded_operand {c : Context} {es : List Expr} {i : Nat} {w : Visit}
    (h : operand c es i = some w) (hes : ∀ e ∈ es, WordedExpr e) : w.Worded := by
  obtain ⟨e, he, rfl⟩ := operand_eq h
  exact hes e he

theorem worded_method {c : Context} {ds : List FunctionDecl} {i : Nat} {w : Visit}
    (h : method c ds i = some w) (hds : ∀ d ∈ ds, WordedDecl d) : w.Worded := by
  obtain ⟨d, hd, rfl⟩ := method_eq h
  exact hds d hd

theorem worded_statement {c : Context} {sts : List Stmt} {i : Nat} {w : Visit}
    (h : statement c sts i = some w) (hsts : ∀ st ∈ sts, WordedStmt st) : w.Worded := by
  obtain ⟨before, st, later, rfl, rfl⟩ := statement_eq h
  exact hsts st (List.mem_append_right before List.mem_cons_self)

theorem worded_ofExpr {p : Place} {c : Context} {e : Expr} {i : Nat} {w : Visit}
    (h : ofExpr p c e i = some w) (he : WordedExpr e) : w.Worded := by
  cases exprChild_of_ofExpr h with
  | argument h =>
      cases he with
      | call _ hes => exact worded_operand h hes
  | element h =>
      cases he with
      | array _ hes => exact worded_operand h hes
  | size =>
      cases he with
      | array hsize _ => exact hsize _ rfl
  | _ =>
      cases he
      assumption

theorem worded_ofStmt {p : Place} {c : Context} {st : Stmt} {i : Nat} {w : Visit}
    (h : ofStmt p c st i = some w) (hst : WordedStmt st) : w.Worded := by
  cases stmtChild_of_ofStmt h with
  | varInitializer =>
      cases hst with
      | varDecl _ he => exact he _ rfl
  | block h =>
      cases hst with
      | block hbody => exact worded_statement h hbody
  | onFalse =>
      cases hst with
      | branch _ _ _ hb _ => exact hb _ rfl
  | loopStep =>
      cases hst with
      | whileLoop _ _ _ hs => exact hs _ rfl
  | superclass =>
      cases hst with
      | classDecl _ he _ => exact he _ rfl
  | method h =>
      cases hst with
      | classDecl _ _ hms => exact worded_method h hms
  | returned =>
      cases hst with
      | returnWith he => exact he _ rfl
  | member h =>
      cases hst with
      | moduleDecl _ hbody => exact worded_statement h hbody
  | _ =>
      cases hst
      assumption

/-- A child is part of the same program. -/
theorem worded_child {p : Place} {v w : Visit} {i : Nat} (h : v.child p i = some w)
    (hv : v.Worded) : w.Worded := by
  obtain ⟨c, node⟩ := v
  cases node with
  | text body => exact worded_statement h hv
  | expr e => exact worded_ofExpr h hv
  | stmt st => exact worded_ofStmt h hv
  | function kind d =>
      cases hv with
      | mk _ _ hbody => exact worded_statement h hbody

end Visit

theorem WasRead.worded {body : List Stmt} (h : WasRead body) : ∀ st ∈ body, WordedStmt st := by
  obtain ⟨source, h⟩ := h
  unfold Session.read at h
  split at h
  · cases h
  · rename_i tokens hscan
    split at h
    · cases h
    · rename_i hparse
      cases h
      refine Grammar.worded_of_derives (derives_of_parse hparse) fun t ht => ?_
      have hmem : t ∈ tokens := (List.takeWhile_sublist _).mem ht
      have hkind := List.mem_takeWhile_imp ht
      obtain ⟨-, rfl⟩ := Token.scan_eq_ok hscan
      rcases List.mem_append.mp hmem with hmem | hmem
      · exact Segment.written_ofChars hmem
      · cases List.mem_singleton.mp hmem
        simp [Token.endOf] at hkind

/-- In programs that were read, whatever is visited has plain names. -/
theorem visitAt_worded {texts : List (List Stmt)} (hread : ∀ body ∈ texts, WasRead body)
    {p : Place} {v : Visit} (h : visitAt texts p = some v) : v.Worded :=
  visitAt_induct (P := Visit.Worded) (fun body hb => (hread body hb).worded)
    (fun _ _ _ _ _ hv hw => Visit.worded_child hw hv) h

end Lox
