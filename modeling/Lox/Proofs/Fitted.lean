/-
# Tokens in their places

The expressions of a program that was read from a text keep the tokens that they were read
from, each of the kind that its place asks for and spelled as tokens of this kind are.  The
grammar says so of a program as a whole, and so of every expression in it: `Expr.Parsed.fitted`.

A token's kind says much of its lexeme: a reserved word, an operator or a punctuation mark
has one lexeme only (`Spelled.fixed`), a name is a word that is not reserved, and a string
is without quotes.
-/
import Lox.Proofs.Grammar.Sound
import Lox.Proofs.Fresh
import Lox.Proofs.Declared
import Lox.Proofs.Spacing

namespace Lox

/-! ## Lexemes by their kinds -/

/-- The tokens that are written in one way only, each with its kind. -/
def fixedLexemes : List (String × TokenKind) :=
  reservedWords ++ (Segment.punctuation.map (fun s => (String.ofList [s.1], s.2)) ++
    (Segment.extensible.map (fun s => (String.ofList [s.1], s.2.1)) ++
      Segment.extensible.map (fun s => (String.ofList [s.1, '='], s.2.2))))

/-- Every kind has one lexeme at most. -/
theorem fixedLexemes_injective : ∀ a ∈ fixedLexemes, ∀ b ∈ fixedLexemes, a.2 = b.2 → a.1 = b.1 := by
  decide +kernel

theorem fixedLexemes_ne :
    ∀ a ∈ fixedLexemes, a.2 ≠ .identifier ∧ a.2 ≠ .string ∧ a.2 ≠ .number := by
  decide +kernel

namespace Token.Spelled

variable {t : Token}

/-- The lexeme of a token that is no string is its spelling. -/
theorem shape (h : t.Spelled) (hkind : t.kind ≠ .string) :
    Segment.Shape (.token t.kind) t.lexeme.toList := by
  unfold Token.Spelled Token.spelling at h
  rwa [if_neg hkind] at h

/-- A string is without quotes. -/
theorem string (h : t.Spelled) (hkind : t.kind = .string) : '"' ∉ t.lexeme.toList := by
  unfold Token.Spelled Token.spelling at h
  rw [if_pos hkind] at h
  generalize htext : '"' :: (t.lexeme.toList ++ ['"']) = text at h
  generalize htoken : SegmentKind.token t.kind = kind at h
  cases h with
  | string hcs => rwa [List.append_cancel_right (List.cons.inj htext).2]
  -- nothing else begins with a quote
  | whole hds | decimal hds =>
      obtain ⟨rfl, -⟩ := List.cons.inj htext
      cases hds _ List.mem_cons_self
  | word hc | alone hc | extended hc | punctuation hc =>
      obtain ⟨rfl, -⟩ := List.cons.inj htext
      cases hc
  | _ => cases htoken

/-- What is neither a string nor a number is a word or has a fixed lexeme. -/
theorem word_or_fixed (h : t.Spelled) (hstring : t.kind ≠ .string) (hnumber : t.kind ≠ .number) :
    (t.kind = .ofWord t.lexeme ∧ ∃ c cs, t.lexeme.toList = c :: cs ∧
      Segment.startsWord c = true ∧ ∀ x ∈ cs, Segment.inWord x = true) ∨
    (t.lexeme, t.kind) ∈ fixedLexemes := by
  have hshape := h.shape hstring
  generalize htext : t.lexeme.toList = text at hshape
  generalize htoken : SegmentKind.token t.kind = kind at hshape
  have hlexeme : t.lexeme = String.ofList text := by rw [← htext, String.ofList_toList]
  unfold fixedLexemes
  cases hshape with
  | word hc hcs =>
      refine .inl ⟨?_, _, _, rfl, hc, hcs⟩
      rw [SegmentKind.token.inj htoken, hlexeme]
  | punctuation hc =>
      rw [hlexeme, SegmentKind.token.inj htoken]
      exact .inr (List.mem_append_right _ (List.mem_append_left _
        (List.mem_map.mpr ⟨_, Segment.mem_of_lookup hc, rfl⟩)))
  | alone hc =>
      rw [hlexeme, SegmentKind.token.inj htoken]
      exact .inr (List.mem_append_right _ (List.mem_append_right _ (List.mem_append_left _
        (List.mem_map.mpr ⟨_, Segment.mem_of_lookup hc, rfl⟩))))
  | extended hc =>
      rw [hlexeme, SegmentKind.token.inj htoken]
      exact .inr (List.mem_append_right _ (List.mem_append_right _ (List.mem_append_right _
        (List.mem_map.mpr ⟨_, Segment.mem_of_lookup hc, rfl⟩))))
  | string => exact absurd (SegmentKind.token.inj htoken) hstring
  | whole | decimal => exact absurd (SegmentKind.token.inj htoken) hnumber
  | _ => cases htoken

/-- A name is a word that is not reserved. -/
theorem name (h : t.Spelled) (hkind : t.kind = .identifier) : .ofWord t.lexeme = t.kind ∧
    ∃ c cs, t.lexeme.toList = c :: cs ∧ Segment.startsWord c = true ∧
      ∀ x ∈ cs, Segment.inWord x = true := by
  rcases h.word_or_fixed (by simp [hkind]) (by simp [hkind]) with ⟨hword, hchars⟩ | hfixed
  · exact ⟨hword.symm, hchars⟩
  · exact absurd hkind (fixedLexemes_ne _ hfixed).1

/-- A kind with one lexeme has it. -/
theorem fixed (h : t.Spelled) {lexeme : String} (hmem : (lexeme, t.kind) ∈ fixedLexemes) :
    t.lexeme = lexeme := by
  obtain ⟨hname, hstring, hnumber⟩ := fixedLexemes_ne _ hmem
  rcases h.word_or_fixed hstring hnumber with ⟨hword, -⟩ | hfixed
  · have hreserved := Segment.mem_reservedWords (hword ▸ hname)
    rw [← hword] at hreserved
    exact fixedLexemes_injective _ (List.mem_append_left _ hreserved) _ hmem rfl
  · exact fixedLexemes_injective _ hfixed _ hmem rfl

end Token.Spelled

/-- A token of one of the kinds, spelled as tokens of its kind are. -/
structure Token.Fits (kinds : List TokenKind) (t : Token) : Prop where
  spelled : t.Spelled
  kind : t.kind ∈ kinds

/-! ## Programs whose tokens fit -/

/-- The operators of unary expressions. -/
def unaryKinds : List TokenKind := [.bang, .minus]

/-- The operators of binary expressions. -/
def binaryKinds : List TokenKind :=
  [.bangEqual, .equalEqual, .greater, .greaterEqual, .less, .lessEqual, .minus, .plus, .slash,
    .star]

/-- The operators of logical expressions. -/
def logicalKinds : List TokenKind := [.kwAnd, .kwOr]

/-- A literal that a text can hold: no string with a quote in it. -/
def Literal.Fitted : Literal → Prop
  | .string s => '"' ∉ s.toList
  | _ => True

mutual

/-- An expression whose tokens fit their places. -/
inductive FittedExpr : Expr → Prop
  | literal {v} : v.Fitted → FittedExpr (.literal v)
  | grouping {e} : FittedExpr e → FittedExpr (.grouping e)
  | unary {op e} : op.Fits unaryKinds → FittedExpr e → FittedExpr (.unary op e)
  | binary {l op r} : op.Fits binaryKinds → FittedExpr l → FittedExpr r →
      FittedExpr (.binary l op r)
  | logical {l op r} : op.Fits logicalKinds → FittedExpr l → FittedExpr r →
      FittedExpr (.logical l op r)
  | «variable» {name depth} : name.Fits [.identifier] → FittedExpr (.variable name depth)
  | assign {name v depth} : name.Fits [.identifier] → FittedExpr v →
      FittedExpr (.assign name v depth)
  | call {callee paren es} : paren.Fits [.rightParen] → FittedExpr callee →
      (∀ e ∈ es, FittedExpr e) → FittedExpr (.call callee paren es)
  | get {object name} : name.Fits [.identifier] → FittedExpr object →
      FittedExpr (.get object name)
  | set {object name v} : name.Fits [.identifier] → FittedExpr object → FittedExpr v →
      FittedExpr (.set object name v)
  | receiver {keyword depth} : keyword.Fits [.kwThis] → FittedExpr (.receiver keyword depth)
  | superMethod {keyword method depth} : keyword.Fits [.kwSuper] → method.Fits [.identifier] →
      FittedExpr (.superMethod keyword method depth)
  | function {d} : FittedDecl d → FittedExpr (.function d)
  | array {bracket size es} : bracket.Fits [.leftBracket] → (∀ e ∈ size, FittedExpr e) →
      (∀ e ∈ es, FittedExpr e) → FittedExpr (.array bracket size es)
  | index {object bracket i} : bracket.Fits [.leftBracket] → FittedExpr object → FittedExpr i →
      FittedExpr (.index object bracket i)
  | setIndex {object bracket i v} : bracket.Fits [.leftBracket] → FittedExpr object →
      FittedExpr i → FittedExpr v → FittedExpr (.setIndex object bracket i v)

/-- A function with such expressions. -/
inductive FittedDecl : FunctionDecl → Prop
  | mk {keyword name params body} : (∀ st ∈ body, FittedStmt st) →
      FittedDecl (.mk keyword name params body)

/-- A statement with such expressions. -/
inductive FittedStmt : Stmt → Prop
  | print {e} : FittedExpr e → FittedStmt (.print e)
  | expression {e} : FittedExpr e → FittedStmt (.expression e)
  | varDecl {name e} : (∀ v ∈ e, FittedExpr v) → FittedStmt (.varDecl name e)
  | letDecl {name e} : FittedExpr e → FittedStmt (.letDecl name e)
  | block {body} : (∀ st ∈ body, FittedStmt st) → FittedStmt (.block body)
  | branch {condition onTrue onFalse} : FittedExpr condition → FittedStmt onTrue →
      (∀ st ∈ onFalse, FittedStmt st) → FittedStmt (.branch condition onTrue onFalse)
  | whileLoop {condition body step} : FittedExpr condition → FittedStmt body →
      (∀ e ∈ step, FittedExpr e) → FittedStmt (.whileLoop condition body step)
  | functionDecl {d} : FittedDecl d → FittedStmt (.functionDecl d)
  | classDecl {name e ms} : (∀ v ∈ e, FittedExpr v) → (∀ d ∈ ms, FittedDecl d) →
      FittedStmt (.classDecl name e ms)
  | returnWith {keyword e} : (∀ v ∈ e, FittedExpr v) → FittedStmt (.returnWith keyword e)
  | breakLoop {keyword} : FittedStmt (.breakLoop keyword)
  | continueLoop {keyword} : FittedStmt (.continueLoop keyword)
  | moduleDecl {name body} : (∀ st ∈ body, FittedStmt st) → FittedStmt (.moduleDecl name body)

end

/-! ## The grammar -/

namespace Grammar

/-- What is said of the trees of a category. -/
def Category.Fitted : (c : Category) → c.Tree → Prop
  | .program, sts | .block, sts => ∀ st ∈ sts, FittedStmt st
  | .declaration, st | .varDecl, st | .letDecl, st | .statement _, st | .exprStmt, st =>
      FittedStmt st
  | .initializer, st => ∀ s ∈ st, FittedStmt s
  | .methods, ms => ∀ d ∈ ms, FittedDecl d
  | .callable, v => ∀ st ∈ v.2, FittedStmt st
  | .params, _ => True
  | .expression, e | .operation _, e | .call, e | .primary, e => FittedExpr e
  | .optional, e => ∀ v ∈ e, FittedExpr v
  | .items, es | .list, es | .more, es => ∀ e ∈ es, FittedExpr e

/-- The operators of a level make expressions of the kind that the level joins to. -/
theorem fitted_join {p : Precedence} {op : Token} {l r : Expr} (hop : op.Spelled)
    (hkind : op.kind ∈ p.operators) (hl : FittedExpr l) (hr : FittedExpr r) :
    FittedExpr (p.join l op r) := by
  have hlogical : ∀ q ∈ [Precedence.disjunction, .conjunction], q.operators ⊆ logicalKinds := by
    decide
  have hbinary : ∀ q ∈ [Precedence.equality, .comparison, .sum, .product],
      q.operators ⊆ binaryKinds := by
    decide
  cases p with
  | disjunction | conjunction => exact .logical ⟨hop, hlogical _ (by decide) hkind⟩ hl hr
  | equality | comparison | sum | product =>
      exact .binary ⟨hop, hbinary _ (by decide) hkind⟩ hl hr

/-- A token of the kind that its place asks for. -/
theorem fits_of_kind {t : Token} {kind : TokenKind} (ht : t.Spelled) (hkind : t.kind = kind) :
    t.Fits [kind] := ⟨ht, List.mem_singleton.mpr hkind⟩

/-- A construct of tokens as they are scanned. -/
theorem fitted_of_derives {c : Category} {ts : List Token} {v : c.Tree} (h : Derives c ts v)
    (hts : ∀ t ∈ ts, t.Spelled) : c.Fitted v := by
  induction h with try simp only [List.forall_mem_cons, List.forall_mem_append] at hts
  | noDeclaration | noMethod | noInitializer | absent | noItem | noMore => exact nofun
  | param | params => trivial
  -- what is written with one construct more, or with none
  | ofVarDecl _ ih | ofLetDecl _ ih | ofExprStmt _ ih | ofOperation _ ih | operand _ ih
  | ofCall _ ih | ofPrimary _ ih | ofList _ ih | ofStatement _ _ ih => exact ih hts
  | present _ ih | varInitializer _ ih | letInitializer _ ih | exprInitializer _ ih =>
      rintro e ⟨⟩
      exact ih hts
  -- lists
  | declarations _ _ ih ihs => exact List.forall_mem_cons.mpr ⟨ih hts.1, ihs hts.2⟩
  | methods _ _ _ ih ihs =>
      exact List.forall_mem_cons.mpr ⟨.mk (ih hts.2.1), ihs hts.2.2⟩
  | list _ _ ih ihs => exact List.forall_mem_cons.mpr ⟨ih hts.1, ihs hts.2⟩
  | more _ _ _ ih ihs => exact List.forall_mem_cons.mpr ⟨ih hts.2.1, ihs hts.2.2⟩
  -- declarations
  | classDecl _ _ _ _ _ ih => exact .classDecl nofun (ih hts.2.2.2.1)
  | subclassDecl _ _ _ _ _ _ _ ihe ih =>
      obtain ⟨-, -, -, hus, -, hts, -⟩ := hts
      refine .classDecl ?_ (ih hts)
      rintro e ⟨⟩
      exact ihe hus
  | functionDecl _ _ _ ih => exact .functionDecl (.mk (ih hts.2.2))
  | moduleDecl _ _ _ ih => exact .moduleDecl (ih hts.2.2)
  | varDecl => exact .varDecl nofun
  | varInitialized _ _ _ _ _ ih =>
      refine .varDecl ?_
      rintro e ⟨⟩
      exact ih hts.2.2.2.1
  | letDecl _ _ _ _ _ ih => exact .letDecl (ih hts.2.2.2.1)
  | callable _ _ _ ih => exact ih hts.2.2
  | callableOf _ _ _ _ _ _ ih => exact ih hts.2.2.2
  | block _ _ _ ih => exact ih hts.2.1
  -- statements
  | exprStmt _ _ ih => exact .expression (ih hts.1)
  | print _ _ _ ih => exact .print (ih hts.2.1)
  | ofBlock _ ih => exact .block (ih hts)
  | ifThen _ _ _ _ _ ihe iha =>
      obtain ⟨-, -, hts, -, hus⟩ := hts
      exact .branch (ihe hts) (iha hus) nofun
  | ifElse _ _ _ _ _ _ _ ihe iha ihb =>
      obtain ⟨-, -, hts, -, hus, -, hvs⟩ := hts
      refine .branch (ihe hts) (iha hus) ?_
      rintro b ⟨⟩
      exact ihb hvs
  | whileLoop _ _ _ _ _ ihe ihb =>
      obtain ⟨-, -, hts, -, hus⟩ := hts
      exact .whileLoop (ihe hts) (ihb hus) nofun
  | @forLoop _ _ _ _ _ _ _ _ _ a e i b _ _ _ _ _ _ _ _ iha ihe ihi ihb =>
      obtain ⟨-, -, hts, hus, -, hvs, -, hws⟩ := hts
      refine .block (List.forall_mem_append.mpr ⟨?_, List.forall_mem_cons.mpr ⟨?_, nofun⟩⟩)
      · exact fun st hst => iha hts st (Option.mem_toList.mp hst)
      · refine .whileLoop ?_ (ihb hws) (ihi hvs)
        -- the condition that is left out is no token's
        cases e with
        | none => exact .literal trivial
        | some e => exact ihe hus e rfl
  | returnWith _ _ _ ih => exact .returnWith (ih hts.2.1)
  | breakLoop => exact .breakLoop
  | continueLoop => exact .continueLoop
  -- expressions
  | assign hx _ _ ih => exact .assign (fits_of_kind hts.1 hx) (ih hts.2.2)
  | set _ _ hx _ _ iho ih =>
      obtain ⟨hts, -, ht, -, hus⟩ := hts
      exact .set (fits_of_kind ht hx) (iho hts) (ih hus)
  | setIndex _ hl _ _ _ _ iho ihi ih =>
      obtain ⟨hts, ht, hus, -, -, hvs⟩ := hts
      exact .setIndex (fits_of_kind ht hl) (iho hts) (ihi hus) (ih hvs)
  | join _ hop _ iha ihb =>
      obtain ⟨hts, ht, hus⟩ := hts
      exact fitted_join ht hop (iha hts) (ihb hus)
  | unary hop _ ih => exact .unary ⟨hts.1, by simpa [unaryKinds] using hop⟩ (ih hts.2)
  | call _ _ _ _ hr ihf ih =>
      obtain ⟨hts, -, hus, ht, -⟩ := hts
      exact .call (fits_of_kind ht hr) (ihf hts) (ih hus)
  | get _ _ hx ih => exact .get (fits_of_kind hts.2.2.1 hx) (ih hts.1)
  | index _ hl _ _ iho ihi =>
      exact .index (fits_of_kind hts.2.1 hl) (iho hts.1) (ihi hts.2.2.1)
  | ofFalse | ofTrue | ofNil | ofNumber => exact .literal trivial
  | ofString ht => exact .literal (hts.1.string ht)
  | ofName hx => exact .variable (fits_of_kind hts.1 hx)
  | receiver hk => exact .receiver (fits_of_kind hts.1 hk)
  | superMethod hk _ hx => exact .superMethod (fits_of_kind hts.1 hk) (fits_of_kind hts.2.2.1 hx)
  | grouping _ _ _ ih => exact .grouping (ih hts.2.1)
  | lambda _ _ ih => exact .function (.mk (ih hts.2))
  | namedLambda _ _ _ ih => exact .function (.mk (ih hts.2.2))
  | array hl _ _ ih => exact .array (fits_of_kind hts.1 hl) nofun (ih hts.2.1)
  | sizedArray hl _ _ _ _ ihn ih =>
      obtain ⟨ht, hus, -, hts, -⟩ := hts
      refine .array (fits_of_kind ht hl) ?_ (ih hts)
      rintro e ⟨⟩
      exact ihn hus

end Grammar

/-! ## What is part of a program -/

/-- What is visited is part of such a program. -/
def Visit.Fitted (v : Visit) : Prop :=
  match v.node with
  | .text body => ∀ st ∈ body, FittedStmt st
  | .expr e => FittedExpr e
  | .stmt st => FittedStmt st
  | .function _ d => FittedDecl d

namespace Visit

theorem fitted_operand {c : Context} {es : List Expr} {i : Nat} {w : Visit}
    (h : operand c es i = some w) (hes : ∀ e ∈ es, FittedExpr e) : w.Fitted := by
  obtain ⟨e, he, rfl⟩ := operand_eq h
  exact hes e he

theorem fitted_method {c : Context} {ds : List FunctionDecl} {i : Nat} {w : Visit}
    (h : method c ds i = some w) (hds : ∀ d ∈ ds, FittedDecl d) : w.Fitted := by
  obtain ⟨d, hd, rfl⟩ := method_eq h
  exact hds d hd

theorem fitted_statement {c : Context} {sts : List Stmt} {i : Nat} {w : Visit}
    (h : statement c sts i = some w) (hsts : ∀ st ∈ sts, FittedStmt st) : w.Fitted := by
  obtain ⟨before, st, later, rfl, rfl⟩ := statement_eq h
  exact hsts st (List.mem_append_right before List.mem_cons_self)

theorem fitted_ofExpr {p : Place} {c : Context} {e : Expr} {i : Nat} {w : Visit}
    (h : ofExpr p c e i = some w) (he : FittedExpr e) : w.Fitted := by
  cases exprChild_of_ofExpr h with
  | argument h =>
      cases he with
      | call _ _ hes => exact fitted_operand h hes
  | element h =>
      cases he with
      | array _ _ hes => exact fitted_operand h hes
  | size =>
      cases he with
      | array _ hsize _ => exact hsize _ rfl
  | _ =>
      cases he
      assumption

theorem fitted_ofStmt {p : Place} {c : Context} {st : Stmt} {i : Nat} {w : Visit}
    (h : ofStmt p c st i = some w) (hst : FittedStmt st) : w.Fitted := by
  cases stmtChild_of_ofStmt h with
  | varInitializer =>
      cases hst with
      | varDecl he => exact he _ rfl
  | block h =>
      cases hst with
      | block hbody => exact fitted_statement h hbody
  | onFalse =>
      cases hst with
      | branch _ _ hb => exact hb _ rfl
  | loopStep =>
      cases hst with
      | whileLoop _ _ hs => exact hs _ rfl
  | superclass =>
      cases hst with
      | classDecl he _ => exact he _ rfl
  | method h =>
      cases hst with
      | classDecl _ hms => exact fitted_method h hms
  | returned =>
      cases hst with
      | returnWith he => exact he _ rfl
  | member h =>
      cases hst with
      | moduleDecl hbody => exact fitted_statement h hbody
  | _ =>
      cases hst
      assumption

/-- A child is part of the same program. -/
theorem fitted_child {p : Place} {v w : Visit} {i : Nat} (h : v.child p i = some w)
    (hv : v.Fitted) : w.Fitted := by
  obtain ⟨c, node⟩ := v
  cases node with
  | text body => exact fitted_statement h hv
  | expr e => exact fitted_ofExpr h hv
  | stmt st => exact fitted_ofStmt h hv
  | function kind d =>
      cases hv with
      | mk hbody => exact fitted_statement h hbody

end Visit

/-- The tokens of a program that was read are as they were scanned. -/
theorem WasRead.fitted {body : List Stmt} (h : WasRead body) : ∀ st ∈ body, FittedStmt st := by
  obtain ⟨source, h⟩ := h
  unfold Session.read at h
  split at h
  · cases h
  · rename_i tokens hscan
    split at h
    · cases h
    · rename_i hparse
      cases h
      refine Grammar.fitted_of_derives (derives_of_parse hparse) fun t ht => ?_
      have hmem : t ∈ tokens := (List.takeWhile_sublist _).mem ht
      have hkind := List.mem_takeWhile_imp ht
      obtain ⟨-, rfl⟩ := Token.scan_eq_ok hscan
      rcases List.mem_append.mp hmem with hmem | hmem
      · exact Segment.spelled_ofChars hmem
      · cases List.mem_singleton.mp hmem
        simp [Token.endOf] at hkind

/-- An expression somewhere in a program that was read from a text. -/
def Expr.Parsed (e : Expr) : Prop :=
  ∃ body p c, WasRead body ∧ visitAt [body] p = some ⟨c, .expr e⟩

theorem Expr.Parsed.fitted {e : Expr} (h : e.Parsed) : FittedExpr e := by
  obtain ⟨body, p, c, hread, hv⟩ := h
  exact visitAt_induct (P := Visit.Fitted)
    (fun body hb => by
      cases List.mem_singleton.mp hb
      exact hread.fitted)
    (fun _ _ _ _ _ hv hchild => Visit.fitted_child hchild hv) hv

end Lox
