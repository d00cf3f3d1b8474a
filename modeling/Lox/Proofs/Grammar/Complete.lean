/-
# What derives is read

The tokens of a construct are read as its tree, wherever they stand at the
front of a list, if what comes behind them cannot be taken for a part of it.
`Complete` says for each construct what that means; it is shown by induction
on the derivation, one lemma for each rule that needs an argument.

The rules for operations and calls recur on the left where the readers loop, so
for these `Complete` speaks of the loop that is still to come: what the loop
makes of the tree and the rest, the reader makes of the whole list.

With the converse, `derives_of_statements`, the parser accepts just the lists
that derive, and the tree is the derived one.
-/
import Lox.Proofs.Grammar.Sound

namespace Lox

namespace Reading

variable {α β : Type} {n : Nat}

/-- The construct is read without an error, and `rest` is left. -/
def Reads (r : Reading α n) (v : α) (rest : List Token) : Prop :=
  ∃ h, r = .done v rest [] h

variable {r : Reading α n} {a : α} {ts : List Token} {b : β} {us : List Token}

theorem reads_here (a : α) (ts : List Token) : (here a ts).Reads a ts := ⟨_, rfl⟩

theorem Reads.map (h : r.Reads a ts) (f : α → β) : (r.map f).Reads (f a) ts := by
  obtain ⟨h, rfl⟩ := h
  exact ⟨h, rfl⟩

theorem Reads.widen {k : Nat} {le : n ≤ k} (h : r.Reads a ts) : (r.widen le).Reads a ts := by
  obtain ⟨h, rfl⟩ := h
  exact ⟨_, rfl⟩

theorem Reads.loosen (h : r.Reads a ts) : r.loosen.Reads a ts := h.widen

theorem Reads.noting (h : r.Reads a ts) {earlier : List SyntaxError} (he : earlier = []) :
    (r.noting earlier).Reads a ts := by
  obtain ⟨h, rfl⟩ := h
  subst he
  exact ⟨h, rfl⟩

theorem Reads.andThen {f : α → (rest : List Token) → rest.length < n → Reading β rest.length}
    (h : r.Reads a ts) (hf : ∀ hs, (f a ts hs).Reads b us) : (r.andThen f).Reads b us := by
  obtain ⟨h, rfl⟩ := h
  exact (hf h).widen.noting rfl

theorem Reads.andPerhaps
    {f : α → (rest : List Token) → rest.length < n → Reading β (rest.length + 1)}
    (h : r.Reads a ts) (hf : ∀ hs, (f a ts hs).Reads b us) : (r.andPerhaps f).Reads b us := by
  obtain ⟨h, rfl⟩ := h
  exact (hf h).widen.noting rfl

end Reading

namespace Parser

open Reading Grammar

variable {eof : Token}

theorem reads_expect {kind : TokenKind} (what : String) {t : Token} (rest : List Token)
    (h : t.kind = kind) : (expect eof kind what (t :: rest)).Reads t rest := by
  unfold expect
  simp only [if_pos h]
  exact reads_here t rest

/-! ## What may come behind -/

/-- The kinds of token that come behind an expression. -/
def closers : List TokenKind := [.semicolon, .rightParen, .rightBracket, .comma, .colon]

/-- What comes next is neither a further link of a call nor an operator of a
level of less than `height`. -/
def Ends (height : Nat) (rest : List Token) : Prop :=
  ∀ t us, rest = t :: us → t.kind ∉ [.leftParen, .dot, .leftBracket] ∧
    ∀ q : Precedence, q.height < height → t.kind ∉ q.operators

theorem Ends.mono {k m : Nat} {rest : List Token} (h : Ends k rest) (hm : m ≤ k) : Ends m rest :=
  fun t us heq => ⟨(h t us heq).1, fun q hq => (h t us heq).2 q (Nat.lt_of_lt_of_le hq hm)⟩

theorem ends_of_kind {height : Nat} {t : Token} {rest : List Token}
    (hlink : t.kind ∉ [.leftParen, .dot, .leftBracket])
    (hop : ∀ q : Precedence, q.height < height → t.kind ∉ q.operators) :
    Ends height (t :: rest) := by
  intro t us heq
  cases heq
  exact ⟨hlink, hop⟩

theorem ends_closer (height : Nat) {t : Token} {rest : List Token} (h : t.kind ∈ closers) :
    Ends height (t :: rest) := by
  simp only [closers, List.mem_cons, List.not_mem_nil, or_false] at h
  refine ends_of_kind ?_ fun q _ => ?_
  · rcases h with h | h | h | h | h
    all_goals rw [h]; decide
  · rcases h with h | h | h | h | h
    all_goals rw [h]; cases q <;> decide

theorem ends_equal (height : Nat) {t : Token} {rest : List Token} (h : t.kind = .equal) :
    Ends height (t :: rest) := by
  refine ends_of_kind ?_ fun q _ => ?_
  · rw [h]; decide
  · rw [h]; cases q <;> decide

theorem ends_operator {p : Precedence} {t : Token} {rest : List Token}
    (h : t.kind ∈ p.operators) : Ends p.height (t :: rest) := by
  refine ends_of_kind ?_ fun q hq => ?_
  all_goals revert h; generalize t.kind = k; revert k
  · cases p <;> simp [Precedence.operators]
  · cases p <;> cases q <;> simp [Precedence.operators, Precedence.height] at hq ⊢

/-- A run of statements ends here: the list does, or a brace closes the block. -/
def Stops (inBlock : Bool) (rest : List Token) : Prop :=
  rest = [] ∨ inBlock = true ∧ nextIs .rightBrace rest = true

theorem Stops.noElse {inBlock : Bool} {rest : List Token} (h : Stops inBlock rest) :
    NoElse rest := by
  rcases h with rfl | ⟨-, h⟩
  · rfl
  · cases rest with
    | nil => rfl
    | cons t rest =>
        have ht : t.kind = .rightBrace := of_decide_eq_true h
        exact decide_eq_false (by rw [ht]; decide)

/-! ## What it is to be read -/

variable (eof)

/-- An expression is read before whatever comes behind expressions. -/
def ReadsExpression (ts : List Token) (e : Expr) : Prop :=
  ∀ t rest, t.kind ∈ closers → (expression eof (ts ++ t :: rest)).Reads e (t :: rest)

/-- Further items are read as elements, and as arguments with one before. -/
structure ReadsMore (ts : List Token) (es : List Expr) : Prop where
  elements : ∀ r rest, r.kind = .rightBracket →
    (elementsAfter eof (ts ++ r :: rest)).Reads es rest
  arguments : ∀ count us e r rest, ReadsExpression eof us e →
    count + (e :: es).length ≤ maxArguments → r.kind = .rightParen →
    (argumentList eof count (us ++ (ts ++ r :: rest))).Reads (e :: es) (r :: rest)
  behind : ∀ r rest, r.kind = .rightParen ∨ r.kind = .rightBracket →
    ∃ t us, ts ++ r :: rest = t :: us ∧ t.kind ∈ closers ∧ t.kind ≠ .colon

/-- Items are none, or a first one and more. -/
def ReadsItems (ts : List Token) (es : List Expr) : Prop :=
  ts = [] ∧ es = [] ∨ ∃ us vs e es', ts = us ++ vs ∧ es = e :: es' ∧
    Begins expressionFirst us ∧ ReadsExpression eof us e ∧ ReadsMore eof vs es'

/-- An optional expression is none or an expression. -/
def ReadsOptional (ts : List Token) (e : Option Expr) : Prop :=
  ts = [] ∧ e = none ∨ ∃ e', e = some e' ∧ Begins expressionFirst ts ∧ ReadsExpression eof ts e'

/-- The tokens of a construct are read as its tree. -/
def Complete : (c : Category) → List Token → c.Tree → Prop
  | .program, ts, sts => ∀ inBlock rest, Stops inBlock rest →
      (statements eof inBlock (ts ++ rest)).body = sts ∧
      (statements eof inBlock (ts ++ rest)).noted = [] ∧
      (statements eof inBlock (ts ++ rest)).rest = rest
  | .declaration, ts, st => ∀ rest, NoElse rest → (declaration eof (ts ++ rest)).Reads st rest
  | .varDecl, ts, st => ∃ k us, ts = k :: us ∧ k.kind = .kwVar ∧
      ∀ rest, (varDeclaration eof (us ++ rest)).Reads st rest
  | .letDecl, ts, st => ∃ k us, ts = k :: us ∧ k.kind = .kwLet ∧
      ∀ rest, (letDeclaration eof (us ++ rest)).Reads st rest
  | .methods, ts, ms => ∀ r rest, r.kind = .rightBrace →
      (methods eof (ts ++ r :: rest)).Reads ms rest
  | .callable, ts, v => ∀ k name rest,
      (functionAfterName eof k name (ts ++ rest)).Reads (.mk k name v.1 v.2) rest
  | .params, ts, ps => ∀ count r rest, count + ps.length ≤ maxArguments → r.kind = .rightParen →
      (parameters eof count (ts ++ r :: rest)).Reads ps (r :: rest)
  | .block, ts, body => ∃ l us, ts = l :: us ∧ l.kind = .leftBrace ∧
      ∀ rest, (blockBody eof (us ++ rest)).Reads body rest
  | .statement closed, ts, st => ∀ rest, (closed = false → NoElse rest) →
      (statement eof (ts ++ rest)).Reads st rest
  | .initializer, ts, a => ∀ rest, (forInitializer eof (ts ++ rest)).Reads a rest
  | .exprStmt, ts, st => ∀ rest, (expressionStatement eof (ts ++ rest)).Reads st rest
  | .expression, ts, e => ReadsExpression eof ts e
  | .operation none, ts, e => ∀ rest, Ends 0 rest → (unary eof (ts ++ rest)).Reads e rest
  | .operation (some p), ts, e => ∀ rest v rest', Ends p.height rest →
      (climbOn eof p e rest).Reads v rest' → (climb eof p (ts ++ rest)).Reads v rest'
  | .call, ts, e => ∀ rest v rest',
      (callOn eof e rest).Reads v rest' → (call eof (ts ++ rest)).Reads v rest'
  | .primary, ts, e => ∀ rest, (primary eof (ts ++ rest)).Reads e rest
  | .optional, ts, e => ReadsOptional eof ts e
  | .items, ts, es | .list, ts, es => ReadsItems eof ts es
  | .more, ts, es => ReadsMore eof ts es

variable {eof}

/-! ## Calls and primaries -/

/-- A call ends where no further link comes. -/
theorem reads_callOn {e : Expr} {rest : List Token} (h : Ends 0 rest) :
    (callOn eof e rest).Reads e rest := by
  unfold callOn
  cases rest with
  | nil => exact reads_here e []
  | cons t rest =>
      have hlink := (h t rest rfl).1
      simp only [List.mem_cons, List.not_mem_nil, or_false, not_or] at hlink
      simp only [hlink, if_false]
      exact reads_here e (t :: rest)

theorem complete_ofPrimary {ts : List Token} {e : Expr} (h : Complete eof .primary ts e) :
    Complete eof .call ts e := by
  intro rest v rest' hon
  unfold call
  exact (h rest).andPerhaps fun _ => hon

theorem complete_get {d x : Token} {ts : List Token} {o : Expr} (h : Complete eof .call ts o)
    (hd : d.kind = .dot) (hx : x.kind = .identifier) :
    Complete eof .call (ts ++ [d, x]) (.get o x) := by
  intro rest v rest' hon
  rw [List.append_assoc]
  refine h _ v rest' ?_
  show (callOn eof o (d :: x :: rest)).Reads v rest'
  unfold callOn
  simp only [hd, reduceCtorEq, if_false, if_true]
  exact ((reads_expect _ _ hx).andPerhaps fun _ => hon).loosen.loosen

theorem complete_index {l r : Token} {ts us : List Token} {o i : Expr}
    (h : Complete eof .call ts o) (hl : l.kind = .leftBracket) (hi : ReadsExpression eof us i)
    (hr : r.kind = .rightBracket) :
    Complete eof .call (ts ++ l :: (us ++ [r])) (.index o l i) := by
  intro rest v rest' hon
  have hassoc : ts ++ l :: (us ++ [r]) ++ rest = ts ++ l :: (us ++ r :: rest) := by simp
  rw [hassoc]
  refine h _ v rest' ?_
  unfold callOn
  simp only [hl, reduceCtorEq, if_false, if_true]
  refine ((hi r rest (by rw [hr]; decide)).andThen fun _ => ?_).loosen.loosen
  exact (reads_expect _ _ hr).andPerhaps fun _ => hon

theorem reads_arguments {us rest : List Token} {es : List Expr} {r : Token}
    (h : ReadsItems eof us es) (hle : es.length ≤ maxArguments) (hr : r.kind = .rightParen) :
    (arguments eof (us ++ r :: rest)).Reads (es, r) rest := by
  unfold arguments
  rcases h with ⟨rfl, rfl⟩ | ⟨vs, ws, e, es, rfl, rfl, ⟨t, vs, rfl, ht⟩, he, hmore⟩
  · simp only [List.nil_append, if_pos hr]
    exact reads_here _ _
  · have htr : t.kind ≠ .rightParen := Begins.ne ⟨t, [], rfl, ht⟩ (by decide)
    simp only [List.cons_append, if_neg htr]
    have hlist := hmore.arguments 0 (t :: vs) e r rest he (by simpa using hle) hr
    simp only [List.cons_append] at hlist
    rw [List.append_assoc]
    exact hlist.andThen fun _ => (reads_expect _ _ hr).map _

theorem complete_call {l r : Token} {ts us : List Token} {f : Expr} {es : List Expr}
    (h : Complete eof .call ts f) (hl : l.kind = .leftParen) (hes : ReadsItems eof us es)
    (hle : es.length ≤ maxArguments) (hr : r.kind = .rightParen) :
    Complete eof .call (ts ++ l :: (us ++ [r])) (.call f r es) := by
  intro rest v rest' hon
  have hassoc : ts ++ l :: (us ++ [r]) ++ rest = ts ++ l :: (us ++ r :: rest) := by simp
  rw [hassoc]
  refine h _ v rest' ?_
  unfold callOn
  simp only [hl, if_true]
  refine ((reads_arguments hes hle hr).andPerhaps fun _ => ?_).loosen.loosen
  exact hon

theorem reads_functionOfLambda {k : Token} {ts : List Token} {v : List Token × List Stmt}
    (h : Complete eof .callable ts v) (hts : Begins [.leftParen] ts) (rest : List Token) :
    (lambda eof k (ts ++ rest)).Reads (.mk k none v.1 v.2) rest := by
  obtain ⟨l, ts, rfl, hl⟩ := hts
  have hl' : l.kind ≠ .identifier := Begins.ne ⟨l, [], rfl, hl⟩ (by decide)
  have hfun := h k none rest
  unfold lambda
  simp only [List.cons_append, if_neg hl']
  exact hfun

theorem complete_lambda {k : Token} {ts : List Token} {v : List Token × List Stmt}
    (hk : k.kind = .kwFun) (h : Complete eof .callable ts v) (hts : Begins [.leftParen] ts) :
    Complete eof .primary (k :: ts) (.function (.mk k none v.1 v.2)) := by
  intro rest
  show (primary eof (k :: (ts ++ rest))).Reads _ rest
  unfold primary
  simp only [hk]
  exact ((reads_functionOfLambda h hts rest).map _).loosen

theorem complete_namedLambda {k x : Token} {ts : List Token} {v : List Token × List Stmt}
    (hk : k.kind = .kwFun) (hx : x.kind = .identifier) (h : Complete eof .callable ts v) :
    Complete eof .primary (k :: x :: ts) (.function (.mk k (some x) v.1 v.2)) := by
  intro rest
  show (primary eof (k :: x :: (ts ++ rest))).Reads _ rest
  unfold primary
  simp only [hk]
  unfold lambda
  simp only [if_pos hx]
  exact (((h k (some x) rest).loosen).map _).loosen

theorem complete_grouping {l r : Token} {ts : List Token} {e : Expr} (hl : l.kind = .leftParen)
    (h : ReadsExpression eof ts e) (hr : r.kind = .rightParen) :
    Complete eof .primary (l :: (ts ++ [r])) (.grouping e) := by
  intro rest
  have hassoc : l :: (ts ++ [r]) ++ rest = l :: (ts ++ r :: rest) := by simp
  rw [hassoc]
  unfold primary
  simp only [hl]
  refine ((h r rest (by rw [hr]; decide)).andThen fun _ => ?_).loosen
  exact (reads_expect _ _ hr).map _

/-- A primary of one token is read as soon as it is the first one. -/
theorem complete_ofToken {t : Token} {e : Expr}
    (h : ∀ rest, primary eof (t :: rest) = (here e rest)) : Complete eof .primary [t] e := by
  intro rest
  show (primary eof (t :: rest)).Reads e rest
  rw [h rest]
  exact reads_here e rest

theorem complete_ofName {x : Token} (hx : x.kind = .identifier) :
    Complete eof .primary [x] (.variable x none) :=
  complete_ofToken fun rest => by unfold primary; simp only [hx]

theorem complete_superMethod {k d x : Token} (hk : k.kind = .kwSuper) (hd : d.kind = .dot)
    (hx : x.kind = .identifier) : Complete eof .primary [k, d, x] (.superMethod k x none) := by
  intro rest
  show (primary eof (k :: d :: x :: rest)).Reads _ rest
  unfold primary
  simp only [hk]
  refine ((reads_expect _ _ hd).andThen fun _ => ?_).loosen
  exact (reads_expect _ _ hx).map _

theorem reads_elements {ts rest : List Token} {es : List Expr} {r : Token}
    (h : ReadsItems eof ts es) (hr : r.kind = .rightBracket) :
    (elements eof (ts ++ r :: rest)).Reads es rest := by
  unfold elements
  rcases h with ⟨rfl, rfl⟩ | ⟨us, vs, e, es, rfl, rfl, ⟨t, us, rfl, ht⟩, he, hmore⟩
  · simp only [List.nil_append, if_pos hr]
    exact reads_here _ _
  · have htr : t.kind ≠ .rightBracket := Begins.ne ⟨t, [], rfl, ht⟩ (by decide)
    obtain ⟨c, ws, hws, hc, -⟩ := hmore.behind r rest (.inr hr)
    have hexpr := he c ws hc
    rw [← hws] at hexpr
    have htail := hmore.elements r rest hr
    rw [List.append_assoc]
    simp only [List.cons_append, if_neg htr]
    refine hexpr.andThen fun _ => ?_
    exact htail.map _

theorem complete_array {l r : Token} {ts : List Token} {es : List Expr}
    (hl : l.kind = .leftBracket) (h : ReadsItems eof ts es) (hr : r.kind = .rightBracket) :
    Complete eof .primary (l :: (ts ++ [r])) (.array l none es) := by
  intro rest
  have hassoc : l :: (ts ++ [r]) ++ rest = l :: (ts ++ r :: rest) := by simp
  rw [hassoc]
  unfold primary
  simp only [hl]
  refine Reads.loosen ?_
  unfold array
  rcases h with ⟨rfl, rfl⟩ | ⟨us, vs, e, es, rfl, rfl, ⟨t, us, rfl, ht⟩, he, hmore⟩
  · simp only [List.nil_append, if_pos hr]
    exact reads_here _ _
  · have htr : t.kind ≠ .rightBracket := Begins.ne ⟨t, [], rfl, ht⟩ (by decide)
    obtain ⟨c, ws, hws, hc, hcolon⟩ := hmore.behind r rest (.inr hr)
    have hexpr := he c ws hc
    have hnext : ¬ nextIs .colon (vs ++ r :: rest) = true := by
      rw [hws]
      exact fun h => hcolon (of_decide_eq_true h)
    rw [← hws] at hexpr
    have htail := hmore.elements r rest hr
    rw [List.append_assoc]
    simp only [List.cons_append, if_neg htr]
    refine hexpr.andThen fun _ => ?_
    unfold arrayAfter
    simp only [if_neg hnext]
    exact htail.map _

theorem complete_sizedArray {l c r : Token} {us ts : List Token} {n : Expr} {es : List Expr}
    (hl : l.kind = .leftBracket) (hn : ReadsExpression eof us n)
    (hus : Begins expressionFirst us) (hc : c.kind = .colon) (h : ReadsItems eof ts es)
    (hr : r.kind = .rightBracket) :
    Complete eof .primary (l :: (us ++ c :: (ts ++ [r]))) (.array l (some n) es) := by
  intro rest
  obtain ⟨t, us, rfl, ht⟩ := hus
  have hassoc : l :: (t :: us ++ c :: (ts ++ [r])) ++ rest =
      l :: t :: (us ++ c :: (ts ++ r :: rest)) := by simp
  rw [hassoc]
  have htr : t.kind ≠ .rightBracket := Begins.ne ⟨t, [], rfl, ht⟩ (by decide)
  unfold primary
  simp only [hl]
  refine Reads.loosen ?_
  unfold array
  simp only [if_neg htr]
  refine (hn c (ts ++ r :: rest) (by rw [hc]; decide)).andThen fun _ => ?_
  unfold arrayAfter
  have hnext : nextIs .colon (c :: (ts ++ r :: rest)) = true := decide_eq_true hc
  simp only [hnext, if_true]
  refine (reads_expect _ _ hc).andThen fun _ => ?_
  exact (reads_elements h hr).map _

/-! ## Operations and expressions -/

/-- No operator of the level comes next. -/
theorem reads_climbOn {p : Precedence} {e : Expr} {height : Nat} {rest : List Token}
    (h : Ends height rest) (hp : p.height < height) : (climbOn eof p e rest).Reads e rest := by
  unfold climbOn
  cases rest with
  | nil => exact reads_here e []
  | cons t rest =>
      simp only [if_neg ((h t rest rfl).2 p hp)]
      exact reads_here e (t :: rest)

theorem complete_ofCall {ts : List Token} {e : Expr} (h : Complete eof .call ts e)
    (hts : Begins primaryFirst ts) : Complete eof (.operation none) ts e := by
  intro rest hends
  obtain ⟨t, ts, rfl, ht⟩ := hts
  have hop : ¬ (t.kind = .bang ∨ t.kind = .minus) := by
    rintro (hk | hk)
    all_goals rw [hk] at ht; exact absurd ht (by decide)
  have hcall := h rest e rest (reads_callOn hends)
  unfold unary
  simp only [List.cons_append, if_neg hop]
  exact hcall

theorem complete_unary {op : Token} {ts : List Token} {e : Expr}
    (hop : op.kind = .bang ∨ op.kind = .minus) (h : Complete eof (.operation none) ts e) :
    Complete eof (.operation none) (op :: ts) (.unary op e) := by
  intro rest hends
  show (unary eof (op :: (ts ++ rest))).Reads _ rest
  unfold unary
  simp only [if_pos hop]
  exact ((h rest hends).map _).loosen

theorem reads_operand {p : Precedence} {ts rest : List Token} {e : Expr}
    (h : Complete eof (.operation p.tighter) ts e) (hends : Ends p.height rest) :
    (operand eof p (ts ++ rest)).Reads e rest := by
  unfold operand
  split
  · rename_i q hq
    rw [hq] at h
    have hlt : q.height < p.height := Precedence.height_tighter hq
    exact h rest e rest (hends.mono (Nat.le_of_lt hlt)) (reads_climbOn hends hlt)
  · rename_i hnone
    rw [hnone] at h
    exact h rest (hends.mono (Nat.zero_le _))

theorem complete_operand {p : Precedence} {ts : List Token} {e : Expr}
    (h : Complete eof (.operation p.tighter) ts e) : Complete eof (.operation (some p)) ts e := by
  intro rest v rest' hends hon
  unfold climb
  exact (reads_operand h hends).andPerhaps fun _ => hon

theorem complete_join {p : Precedence} {op : Token} {ts us : List Token} {a b : Expr}
    (ha : Complete eof (.operation (some p)) ts a) (hop : op.kind ∈ p.operators)
    (hb : Complete eof (.operation p.tighter) us b) :
    Complete eof (.operation (some p)) (ts ++ op :: us) (p.join a op b) := by
  intro rest v rest' hends hon
  rw [List.append_assoc]
  refine ha _ v rest' (ends_operator hop) ?_
  show (climbOn eof p a (op :: (us ++ rest))).Reads v rest'
  unfold climbOn
  simp only [if_pos hop]
  refine ((reads_operand hb hends).andPerhaps fun _ => ?_).loosen.loosen
  exact hon

/-- A call by itself is an operation of the loosest level. -/
theorem reads_climb_of_call {ts rest : List Token} {e : Expr} (h : Complete eof .call ts e)
    (hts : Begins primaryFirst ts) (hends : Ends 6 rest) :
    (climb eof .disjunction (ts ++ rest)).Reads e rest := by
  have hproduct : Complete eof (.operation (some .product)) ts e :=
    complete_operand (p := .product) (complete_ofCall h hts)
  have hcomparison : Complete eof (.operation (some .comparison)) ts e :=
    complete_operand (p := .comparison) (complete_operand (p := .sum) hproduct)
  have hconjunction : Complete eof (.operation (some .conjunction)) ts e :=
    complete_operand (p := .conjunction) (complete_operand (p := .equality) hcomparison)
  have hdisjunction : Complete eof (.operation (some .disjunction)) ts e :=
    complete_operand (p := .disjunction) hconjunction
  exact hdisjunction rest e rest (hends.mono (by decide)) (reads_climbOn hends (by decide))

theorem complete_ofOperation {ts : List Token} {e : Expr}
    (h : Complete eof (.operation (some .disjunction)) ts e) : ReadsExpression eof ts e := by
  intro t rest ht
  have hequal : t.kind ≠ .equal := fun hk => by rw [hk] at ht; exact absurd ht (by decide)
  unfold expression
  refine (h _ e _ (ends_closer _ ht)
    (reads_climbOn (ends_closer 6 ht) (by decide))).andPerhaps fun _ => ?_
  simp only [if_neg hequal]
  exact reads_here e (t :: rest)

theorem reads_assignment {q : Token} {ts us : List Token} {target v e : Expr}
    (h : Complete eof .call ts target) (hts : Begins primaryFirst ts) (hq : q.kind = .equal)
    (hv : ReadsExpression eof us v) (he : target.assigned? v = some e) :
    ReadsExpression eof (ts ++ q :: us) e := by
  intro t rest ht
  rw [List.append_assoc]
  unfold expression
  refine (reads_climb_of_call h hts (ends_equal 6 hq)).andPerhaps fun _ => ?_
  simp only [if_pos hq]
  refine ((hv t rest ht).andPerhaps fun _ => ?_).loosen.loosen
  simp only [he]
  exact reads_here e (t :: rest)

theorem complete_assign {x q : Token} {ts : List Token} {v : Expr} (hx : x.kind = .identifier)
    (hq : q.kind = .equal) (hv : ReadsExpression eof ts v) :
    ReadsExpression eof (x :: q :: ts) (.assign x v none) :=
  reads_assignment (complete_ofPrimary (complete_ofName hx))
    ⟨x, [], rfl, by rw [hx]; decide⟩ hq hv rfl

theorem complete_set {d x q : Token} {ts us : List Token} {o v : Expr}
    (h : Complete eof .call ts o) (hts : Begins primaryFirst ts) (hd : d.kind = .dot)
    (hx : x.kind = .identifier) (hq : q.kind = .equal) (hv : ReadsExpression eof us v) :
    ReadsExpression eof (ts ++ d :: x :: q :: us) (.set o x v) := by
  have hset := reads_assignment (complete_get h hd hx) (hts.append [d, x]) hq hv rfl
  rw [List.append_assoc] at hset
  exact hset

theorem complete_setIndex {l r q : Token} {ts us vs : List Token} {o i v : Expr}
    (h : Complete eof .call ts o) (hts : Begins primaryFirst ts) (hl : l.kind = .leftBracket)
    (hi : ReadsExpression eof us i) (hr : r.kind = .rightBracket) (hq : q.kind = .equal)
    (hv : ReadsExpression eof vs v) :
    ReadsExpression eof (ts ++ l :: (us ++ r :: q :: vs)) (.setIndex o l i v) := by
  have hset := reads_assignment (complete_index h hl hi hr) (hts.append (l :: (us ++ [r])))
    hq hv rfl
  have hassoc : ts ++ l :: (us ++ [r]) ++ q :: vs = ts ++ l :: (us ++ r :: q :: vs) := by simp
  rwa [hassoc] at hset

/-! ## Lists of expressions -/

theorem complete_noMore : ReadsMore eof [] [] where
  elements r rest hr := by
    show (elementsAfter eof (r :: rest)).Reads [] rest
    unfold elementsAfter
    simp only [hr, reduceCtorEq, if_false, if_true]
    exact reads_here _ _
  arguments count us e r rest he hle hr := by
    show (argumentList eof count (us ++ r :: rest)).Reads [e] (r :: rest)
    have hcount : ¬ maxArguments ≤ count := by
      simp only [List.length_cons, List.length_nil] at hle
      omega
    unfold argumentList
    simp only [if_neg hcount]
    refine (he r rest (by rw [hr]; decide)).andPerhaps fun _ => ?_
    simp only [hr, reduceCtorEq, if_false]
    exact reads_here _ _
  behind r rest hr := by
    refine ⟨r, rest, rfl, ?_, ?_⟩
    all_goals rcases hr with hr | hr <;> rw [hr] <;> decide

theorem complete_more {c : Token} {ts us : List Token} {e : Expr} {es : List Expr}
    (hc : c.kind = .comma) (he : ReadsExpression eof ts e) (h : ReadsMore eof us es) :
    ReadsMore eof (c :: (ts ++ us)) (e :: es) where
  elements r rest hr := by
    have hassoc : c :: (ts ++ us) ++ r :: rest = c :: (ts ++ (us ++ r :: rest)) := by simp
    obtain ⟨t, ws, hws, ht, -⟩ := h.behind r rest (.inr hr)
    have hexpr := he t ws ht
    rw [← hws] at hexpr
    rw [hassoc]
    unfold elementsAfter
    simp only [if_pos hc]
    refine (hexpr.andThen fun _ => ?_).loosen
    exact (h.elements r rest hr).map _
  arguments count vs e' r rest he' hle hr := by
    have hassoc : vs ++ (c :: (ts ++ us) ++ r :: rest) = vs ++ c :: (ts ++ (us ++ r :: rest)) := by
      simp
    have hcount : ¬ maxArguments ≤ count := by
      simp only [List.length_cons] at hle
      omega
    rw [hassoc]
    unfold argumentList
    simp only [if_neg hcount]
    refine (he' c _ (by rw [hc]; decide)).andPerhaps fun _ => ?_
    simp only [if_pos hc]
    refine ((h.arguments (count + 1) ts e r rest he ?_ hr).map _).loosen.loosen
    simp only [List.length_cons] at hle ⊢
    omega
  behind r rest hr :=
    ⟨c, _, rfl, by rw [hc]; decide, by rw [hc]; decide⟩

/-! ## Functions -/

theorem complete_param {x : Token} (hx : x.kind = .identifier) :
    Complete eof .params [x] [x] := by
  intro count r rest hle hr
  have hcount : ¬ maxArguments ≤ count := by
    simp only [List.length_cons, List.length_nil] at hle
    omega
  show (parameters eof count (x :: r :: rest)).Reads [x] (r :: rest)
  unfold parameters
  simp only [if_neg hcount]
  refine (reads_expect _ _ hx).andPerhaps fun _ => ?_
  simp only [hr, reduceCtorEq, if_false]
  exact reads_here _ _

theorem complete_params {x c : Token} {ts ps : List Token} (hx : x.kind = .identifier)
    (hc : c.kind = .comma) (h : Complete eof .params ts ps) :
    Complete eof .params (x :: c :: ts) (x :: ps) := by
  intro count r rest hle hr
  have hcount : ¬ maxArguments ≤ count := by
    simp only [List.length_cons] at hle
    omega
  show (parameters eof count (x :: c :: (ts ++ r :: rest))).Reads (x :: ps) (r :: rest)
  unfold parameters
  simp only [if_neg hcount]
  refine (reads_expect _ _ hx).andPerhaps fun _ => ?_
  simp only [if_pos hc]
  refine ((h (count + 1) r rest ?_ hr).map _).loosen.loosen
  simp only [List.length_cons] at hle
  omega

theorem reads_functionBody {k r : Token} {name : Option Token} {ps ts rest : List Token}
    {body : List Stmt} (hr : r.kind = .rightParen) (h : Complete eof .block ts body) :
    (functionBody eof k name ps (r :: (ts ++ rest))).Reads (.mk k name ps body) rest := by
  obtain ⟨l, us, rfl, hl, hbody⟩ := h
  unfold functionBody
  refine (reads_expect _ _ hr).andThen fun _ => ?_
  refine (reads_expect _ _ hl).andThen fun _ => ?_
  exact (hbody rest).map _

theorem complete_callable {l r : Token} {ts : List Token} {body : List Stmt}
    (hl : l.kind = .leftParen) (hr : r.kind = .rightParen) (h : Complete eof .block ts body) :
    Complete eof .callable (l :: r :: ts) ([], body) := by
  intro k name rest
  show (functionAfterName eof k name (l :: r :: (ts ++ rest))).Reads _ rest
  unfold functionAfterName
  refine (reads_expect _ _ hl).andThen fun _ => ?_
  have hnext : nextIs .rightParen (r :: (ts ++ rest)) = true := decide_eq_true hr
  simp only [hnext, if_true]
  exact reads_functionBody hr h

theorem complete_callableOf {l r : Token} {us ts ps : List Token} {body : List Stmt}
    (hl : l.kind = .leftParen) (hps : Complete eof .params us ps)
    (hus : Begins [.identifier] us) (hle : ps.length ≤ maxArguments) (hr : r.kind = .rightParen)
    (h : Complete eof .block ts body) :
    Complete eof .callable (l :: (us ++ r :: ts)) (ps, body) := by
  intro k name rest
  have hassoc : l :: (us ++ r :: ts) ++ rest = l :: (us ++ r :: (ts ++ rest)) := by simp
  rw [hassoc]
  unfold functionAfterName
  refine (reads_expect _ _ hl).andThen fun _ => ?_
  have hnext : nextIs .rightParen (us ++ r :: (ts ++ rest)) = false :=
    (hus.append _).nextIs_eq_false (by decide)
  simp only [hnext, Bool.false_eq_true, if_false]
  refine (hps 0 r (ts ++ rest) (by omega) hr).andThen fun _ => ?_
  exact reads_functionBody hr h

theorem complete_methods {x : Token} {ts us : List Token} {v : List Token × List Stmt}
    {ms : List FunctionDecl} (hx : x.kind = .identifier) (h : Complete eof .callable ts v)
    (hms : Complete eof .methods us ms) :
    Complete eof .methods (x :: (ts ++ us)) (.mk x (some x) v.1 v.2 :: ms) := by
  intro r rest hr
  have hassoc : x :: (ts ++ us) ++ r :: rest = x :: (ts ++ (us ++ r :: rest)) := by simp
  rw [hassoc]
  unfold methods
  simp only [hx, reduceCtorEq, if_false]
  have hnamed : (functionNamed eof x (x :: (ts ++ (us ++ r :: rest)))).Reads
      (.mk x (some x) v.1 v.2) (us ++ r :: rest) := by
    unfold functionNamed
    refine (reads_expect _ _ hx).andThen fun _ => ?_
    exact h x (some x) (us ++ r :: rest)
  refine hnamed.andThen fun _ => ?_
  exact (hms r rest hr).map _

/-! ## Runs of statements -/

theorem complete_noDeclaration : Complete eof .program [] [] := by
  intro inBlock rest hstops
  show (statements eof inBlock rest).body = [] ∧ _
  rcases hstops with rfl | ⟨rfl, hb⟩
  · unfold statements
    exact ⟨rfl, rfl, rfl⟩
  · cases rest with
    | nil => cases hb
    | cons t rest => exact statements_brace eof rest (of_decide_eq_true hb)

theorem complete_declarations {ts us : List Token} {st : Stmt} {sts : List Stmt}
    (h : Complete eof .declaration ts st) (hts : Begins declarationFirst ts)
    (hsts : Complete eof .program us sts) (hus : Begins declarationFirst us ∨ us = []) :
    Complete eof .program (ts ++ us) (st :: sts) := by
  intro inBlock rest hstops
  have hno : NoElse (us ++ rest) := by
    rcases hus with hus | rfl
    · exact (hus.append rest).nextIs_eq_false (by decide)
    · exact hstops.noElse
  obtain ⟨hbody, hnoted, hrest⟩ := hsts inBlock rest hstops
  obtain ⟨hs, hd⟩ := h (us ++ rest) hno
  obtain ⟨t, ts, rfl, ht⟩ := hts
  have hbrace : (inBlock && decide (t.kind = .rightBrace)) = false := by
    have hne : t.kind ≠ .rightBrace := Begins.ne ⟨t, [], rfl, ht⟩ (by decide)
    simp [hne]
  obtain ⟨hbody', hnoted', hrest'⟩ := statements_done inBlock hbrace hd
  rw [List.append_assoc]
  refine ⟨?_, ?_, ?_⟩
  · exact hbody'.trans (by rw [hbody])
  · exact hnoted'.trans hnoted
  · exact hrest'.trans hrest

theorem complete_block {l r : Token} {ts : List Token} {body : List Stmt}
    (hl : l.kind = .leftBrace) (h : Complete eof .program ts body) (hr : r.kind = .rightBrace) :
    Complete eof .block (l :: (ts ++ [r])) body := by
  refine ⟨l, ts ++ [r], rfl, hl, fun rest => ?_⟩
  have hassoc : ts ++ [r] ++ rest = ts ++ r :: rest := by simp
  obtain ⟨hbody, hnoted, hrest⟩ := h true (r :: rest) (.inr ⟨rfl, decide_eq_true hr⟩)
  rw [hassoc]
  have hbrace : ∀ what, (expect eof .rightBrace what
      (statements eof true (ts ++ r :: rest)).rest).Reads r rest := by
    intro what
    rw [hrest]
    exact reads_expect what rest hr
  unfold blockBody
  refine Reads.noting ?_ hnoted
  rw [← hbody]
  exact ((hbrace _).map _).widen

/-! ## Declarations -/

theorem complete_varDecl {k x s : Token} (hk : k.kind = .kwVar) (hx : x.kind = .identifier)
    (hs : s.kind = .semicolon) : Complete eof .varDecl [k, x, s] (.varDecl x none) := by
  refine ⟨k, [x, s], rfl, hk, fun rest => ?_⟩
  show (varDeclaration eof (x :: s :: rest)).Reads _ rest
  unfold varDeclaration
  refine (reads_expect _ _ hx).andThen fun _ => ?_
  simp only [nextIs, hs, reduceCtorEq, decide_false, Bool.false_eq_true, if_false]
  exact (reads_expect _ _ hs).map _

theorem complete_varInitialized {k x q s : Token} {ts : List Token} {e : Expr}
    (hk : k.kind = .kwVar) (hx : x.kind = .identifier) (hq : q.kind = .equal)
    (he : ReadsExpression eof ts e) (hs : s.kind = .semicolon) :
    Complete eof .varDecl (k :: x :: q :: (ts ++ [s])) (.varDecl x (some e)) := by
  refine ⟨k, _, rfl, hk, fun rest => ?_⟩
  have hassoc : x :: q :: (ts ++ [s]) ++ rest = x :: q :: (ts ++ s :: rest) := by simp
  rw [hassoc]
  unfold varDeclaration
  refine (reads_expect _ _ hx).andThen fun _ => ?_
  have hnext : nextIs .equal (q :: (ts ++ s :: rest)) = true := decide_eq_true hq
  simp only [hnext, if_true]
  refine (reads_expect _ _ hq).andThen fun _ => ?_
  refine (he s rest (by rw [hs]; decide)).andThen fun _ => ?_
  exact (reads_expect _ _ hs).map _

theorem complete_letDecl {k x q s : Token} {ts : List Token} {e : Expr}
    (hk : k.kind = .kwLet) (hx : x.kind = .identifier) (hq : q.kind = .equal)
    (he : ReadsExpression eof ts e) (hs : s.kind = .semicolon) :
    Complete eof .letDecl (k :: x :: q :: (ts ++ [s])) (.letDecl x e) := by
  refine ⟨k, _, rfl, hk, fun rest => ?_⟩
  have hassoc : x :: q :: (ts ++ [s]) ++ rest = x :: q :: (ts ++ s :: rest) := by simp
  rw [hassoc]
  unfold letDeclaration
  refine (reads_expect _ _ hx).andThen fun _ => ?_
  refine (reads_expect _ _ hq).andThen fun _ => ?_
  refine (he s rest (by rw [hs]; decide)).andThen fun _ => ?_
  exact (reads_expect _ _ hs).map _

theorem reads_classBody {x l r : Token} {e : Option Expr} {ts rest : List Token}
    {ms : List FunctionDecl} (hl : l.kind = .leftBrace) (h : Complete eof .methods ts ms)
    (hr : r.kind = .rightBrace) :
    (classBody eof x e (l :: (ts ++ r :: rest))).Reads (.classDecl x e ms) rest := by
  unfold classBody
  refine (reads_expect _ _ hl).andThen fun _ => ?_
  exact (h r rest hr).map _

theorem complete_classDecl {k x l r : Token} {ts : List Token} {ms : List FunctionDecl}
    (hk : k.kind = .kwClass) (hx : x.kind = .identifier) (hl : l.kind = .leftBrace)
    (h : Complete eof .methods ts ms) (hr : r.kind = .rightBrace) :
    Complete eof .declaration (k :: x :: l :: (ts ++ [r])) (.classDecl x none ms) := by
  intro rest _
  have hassoc : k :: x :: l :: (ts ++ [r]) ++ rest = k :: x :: l :: (ts ++ r :: rest) := by simp
  rw [hassoc]
  unfold declaration
  simp only [hk]
  refine Reads.loosen ?_
  unfold classDeclaration
  refine (reads_expect _ _ hx).andThen fun _ => ?_
  simp only [nextIs, hl, reduceCtorEq, decide_false, Bool.false_eq_true, if_false]
  exact reads_classBody hl h hr

theorem complete_subclassDecl {k x s l r : Token} {us ts : List Token} {e : Expr}
    {ms : List FunctionDecl} (hk : k.kind = .kwClass) (hx : x.kind = .identifier)
    (hs : s.kind = .less) (he : Complete eof .call us e) (hl : l.kind = .leftBrace)
    (h : Complete eof .methods ts ms) (hr : r.kind = .rightBrace) :
    Complete eof .declaration (k :: x :: s :: (us ++ l :: (ts ++ [r])))
      (.classDecl x (some e) ms) := by
  intro rest _
  have hassoc : k :: x :: s :: (us ++ l :: (ts ++ [r])) ++ rest =
      k :: x :: s :: (us ++ l :: (ts ++ r :: rest)) := by simp
  have hends : Ends 0 (l :: (ts ++ r :: rest)) :=
    ends_of_kind (by rw [hl]; decide) fun q hq => absurd hq (Nat.not_lt_zero _)
  rw [hassoc]
  unfold declaration
  simp only [hk]
  refine Reads.loosen ?_
  unfold classDeclaration
  refine (reads_expect _ _ hx).andThen fun _ => ?_
  have hnext : nextIs .less (s :: (us ++ l :: (ts ++ r :: rest))) = true := decide_eq_true hs
  simp only [hnext, if_true]
  refine (reads_expect _ _ hs).andThen fun _ => ?_
  refine (he _ e _ (reads_callOn hends)).andThen fun _ => ?_
  exact reads_classBody hl h hr

theorem complete_functionDecl {k x : Token} {ts : List Token} {v : List Token × List Stmt}
    (hk : k.kind = .kwFun) (hx : x.kind = .identifier) (h : Complete eof .callable ts v) :
    Complete eof .declaration (k :: x :: ts) (.functionDecl (.mk k (some x) v.1 v.2)) := by
  intro rest _
  show (declaration eof (k :: x :: (ts ++ rest))).Reads _ rest
  unfold declaration
  have hnext : nextIs .identifier (x :: (ts ++ rest)) = true := decide_eq_true hx
  simp only [hk, hnext, if_true]
  refine Reads.loosen (Reads.map ?_ _)
  unfold functionNamed
  refine (reads_expect _ _ hx).andThen fun _ => ?_
  exact h k (some x) rest

theorem complete_moduleDecl {k x : Token} {ts : List Token} {body : List Stmt}
    (hk : k.kind = .kwModule) (hx : x.kind = .identifier) (h : Complete eof .block ts body) :
    Complete eof .declaration (k :: x :: ts) (.moduleDecl x body) := by
  intro rest _
  obtain ⟨l, us, rfl, hl, hbody⟩ := h
  show (declaration eof (k :: x :: l :: (us ++ rest))).Reads _ rest
  unfold declaration
  simp only [hk]
  refine Reads.loosen ?_
  unfold moduleDeclaration
  refine (reads_expect _ _ hx).andThen fun _ => ?_
  refine (reads_expect _ _ hl).andThen fun _ => ?_
  exact (hbody rest).map _

theorem complete_ofVarDecl {ts : List Token} {st : Stmt} (h : Complete eof .varDecl ts st) :
    Complete eof .declaration ts st := by
  intro rest _
  obtain ⟨k, us, rfl, hk, hst⟩ := h
  show (declaration eof (k :: (us ++ rest))).Reads _ rest
  unfold declaration
  simp only [hk]
  exact (hst rest).loosen

theorem complete_ofLetDecl {ts : List Token} {st : Stmt} (h : Complete eof .letDecl ts st) :
    Complete eof .declaration ts st := by
  intro rest _
  obtain ⟨k, us, rfl, hk, hst⟩ := h
  show (declaration eof (k :: (us ++ rest))).Reads _ rest
  unfold declaration
  simp only [hk]
  exact (hst rest).loosen

/-- A statement where a declaration may stand, if it does not begin as the
declaration of a function does. -/
theorem declaration_of_statement {t : Token} {ts : List Token} (ht : t.kind ∈ statementFirst)
    (h : ¬ BeginsFunction (t :: ts)) : declaration eof (t :: ts) = statement eof (t :: ts) := by
  unfold declaration
  split
  · rename_i hk; rw [hk] at ht; exact absurd ht (by decide)
  · rename_i hk; rw [hk] at ht; exact absurd ht (by decide)
  · rename_i hk; rw [hk] at ht; exact absurd ht (by decide)
  · rename_i hk; rw [hk] at ht; exact absurd ht (by decide)
  · rename_i hk
    have hname : ¬ nextIs .identifier ts = true := fun hname => h ⟨decide_eq_true hk, hname⟩
    rw [if_neg hname]
  · rfl

/-- A statement has more than one token. -/
theorem two_of_statement {closed : Bool} {ts : List Token} {st : Stmt}
    (h : Derives (.statement closed) ts st) : 2 ≤ ts.length := by
  cases h with
  | ofExprStmt h =>
      cases h with
      | exprStmt he _ =>
          obtain ⟨t, us, rfl, -⟩ := he.begins.resolve_right nofun
          simp
  | ofBlock h =>
      cases h with
      | block => simp
  | _ => simp

theorem complete_ofStatement {closed : Bool} {ts : List Token} {st : Stmt}
    (hst : Derives (.statement closed) ts st) (h : Complete eof (.statement closed) ts st)
    (hno : ¬ BeginsFunction ts) : Complete eof .declaration ts st := by
  intro rest helse
  obtain ⟨t, us, rfl, ht⟩ := hst.begins.resolve_right nofun
  have hread := h rest fun _ => helse
  have htwo := two_of_statement hst
  cases us with
  | nil => exact absurd htwo (Nat.not_succ_le_self 1)
  | cons x us =>
      have hdecl : declaration eof (t :: x :: (us ++ rest)) =
          statement eof (t :: x :: (us ++ rest)) := declaration_of_statement ht hno
      show (declaration eof (t :: x :: (us ++ rest))).Reads st rest
      rw [hdecl]
      exact hread

/-! ## Statements -/

theorem complete_exprStmt {s : Token} {ts : List Token} {e : Expr} (he : ReadsExpression eof ts e)
    (hs : s.kind = .semicolon) : Complete eof .exprStmt (ts ++ [s]) (.expression e) := by
  intro rest
  have hassoc : ts ++ [s] ++ rest = ts ++ s :: rest := by simp
  rw [hassoc]
  unfold expressionStatement
  refine (he s rest (by rw [hs]; decide)).andThen fun _ => ?_
  exact (reads_expect _ _ hs).map _

theorem complete_ofExprStmt {ts : List Token} {st : Stmt} (h : Complete eof .exprStmt ts st)
    (hts : Begins expressionFirst ts) : Complete eof (.statement true) ts st := by
  intro rest _
  have hread := h rest
  obtain ⟨t, ts, rfl, ht⟩ := hts
  show (statement eof (t :: (ts ++ rest))).Reads st rest
  unfold statement
  split
  all_goals first
    | exact hread
    | (rename_i hk; rw [hk] at ht; exact absurd ht (by decide))

theorem complete_exprInitializer {ts : List Token} {st : Stmt} (h : Complete eof .exprStmt ts st)
    (hts : Begins expressionFirst ts) : Complete eof .initializer ts (some st) := by
  intro rest
  have hread := h rest
  obtain ⟨t, ts, rfl, ht⟩ := hts
  show (forInitializer eof (t :: (ts ++ rest))).Reads (some st) rest
  unfold forInitializer
  split
  all_goals first
    | exact hread.map _
    | (rename_i hk; rw [hk] at ht; exact absurd ht (by decide))

theorem complete_print {k s : Token} {ts : List Token} {e : Expr} (hk : k.kind = .kwPrint)
    (he : ReadsExpression eof ts e) (hs : s.kind = .semicolon) :
    Complete eof (.statement true) (k :: (ts ++ [s])) (.print e) := by
  intro rest _
  have hassoc : k :: (ts ++ [s]) ++ rest = k :: (ts ++ s :: rest) := by simp
  rw [hassoc]
  unfold statement
  simp only [hk]
  refine ((he s rest (by rw [hs]; decide)).andThen fun _ => ?_).loosen
  exact (reads_expect _ _ hs).map _

theorem complete_ofBlock {ts : List Token} {body : List Stmt} (h : Complete eof .block ts body) :
    Complete eof (.statement true) ts (.block body) := by
  intro rest _
  obtain ⟨l, us, rfl, hl, hbody⟩ := h
  show (statement eof (l :: (us ++ rest))).Reads _ rest
  unfold statement
  simp only [hl]
  exact ((hbody rest).map _).loosen

theorem complete_ifThen {k l r : Token} {closed : Bool} {ts us : List Token} {e : Expr} {a : Stmt}
    (hk : k.kind = .kwIf) (hl : l.kind = .leftParen) (he : ReadsExpression eof ts e)
    (hr : r.kind = .rightParen) (ha : Complete eof (.statement closed) us a) :
    Complete eof (.statement false) (k :: l :: (ts ++ r :: us)) (.branch e a none) := by
  intro rest helse
  have hassoc : k :: l :: (ts ++ r :: us) ++ rest = k :: l :: (ts ++ r :: (us ++ rest)) := by simp
  rw [hassoc]
  unfold statement
  simp only [hk]
  refine Reads.loosen ?_
  unfold ifStatement
  refine (reads_expect _ _ hl).andThen fun _ => ?_
  refine (he r _ (by rw [hr]; decide)).andThen fun _ => ?_
  refine (reads_expect _ _ hr).andThen fun _ => ?_
  refine (ha rest fun _ => helse rfl).andPerhaps fun _ => Reads.map ?_ _
  unfold elseBranch
  cases rest with
  | nil => exact reads_here none []
  | cons t rest =>
      have ht : ¬ t.kind = .kwElse := of_decide_eq_false (helse rfl)
      simp only [if_neg ht]
      exact reads_here none (t :: rest)

theorem complete_ifElse {k l r o : Token} {closed : Bool} {ts us vs : List Token} {e : Expr}
    {a b : Stmt} (hk : k.kind = .kwIf) (hl : l.kind = .leftParen) (he : ReadsExpression eof ts e)
    (hr : r.kind = .rightParen) (ha : Complete eof (.statement true) us a)
    (ho : o.kind = .kwElse) (hb : Complete eof (.statement closed) vs b) :
    Complete eof (.statement closed) (k :: l :: (ts ++ r :: (us ++ o :: vs)))
      (.branch e a (some b)) := by
  intro rest helse
  have hassoc : k :: l :: (ts ++ r :: (us ++ o :: vs)) ++ rest =
      k :: l :: (ts ++ r :: (us ++ o :: (vs ++ rest))) := by simp
  rw [hassoc]
  unfold statement
  simp only [hk]
  refine Reads.loosen ?_
  unfold ifStatement
  refine (reads_expect _ _ hl).andThen fun _ => ?_
  refine (he r _ (by rw [hr]; decide)).andThen fun _ => ?_
  refine (reads_expect _ _ hr).andThen fun _ => ?_
  refine (ha (o :: (vs ++ rest)) nofun).andPerhaps fun _ => Reads.map ?_ _
  unfold elseBranch
  simp only [if_pos ho]
  exact ((hb rest helse).map some).loosen.loosen

theorem complete_whileLoop {k l r : Token} {closed : Bool} {ts us : List Token} {e : Expr}
    {b : Stmt} (hk : k.kind = .kwWhile) (hl : l.kind = .leftParen)
    (he : ReadsExpression eof ts e) (hr : r.kind = .rightParen)
    (hb : Complete eof (.statement closed) us b) :
    Complete eof (.statement closed) (k :: l :: (ts ++ r :: us)) (.whileLoop e b none) := by
  intro rest helse
  have hassoc : k :: l :: (ts ++ r :: us) ++ rest = k :: l :: (ts ++ r :: (us ++ rest)) := by simp
  rw [hassoc]
  unfold statement
  simp only [hk]
  refine Reads.loosen ?_
  unfold whileStatement
  refine (reads_expect _ _ hl).andThen fun _ => ?_
  refine (he r _ (by rw [hr]; decide)).andThen fun _ => ?_
  refine (reads_expect _ _ hr).andThen fun _ => ?_
  exact (hb rest helse).map _

theorem complete_noInitializer {s : Token} (hs : s.kind = .semicolon) :
    Complete eof .initializer [s] none := by
  intro rest
  show (forInitializer eof (s :: rest)).Reads none rest
  unfold forInitializer
  simp only [hs]
  exact reads_here none rest

theorem complete_varInitializer {ts : List Token} {st : Stmt} (h : Complete eof .varDecl ts st) :
    Complete eof .initializer ts (some st) := by
  intro rest
  obtain ⟨k, us, rfl, hk, hst⟩ := h
  show (forInitializer eof (k :: (us ++ rest))).Reads (some st) rest
  unfold forInitializer
  simp only [hk]
  exact ((hst rest).map some).loosen

theorem complete_letInitializer {ts : List Token} {st : Stmt} (h : Complete eof .letDecl ts st) :
    Complete eof .initializer ts (some st) := by
  intro rest
  obtain ⟨k, us, rfl, hk, hst⟩ := h
  show (forInitializer eof (k :: (us ++ rest))).Reads (some st) rest
  unfold forInitializer
  simp only [hk]
  exact ((hst rest).map some).loosen

/-- An expression that may be left out is read with the token that closes it. -/
theorem reads_clause {α : Type} {ts : List Token} {e : Option Expr} (h : ReadsOptional eof ts e)
    {kind : TokenKind} (hcloses : kind ∈ closers) (hfirst : kind ∉ expressionFirst) {c : Token}
    (hc : c.kind = kind) {what : String} {absent v : α} {present : Expr → α}
    (hv : e.elim absent present = v) (rest : List Token) :
    (if nextIs kind (ts ++ c :: rest) then
        (expect eof kind what (ts ++ c :: rest)).map fun _ => absent
      else (expression eof (ts ++ c :: rest)).andThen fun e ts₁ _ =>
        (expect eof kind what ts₁).map fun _ => present e).Reads v rest := by
  subst hv
  rcases h with ⟨rfl, rfl⟩ | ⟨e, rfl, hts, he⟩
  · have hnext : nextIs kind (c :: rest) = true := decide_eq_true hc
    simp only [List.nil_append, hnext, if_true]
    exact (reads_expect _ _ hc).map _
  · have hnext : nextIs kind (ts ++ c :: rest) = false := (hts.append _).nextIs_eq_false hfirst
    simp only [hnext, Bool.false_eq_true, if_false]
    refine (he c rest (hc.symm ▸ hcloses)).andThen fun _ => ?_
    exact (reads_expect _ _ hc).map _

theorem reads_forCondition {ts : List Token} {e : Option Expr} (h : ReadsOptional eof ts e)
    {s : Token} (rest : List Token) (hs : s.kind = .semicolon) :
    (forCondition eof (ts ++ s :: rest)).Reads (e.getD (.literal (.boolean true))) rest := by
  unfold forCondition
  exact reads_clause h (by decide) (by decide) hs (by cases e <;> rfl) rest

theorem reads_forStep {ts : List Token} {e : Option Expr} (h : ReadsOptional eof ts e)
    {r : Token} (rest : List Token) (hr : r.kind = .rightParen) :
    (forStep eof (ts ++ r :: rest)).Reads e rest := by
  unfold forStep
  exact reads_clause h (by decide) (by decide) hr (by cases e <;> rfl) rest

theorem complete_forLoop {k l s r : Token} {closed : Bool} {ts us vs ws : List Token}
    {a : Option Stmt} {e i : Option Expr} {b : Stmt} (hk : k.kind = .kwFor)
    (hl : l.kind = .leftParen) (ha : Complete eof .initializer ts a)
    (he : ReadsOptional eof us e) (hs : s.kind = .semicolon) (hi : ReadsOptional eof vs i)
    (hr : r.kind = .rightParen) (hb : Complete eof (.statement closed) ws b) :
    Complete eof (.statement closed) (k :: l :: (ts ++ (us ++ s :: (vs ++ r :: ws))))
      (.forLoop a (e.getD (.literal (.boolean true))) i b) := by
  intro rest helse
  have hassoc : k :: l :: (ts ++ (us ++ s :: (vs ++ r :: ws))) ++ rest =
      k :: l :: (ts ++ (us ++ s :: (vs ++ r :: (ws ++ rest)))) := by simp
  rw [hassoc]
  unfold statement
  simp only [hk]
  refine Reads.loosen ?_
  unfold forStatement
  refine (reads_expect _ _ hl).andThen fun _ => ?_
  refine (ha _).andThen fun _ => ?_
  refine (reads_forCondition he _ hs).andThen fun _ => ?_
  refine (reads_forStep hi _ hr).andThen fun _ => ?_
  exact (hb rest helse).map _

theorem complete_returnWith {k s : Token} {ts : List Token} {e : Option Expr}
    (hk : k.kind = .kwReturn) (h : ReadsOptional eof ts e) (hs : s.kind = .semicolon) :
    Complete eof (.statement true) (k :: (ts ++ [s])) (.returnWith k e) := by
  intro rest _
  have hassoc : k :: (ts ++ [s]) ++ rest = k :: (ts ++ s :: rest) := by simp
  rw [hassoc]
  unfold statement
  simp only [hk]
  refine Reads.loosen ?_
  unfold returnStatement
  exact reads_clause h (by decide) (by decide) hs (by cases e <;> rfl) rest

theorem complete_breakLoop {k s : Token} (hk : k.kind = .kwBreak) (hs : s.kind = .semicolon) :
    Complete eof (.statement true) [k, s] (.breakLoop k) := by
  intro rest _
  show (statement eof (k :: s :: rest)).Reads _ rest
  unfold statement
  simp only [hk]
  exact ((reads_expect _ _ hs).map _).loosen

theorem complete_continueLoop {k s : Token} (hk : k.kind = .kwContinue)
    (hs : s.kind = .semicolon) : Complete eof (.statement true) [k, s] (.continueLoop k) := by
  intro rest _
  show (statement eof (k :: s :: rest)).Reads _ rest
  unfold statement
  simp only [hk]
  exact ((reads_expect _ _ hs).map _).loosen

/-! ## All constructs -/

/-- The tokens of a construct are read as its tree. -/
theorem complete {c : Category} {ts : List Token} {v : c.Tree} (h : Derives c ts v) :
    Complete eof c ts v := by
  induction h with
  | noDeclaration => exact complete_noDeclaration
  | declarations h hs ih ihs =>
      refine complete_declarations ih (h.begins.resolve_right nofun) ihs ?_
      exact hs.begins.imp_right And.right
  | classDecl hk hx hl _ hr ih => exact complete_classDecl hk hx hl ih hr
  | subclassDecl hk hx hs _ hl _ hr ihe ih => exact complete_subclassDecl hk hx hs ihe hl ih hr
  | functionDecl hk hx _ ih => exact complete_functionDecl hk hx ih
  | ofVarDecl _ ih => exact complete_ofVarDecl ih
  | ofLetDecl _ ih => exact complete_ofLetDecl ih
  | moduleDecl hk hx _ ih => exact complete_moduleDecl hk hx ih
  | ofStatement h hno ih => exact complete_ofStatement h ih hno
  | varDecl hk hx hs => exact complete_varDecl hk hx hs
  | varInitialized hk hx hq _ hs ih => exact complete_varInitialized hk hx hq ih hs
  | letDecl hk hx hq _ hs ih => exact complete_letDecl hk hx hq ih hs
  | noMethod =>
      intro r rest hr
      show (methods eof (r :: rest)).Reads [] rest
      unfold methods
      simp only [hr, if_true]
      exact reads_here [] rest
  | methods hx _ _ ih ihs => exact complete_methods hx ih ihs
  | callable hl hr _ ih => exact complete_callable hl hr ih
  | callableOf hl h hle hr _ ihps ih =>
      exact complete_callableOf hl ihps (h.begins.resolve_right nofun) hle hr ih
  | param hx => exact complete_param hx
  | params hx hc _ ih => exact complete_params hx hc ih
  | block hl _ hr ih => exact complete_block hl ih hr
  | ofExprStmt h ih => exact complete_ofExprStmt ih (h.begins.resolve_right nofun)
  | print hk _ hs ih => exact complete_print hk ih hs
  | ofBlock _ ih => exact complete_ofBlock ih
  | ifThen hk hl _ hr _ ihe iha => exact complete_ifThen hk hl ihe hr iha
  | ifElse hk hl _ hr _ ho _ ihe iha ihb => exact complete_ifElse hk hl ihe hr iha ho ihb
  | whileLoop hk hl _ hr _ ihe ihb => exact complete_whileLoop hk hl ihe hr ihb
  | forLoop hk hl _ _ hs _ hr _ iha ihe ihi ihb =>
      exact complete_forLoop hk hl iha ihe hs ihi hr ihb
  | returnWith hk _ hs ih => exact complete_returnWith hk ih hs
  | breakLoop hk hs => exact complete_breakLoop hk hs
  | continueLoop hk hs => exact complete_continueLoop hk hs
  | noInitializer hs => exact complete_noInitializer hs
  | varInitializer _ ih => exact complete_varInitializer ih
  | letInitializer _ ih => exact complete_letInitializer ih
  | exprInitializer h ih => exact complete_exprInitializer ih (h.begins.resolve_right nofun)
  | exprStmt _ hs ih => exact complete_exprStmt ih hs
  | assign hx hq _ ih => exact complete_assign hx hq ih
  | set h hd hx hq _ ih ihv => exact complete_set ih (h.begins.resolve_right nofun) hd hx hq ihv
  | setIndex h hl _ hr hq _ ih ihi ihv =>
      exact complete_setIndex ih (h.begins.resolve_right nofun) hl ihi hr hq ihv
  | ofOperation _ ih => exact complete_ofOperation ih
  | operand _ ih => exact complete_operand ih
  | join _ hop _ iha ihb => exact complete_join iha hop ihb
  | unary hop _ ih => exact complete_unary hop ih
  | ofCall h ih => exact complete_ofCall ih (h.begins.resolve_right nofun)
  | call _ hl _ hle hr ih ihes => exact complete_call ih hl ihes hle hr
  | get _ hd hx ih => exact complete_get ih hd hx
  | index _ hl _ hr ih ihi => exact complete_index ih hl ihi hr
  | ofPrimary _ ih => exact complete_ofPrimary ih
  | ofFalse hk => exact complete_ofToken fun rest => by unfold primary; simp only [hk]
  | ofTrue hk => exact complete_ofToken fun rest => by unfold primary; simp only [hk]
  | ofNil hk => exact complete_ofToken fun rest => by unfold primary; simp only [hk]
  | ofNumber hk hx => exact complete_ofToken fun rest => by unfold primary; simp only [hk, hx]
  | ofString hk => exact complete_ofToken fun rest => by unfold primary; simp only [hk]
  | ofName hx => exact complete_ofName hx
  | receiver hk => exact complete_ofToken fun rest => by unfold primary; simp only [hk]
  | superMethod hk hd hx => exact complete_superMethod hk hd hx
  | grouping hl _ hr ih => exact complete_grouping hl ih hr
  | lambda hk h ih => exact complete_lambda hk ih (h.begins.resolve_right nofun)
  | namedLambda hk hx _ ih => exact complete_namedLambda hk hx ih
  | array hl _ hr ih => exact complete_array hl ih hr
  | sizedArray hl h hc _ hr ihn ih =>
      exact complete_sizedArray hl ihn (h.begins.resolve_right nofun) hc ih hr
  | absent => exact .inl ⟨rfl, rfl⟩
  | present h ih => exact .inr ⟨_, rfl, h.begins.resolve_right nofun, ih⟩
  | noItem => exact .inl ⟨rfl, rfl⟩
  | ofList _ ih => exact ih
  | list h _ ih ihs => exact .inr ⟨_, _, _, _, rfl, rfl, h.begins.resolve_right nofun, ih, ihs⟩
  | noMore => exact complete_noMore
  | more hc _ _ ih ihs => exact complete_more hc ih ihs

/-- A program that derives is read without an error. -/
theorem statements_of_derives {ts : List Token} {sts : List Stmt} (h : Derives .program ts sts) :
    (statements eof false ts).body = sts ∧ (statements eof false ts).noted = [] := by
  have hcomplete : Complete eof .program ts sts := complete h
  have hread := hcomplete false [] (.inl rfl)
  rw [List.append_nil] at hread
  exact ⟨hread.1, hread.2.1⟩

end Parser

/-! ## The parser and the grammar -/

/-- A program is parsed just when the tokens before the first `eof` derive it;
when they derive none there are errors. -/
theorem parse_iff_derives (tokens : List Token) :
    (∀ sts, parse tokens = .ok sts ↔
      Grammar.Derives .program (tokens.takeWhile (·.kind ≠ .eof)) sts) ∧
    ((¬ ∃ sts, Grammar.Derives .program (tokens.takeWhile (·.kind ≠ .eof)) sts) →
      ∃ errors, parse tokens = .error errors ∧ errors ≠ []) := by
  unfold parse
  rw [List.span_eq_takeWhile_dropWhile]
  generalize tokens.takeWhile (·.kind ≠ .eof) = ts
  generalize (tokens.dropWhile (·.kind ≠ .eof)).headD ⟨.eof, "", .start⟩ = eof
  dsimp only
  split
  · rename_i hnoted
    have hderives := Parser.derives_of_statements hnoted
    refine ⟨fun sts => ⟨fun h => ?_, fun h => ?_⟩, fun hnone => absurd ⟨_, hderives⟩ hnone⟩
    · cases h
      exact hderives
    · rw [(Parser.statements_of_derives h).1]
  · rename_i hnoted
    refine ⟨fun sts => ⟨nofun, fun h => ?_⟩, fun _ => ⟨_, rfl, hnoted⟩⟩
    exact absurd (Parser.statements_of_derives h).2 hnoted

/-- A list of tokens has at most one tree. -/
theorem derives_unique {ts : List Token} {sts sts' : List Stmt}
    (h : Grammar.Derives .program ts sts) (h' : Grammar.Derives .program ts sts') : sts = sts' :=
  (@Parser.statements_of_derives default _ _ h).1.symm.trans
    (Parser.statements_of_derives h').1

end Lox
