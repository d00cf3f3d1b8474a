/-
# Reading on a longer list

A reader that read a construct and did not get to the end of its list reads the
same construct from every longer list, and from every list of alike tokens.
`Reading.Follows` says so of two readings; there is one lemma for each way of
joining readers and then one for each construct.  The constructs call each
other, so the lemmas are about lists shorter than a bound, and an induction on
the bound puts them together: `upto`.

What ends a statement is not looked beyond, but for an `if` without `else`: a
statement may end where its list ends, as long as no `else` comes after it.
-/
import Lox.Proofs.Like
import Lox.Syntax.Parser
import Mathlib.Data.List.TakeDrop

namespace Lox

/-- A likeness of texts: alike tokens are read alike, and names have no depth. -/
structure Likeness.OfTexts (R : Likeness) : Prop where
  kind : ∀ {t t'}, R.token t t' → t'.kind = t.kind
  lexeme : ∀ {t t'}, R.token t t' → t'.lexeme = t.lexeme
  name : ∀ {t t'}, R.token t t' → t.kind = .identifier → R.name t t'
  super : ∀ {t t'}, R.token t t' → t.kind = .kwSuper → t.lexeme = "super"
  depth : ∀ m, R.depth m none none

namespace Reading

variable (R : Likeness) (more : List Token)

/-- What is left of the two lists. -/
def Rest (ts ts' : List Token) : Prop := ∃ us, List.Forall₂ R.token ts us ∧ ts' = us ++ more

/-- What `r` reads before the end of its list, or at the end if it is closed,
`r'` reads too. -/
def Follows (closed : Prop) {α β : Type} (rel : α → β → Prop) {n n' : Nat} (r : Reading α n)
    (r' : Reading β n') : Prop :=
  ∀ v rest h, r = .done v rest [] h → (rest = [] → closed) →
    ∃ v' rest' h', r' = .done v' rest' [] h' ∧ rel v v' ∧ Rest R more rest rest'

variable {R more} {closed : Prop} {α β γ δ : Type} {rel : α → β → Prop} {rel' : γ → δ → Prop}
  {n n' : Nat}

theorem rest_nil : Rest R more [] more := ⟨[], .nil, rfl⟩

theorem Rest.cons {t : Token} {ts ts' : List Token} (h : Rest R more (t :: ts) ts') :
    ∃ t' us, ts' = t' :: us ∧ R.token t t' ∧ Rest R more ts us := by
  obtain ⟨us, hus, rfl⟩ := h
  cases hus with
  | cons ht hts => exact ⟨_, _, rfl, ht, _, hts, rfl⟩

theorem follows_of_nil {r : Reading α 0} {r' : Reading β n'} :
    Follows R more closed rel r r' := by
  intro v rest h
  exact absurd h (Nat.not_lt_zero _)

theorem follows_here {a : α} {b : β} {ts ts' : List Token} (hrel : rel a b)
    (hrest : Rest R more ts ts') :
    Follows R more closed rel (here a ts) (here b ts') := by
  intro v rest h he _
  cases he
  exact ⟨b, ts', _, rfl, hrel, hrest⟩

/-- A list that is not closed does not end here. -/
theorem follows_atEnd {a : α} {r' : Reading β n'} :
    Follows R more False rel (here a []) r' := by
  intro v rest h he hclosed
  cases he
  exact (hclosed rfl).elim

theorem follows_stuck {e : SyntaxError} {rest : List Token} {noted : List SyntaxError}
    {h : rest.length ≤ n} {r' : Reading β n'} :
    Follows R more closed rel (stuck e rest noted h : Reading α n) r' := by
  intro v rest h he
  cases he

theorem Follows.map {r : Reading α n} {r' : Reading β n'} {f : α → γ} {g : β → δ}
    (h : Follows R more closed rel r r') (hfg : ∀ a b, rel a b → rel' (f a) (g b)) :
    Follows R more closed rel' (r.map f) (r'.map g) := by
  intro v rest hlt he hclosed
  cases r with
  | stuck => cases he
  | done a ts noted hn =>
      cases he
      obtain ⟨b, rest', h', rfl, hrel, hrest⟩ := h a rest hn rfl hclosed
      exact ⟨g b, rest', h', rfl, hfg a b hrel, hrest⟩

theorem Follows.widen {k k' : Nat} {r : Reading α n} {r' : Reading β n'} {le : n ≤ k}
    {le' : n' ≤ k'} (h : Follows R more closed rel r r') :
    Follows R more closed rel (r.widen le) (r'.widen le') := by
  intro v rest hlt he hclosed
  cases r with
  | stuck => cases he
  | done a ts noted hn =>
      cases he
      obtain ⟨b, rest', h', rfl, hrel, hrest⟩ := h v rest hn rfl hclosed
      exact ⟨b, rest', Nat.lt_of_lt_of_le h' le', rfl, hrel, hrest⟩

theorem Follows.loosen {r : Reading α n} {r' : Reading β n'}
    (h : Follows R more closed rel r r') : Follows R more closed rel r.loosen r'.loosen :=
  h.widen

/-- Where something more is read, the first reading does not end the list. -/
theorem Follows.andThen {r : Reading α n} {r' : Reading β n'}
    {f : α → (rest : List Token) → rest.length < n → Reading γ rest.length}
    {g : β → (rest : List Token) → rest.length < n' → Reading δ rest.length}
    (h : Follows R more False rel r r')
    (hfg : ∀ a b ts ts' hs hs', rel a b → ts.length < n → Rest R more ts ts' →
      Follows R more closed rel' (f a ts hs) (g b ts' hs')) :
    Follows R more closed rel' (r.andThen f) (r'.andThen g) := by
  intro v rest hlt he hclosed
  cases r with
  | stuck => cases he
  | done a ts noted hn =>
      simp only [Reading.andThen] at he
      cases hf : f a ts hn with
      | stuck => rw [hf] at he; cases he
      | done c us later hc =>
          rw [hf] at he
          simp only [Reading.widen, noting, done.injEq, List.append_eq_nil_iff] at he
          obtain ⟨rfl, rfl, rfl, rfl⟩ := he
          have hts : ts ≠ [] := fun h0 => by simp [h0] at hc
          obtain ⟨b, ts', h', rfl, hrel, hrest⟩ := h a ts hn rfl hts
          obtain ⟨d, us', hd, hg, hrel', hrest'⟩ := hfg a b ts ts' hn h' hrel hn hrest
            _ _ hc hf hclosed
          refine ⟨d, us', Nat.lt_trans hd h', ?_, hrel', hrest'⟩
          simp only [Reading.andThen, hg, Reading.widen, noting, List.append_nil]

theorem Follows.andPerhaps {r : Reading α n} {r' : Reading β n'}
    {f : α → (rest : List Token) → rest.length < n → Reading γ (rest.length + 1)}
    {g : β → (rest : List Token) → rest.length < n' → Reading δ (rest.length + 1)}
    (h : Follows R more closed rel r r')
    (hfg : ∀ a b ts ts' hs hs', rel a b → ts.length < n → Rest R more ts ts' →
      Follows R more closed rel' (f a ts hs) (g b ts' hs')) :
    Follows R more closed rel' (r.andPerhaps f) (r'.andPerhaps g) := by
  intro v rest hlt he hclosed
  cases r with
  | stuck => cases he
  | done a ts noted hn =>
      simp only [Reading.andPerhaps] at he
      cases hf : f a ts hn with
      | stuck => rw [hf] at he; cases he
      | done c us later hc =>
          rw [hf] at he
          simp only [Reading.widen, noting, done.injEq, List.append_eq_nil_iff] at he
          obtain ⟨rfl, rfl, rfl, rfl⟩ := he
          have hts : ts = [] → closed := fun h0 => hclosed (by
            subst h0
            exact List.eq_nil_of_length_eq_zero (Nat.lt_one_iff.mp hc))
          obtain ⟨b, ts', h', rfl, hrel, hrest⟩ := h a ts hn rfl hts
          obtain ⟨d, us', hd, hg, hrel', hrest'⟩ := hfg a b ts ts' hn h' hrel hn hrest
            _ _ hc hf hclosed
          refine ⟨d, us', Nat.lt_of_lt_of_le hd h', ?_, hrel', hrest'⟩
          simp only [Reading.andPerhaps, hg, Reading.widen, noting, List.append_nil]

/-- Two things that each take a token are not read from one. -/
theorem follows_of_one {r : Reading α 1}
    {f : α → (rest : List Token) → rest.length < 1 → Reading γ rest.length}
    {r' : Reading δ n'} : Follows R more closed rel' (r.andThen f) r' := by
  intro v rest h he
  cases r with
  | stuck => cases he
  | done a ts noted hn =>
      cases ts with
      | cons t ts => exact absurd hn (Nat.not_lt_of_le (Nat.le_add_left 1 _))
      | nil =>
          simp only [Reading.andThen] at he
          cases hf : f a [] hn with
          | stuck => rw [hf] at he; cases he
          | done c us later hc => exact absurd hc (Nat.not_lt_zero _)

/-- A list that is less closed asks for less. -/
theorem Follows.imp {open' : Prop} {r : Reading α n} {r' : Reading β n'}
    (h : Follows R more closed rel r r') (hc : open' → closed) :
    Follows R more open' rel r r' :=
  fun v rest hlt he hclosed => h v rest hlt he fun h0 => hc (hclosed h0)

end Reading

namespace Parser

open Reading

variable {R : Likeness} (hR : R.OfTexts) {more : List Token} {eof eof' : Token}
  {closed : Prop} {n : Nat}

/-- A reader follows another on lists shorter than `n`. -/
def Agree (R : Likeness) (more : List Token) (n : Nat) (closed : Prop) {α β : Type}
    (rel : α → β → Prop) (r : (ts : List Token) → Reading α ts.length)
    (r' : (ts : List Token) → Reading β ts.length) : Prop :=
  ∀ {ts ts'}, ts.length < n → Rest R more ts ts' → Follows R more closed rel (r ts) (r' ts')

/-! ## Tokens -/

section
include hR

theorem follows_expect (kind : TokenKind) (what : String) {ts ts' : List Token}
    (h : Rest R more ts ts') :
    Follows R more closed (fun t t' => R.token t t' ∧ t.kind = kind)
      (expect eof kind what ts) (expect eof' kind what ts') := by
  cases ts with
  | nil => exact follows_of_nil
  | cons t ts =>
      obtain ⟨t', us, rfl, ht, hrest⟩ := h.cons
      unfold expect
      by_cases hk : t.kind = kind
      · simp only [hR.kind ht, hk, if_true]
        exact follows_here ⟨ht, hk⟩ hrest
      · simp only [if_neg hk]
        exact follows_stuck

theorem follows_parameters (n count : Nat) :
    Agree R more n False (List.Forall₂ R.name) (parameters eof count) (parameters eof' count) := by
  induction n generalizing count with
  | zero => exact fun hlt => absurd hlt (Nat.not_lt_zero _)
  | succ n ih =>
      intro ts ts' hlt h
      unfold parameters
      by_cases hcount : maxArguments ≤ count
      · simp only [if_pos hcount]
        exact follows_stuck
      · simp only [if_neg hcount]
        refine (follows_expect hR .identifier _ h).andPerhaps ?_
        intro name name' ts₁ ts₁' _ _ hname hlt₁ hrest
        have hn₁ : R.name name name' := hR.name hname.1 hname.2
        cases ts₁ with
        | nil => exact follows_atEnd
        | cons t ts₂ =>
            obtain ⟨t', us, rfl, ht, hrest₂⟩ := hrest.cons
            by_cases hk : t.kind = .comma
            · simp only [hR.kind ht, if_pos hk]
              have hlt₂ : ts₂.length < n := by
                simp only [List.length_cons] at hlt₁
                omega
              refine ((ih (count + 1) hlt₂ hrest₂).map ?_).loosen.loosen
              exact fun ps ps' hps => .cons hn₁ hps
            · simp only [hR.kind ht, if_neg hk]
              exact follows_here (.cons hn₁ .nil) hrest

theorem nextIs_eq {kind : TokenKind} {t : Token} {ts ts' : List Token}
    (h : Rest R more (t :: ts) ts') : nextIs kind ts' = nextIs kind (t :: ts) := by
  obtain ⟨t', us, rfl, ht, hrest⟩ := h.cons
  simp only [nextIs, hR.kind ht]

end

/-! ## Readers of lists shorter than a bound -/

/-- Expressions that are alike wherever they stand. -/
def SameExpr (R : Likeness) (e e' : Expr) : Prop := ∀ m, LikeExpr R m e e'

def SameExprs (R : Likeness) (es es' : List Expr) : Prop := ∀ m, LikeExprs R m es es'

def SameDecl (R : Likeness) (d d' : FunctionDecl) : Prop := ∀ m, LikeDecl R m d d'

def SameDecls (R : Likeness) (ds ds' : List FunctionDecl) : Prop := ∀ m, LikeDecls R m ds ds'

def SameStmt (R : Likeness) (st st' : Stmt) : Prop := ∀ m, LikeStmt R m st st'

def SameStmts (R : Likeness) (sts sts' : List Stmt) : Prop := ∀ m, LikeStmts R m sts sts'

/-- No `else` comes next. -/
def NoElse (more : List Token) : Prop := nextIs .kwElse more = false

/-- The readers that earlier ones call, on shorter lists. -/
structure Upto (R : Likeness) (more : List Token) (eof eof' : Token) (n : Nat) : Prop where
  operand : ∀ p, Agree R more n False (SameExpr R) (operand eof p) (operand eof' p)
  climbOn : ∀ p {l l' ts ts'}, ts.length < n → SameExpr R l l' → Rest R more ts ts' →
    Follows R more False (SameExpr R) (climbOn eof p l ts) (climbOn eof' p l' ts')
  unary : Agree R more n False (SameExpr R) (unary eof) (unary eof')
  callOn : ∀ {e e' ts ts'}, ts.length < n → SameExpr R e e' → Rest R more ts ts' →
    Follows R more False (SameExpr R) (callOn eof e ts) (callOn eof' e' ts')
  expression : Agree R more n False (SameExpr R) (expression eof) (expression eof')
  argumentList : ∀ count, Agree R more n False (SameExprs R)
    (argumentList eof count) (argumentList eof' count)
  arguments : Agree R more n True
    (fun a b => SameExprs R a.1 b.1 ∧ R.token a.2 b.2) (arguments eof) (arguments eof')
  elementsAfter : Agree R more n True (SameExprs R) (elementsAfter eof) (elementsAfter eof')
  elements : Agree R more n True (SameExprs R) (elements eof) (elements eof')
  array : ∀ {b b' ts ts'}, ts.length < n → R.token b b' → Rest R more ts ts' →
    Follows R more True (SameExpr R) (array eof b ts) (array eof' b' ts')
  methods : Agree R more n True (SameDecls R) (methods eof) (methods eof')
  statement : Agree R more n (NoElse more) (SameStmt R) (statement eof) (statement eof')
  blockBody : Agree R more n True (SameStmts R) (blockBody eof) (blockBody eof')

variable (ih : Upto R more eof eof' n)
include hR ih

/-! ## Expressions -/

omit hR ih in
theorem same_join {l l' r r' : Expr} {t t' : Token} (p : Precedence) (hl : SameExpr R l l')
    (ht : R.token t t') (hr : SameExpr R r r') : SameExpr R (p.join l t r) (p.join l' t' r') := by
  intro m
  cases p with
  | disjunction | conjunction => exact .logical (hl m) ht (hr m)
  | equality | comparison | sum | product => exact .binary (hl m) ht (hr m)

theorem follows_climbOn (p : Precedence) {l l' : Expr} {ts ts' : List Token}
    (hlt : ts.length < n + 1) (hl : SameExpr R l l') (h : Rest R more ts ts') :
    Follows R more False (SameExpr R) (climbOn eof p l ts) (climbOn eof' p l' ts') := by
  cases ts with
  | nil =>
      unfold climbOn
      exact follows_atEnd
  | cons t ts =>
      obtain ⟨t', us, rfl, ht, hrest⟩ := h.cons
      have hts : ts.length < n := Nat.lt_of_succ_lt_succ hlt
      unfold climbOn
      by_cases hk : t.kind ∈ p.operators
      · simp only [hR.kind ht, if_pos hk]
        refine ((ih.operand p hts hrest).andPerhaps ?_).loosen.loosen
        intro r r' ts₂ ts₂' _ _ hr hlt₂ hrest₂
        exact ih.climbOn p (Nat.lt_trans hlt₂ hts) (same_join p hl ht hr) hrest₂
      · simp only [hR.kind ht, if_neg hk]
        exact follows_here hl h

theorem follows_elementsAfter :
    Agree R more (n + 1) True (SameExprs R) (elementsAfter eof) (elementsAfter eof') := by
  intro ts ts' hlt h
  cases ts with
  | nil => exact follows_of_nil
  | cons t ts =>
      obtain ⟨t', us, rfl, ht, hrest⟩ := h.cons
      have hts : ts.length < n := Nat.lt_of_succ_lt_succ hlt
      unfold elementsAfter
      by_cases hk : t.kind = .comma
      · simp only [hR.kind ht, if_pos hk]
        refine ((ih.expression hts hrest).andThen ?_).loosen
        intro e e' ts₂ ts₂' _ _ he hlt₂ hrest₂
        refine (ih.elementsAfter (Nat.lt_trans hlt₂ hts) hrest₂).map ?_
        exact fun es es' hes m => .cons (he m) (hes m)
      · simp only [hR.kind ht, if_neg hk]
        by_cases hk' : t.kind = .rightBracket
        · simp only [if_pos hk']
          exact follows_here (fun m => .nil) hrest
        · simp only [if_neg hk']
          exact follows_stuck

theorem follows_callOn {e e' : Expr} {ts ts' : List Token} (hlt : ts.length < n + 1)
    (he : SameExpr R e e') (h : Rest R more ts ts') :
    Follows R more False (SameExpr R) (callOn eof e ts) (callOn eof' e' ts') := by
  cases ts with
  | nil =>
      unfold callOn
      exact follows_atEnd
  | cons t ts =>
      obtain ⟨t', us, rfl, ht, hrest⟩ := h.cons
      have hts : ts.length < n := Nat.lt_of_succ_lt_succ hlt
      unfold callOn
      by_cases hk : t.kind = .leftParen
      · simp only [hR.kind ht, if_pos hk]
        refine (((ih.arguments hts hrest).imp False.elim).andPerhaps ?_).loosen.loosen
        intro a b ts₂ ts₂' _ _ hab hlt₂ hrest₂
        exact ih.callOn (Nat.lt_trans hlt₂ hts) (fun m => .call (he m) hab.2 (hab.1 m)) hrest₂
      by_cases hdot : t.kind = .dot
      · simp only [hR.kind ht, if_neg hk, if_pos hdot]
        refine ((follows_expect hR .identifier _ hrest).andPerhaps ?_).loosen.loosen
        intro name name' ts₂ ts₂' _ _ hname hlt₂ hrest₂
        exact ih.callOn (Nat.lt_trans hlt₂ hts) (fun m => .get (he m) hname.1) hrest₂
      by_cases hbracket : t.kind = .leftBracket
      · simp only [hR.kind ht, if_neg hk, if_neg hdot, if_pos hbracket]
        refine ((ih.expression hts hrest).andThen ?_).loosen.loosen
        intro i i' ts₂ ts₂' _ _ hi hlt₂ hrest₂
        refine (follows_expect hR .rightBracket _ hrest₂).andPerhaps ?_
        intro _ _ ts₃ ts₃' _ _ _ hlt₃ hrest₃
        exact ih.callOn (Nat.lt_trans hlt₃ (Nat.lt_trans hlt₂ hts))
          (fun m => .index (he m) ht (hi m)) hrest₃
      · simp only [hR.kind ht, if_neg hk, if_neg hdot, if_neg hbracket]
        exact follows_here he h

/-! ## Functions -/

theorem follows_functionBody {k k' : Token} {name name' : Option Token}
    {ps ps' ts ts' : List Token} (hlt : ts.length < n + 1) (hk : R.token k k')
    (hname : Option.Rel R.name name name') (hps : List.Forall₂ R.name ps ps')
    (h : Rest R more ts ts') :
    Follows R more True (SameDecl R) (functionBody eof k name ps ts)
      (functionBody eof' k' name' ps' ts') := by
  unfold functionBody
  refine (follows_expect hR .rightParen _ h).andThen ?_
  intro _ _ ts₁ ts₁' _ _ _ hlt₁ hrest₁
  refine (follows_expect hR .leftBrace _ hrest₁).andThen ?_
  intro _ _ ts₂ ts₂' _ _ _ hlt₂ hrest₂
  refine (ih.blockBody (by omega) hrest₂).map ?_
  exact fun body body' hbody m => .mk hk hname hps (hbody (inner m))

theorem follows_functionAfterName {k k' : Token} {name name' : Option Token}
    {ts ts' : List Token} (hlt : ts.length < n + 1) (hk : R.token k k')
    (hname : Option.Rel R.name name name') (h : Rest R more ts ts') :
    Follows R more True (SameDecl R) (functionAfterName eof k name ts)
      (functionAfterName eof' k' name' ts') := by
  unfold functionAfterName
  refine (follows_expect hR .leftParen _ h).andThen ?_
  intro _ _ ts₁ ts₁' _ _ _ hlt₁ hrest₁
  cases ts₁ with
  | nil => exact follows_of_nil
  | cons t ts₁ =>
      rw [nextIs_eq hR hrest₁]
      by_cases hp : nextIs .rightParen (t :: ts₁) = true
      · simp only [if_pos hp]
        exact follows_functionBody hR ih (by omega) hk hname .nil hrest₁
      · simp only [if_neg hp]
        refine (follows_parameters hR _ 0 (Nat.lt_succ_self _) hrest₁).andThen ?_
        intro ps ps' ts₂ ts₂' _ _ hps hlt₂ hrest₂
        exact follows_functionBody hR ih (by omega) hk hname hps hrest₂

theorem follows_functionNamed {k k' : Token} {ts ts' : List Token} (hlt : ts.length < n + 1)
    (hk : R.token k k') (h : Rest R more ts ts') :
    Follows R more True (SameDecl R) (functionNamed eof k ts) (functionNamed eof' k' ts') := by
  unfold functionNamed
  refine (follows_expect hR .identifier _ h).andThen ?_
  intro name name' ts₁ ts₁' _ _ hname hlt₁ hrest₁
  exact follows_functionAfterName hR ih (by omega) hk (.some (hR.name hname.1 hname.2)) hrest₁

theorem follows_lambda {k k' : Token} {ts ts' : List Token} (hlt : ts.length < n + 1)
    (hk : R.token k k') (h : Rest R more ts ts') :
    Follows R more True (SameDecl R) (lambda eof k ts) (lambda eof' k' ts') := by
  cases ts with
  | nil => exact follows_of_nil
  | cons t ts =>
      obtain ⟨t', us, rfl, ht, hrest⟩ := h.cons
      unfold lambda
      by_cases hi : t.kind = .identifier
      · simp only [hR.kind ht, if_pos hi]
        exact (follows_functionAfterName hR ih (Nat.lt_of_succ_lt hlt) hk
          (.some (hR.name ht hi)) hrest).loosen
      · simp only [hR.kind ht, if_neg hi]
        exact follows_functionAfterName hR ih hlt hk .none h

/-! ## Operands -/

theorem follows_arrayAfter {b b' : Token} {e e' : Expr} {ts ts' : List Token}
    (hlt : ts.length < n + 1) (hb : R.token b b') (he : SameExpr R e e')
    (h : Rest R more ts ts') :
    Follows R more True (SameExpr R) (arrayAfter eof b e ts) (arrayAfter eof' b' e' ts') := by
  cases ts with
  | nil => exact follows_of_nil
  | cons t ts =>
      unfold arrayAfter
      rw [nextIs_eq hR h]
      by_cases hc : nextIs .colon (t :: ts) = true
      · simp only [if_pos hc]
        refine (follows_expect hR .colon _ h).andThen ?_
        intro _ _ ts₁ ts₁' _ _ _ hlt₁ hrest₁
        refine (ih.elements (by omega) hrest₁).map ?_
        exact fun es es' hes m => .array hb (.some (he m)) (hes m)
      · simp only [if_neg hc]
        refine (follows_elementsAfter hR ih hlt h).map ?_
        exact fun es es' hes m => .array hb .none (.cons (he m) (hes m))

theorem follows_primary :
    Agree R more (n + 1) True (SameExpr R) (primary eof) (primary eof') := by
  intro ts ts' hlt h
  cases ts with
  | nil => exact follows_of_nil
  | cons t ts =>
      obtain ⟨t', us, rfl, ht, hrest⟩ := h.cons
      have hts : ts.length < n := Nat.lt_of_succ_lt_succ hlt
      unfold primary
      simp only [hR.kind ht, hR.lexeme ht]
      split
      · exact follows_here (fun m => .literal _) hrest
      · exact follows_here (fun m => .literal _) hrest
      · exact follows_here (fun m => .literal _) hrest
      · cases Number.ofText? t.lexeme with
        | some x => exact follows_here (fun m => .literal _) hrest
        | none => exact follows_stuck
      · exact follows_here (fun m => .literal _) hrest
      · exact follows_here (fun m => .variable ht (hR.depth m)) hrest
      · exact follows_here (fun m => .receiver ht (hR.depth m)) hrest
      · rename_i hsuper
        refine ((follows_expect hR .dot _ hrest).andThen ?_).loosen
        intro _ _ ts₂ ts₂' _ _ _ hlt₂ hrest₂
        refine (follows_expect hR .identifier _ hrest₂).map ?_
        exact fun name name' hname m => .superMethod (hR.super ht hsuper) ht hname.1 (hR.depth m)
      · refine ((follows_lambda hR ih (Nat.lt_of_succ_lt hlt) ht hrest).map ?_).loosen
        exact fun d d' hd m => .function (hd _)
      · exact (ih.array hts ht hrest).loosen
      · refine ((ih.expression hts hrest).andThen ?_).loosen
        intro e e' ts₂ ts₂' _ _ he hlt₂ hrest₂
        refine (follows_expect hR .rightParen _ hrest₂).map ?_
        exact fun _ _ _ m => .grouping (he m)
      · exact follows_stuck

theorem follows_call : Agree R more (n + 1) False (SameExpr R) (call eof) (call eof') := by
  intro ts ts' hlt h
  unfold call
  refine ((follows_primary hR ih hlt h).imp False.elim).andPerhaps ?_
  intro e e' ts₁ ts₁' _ _ he hlt₁ hrest₁
  exact follows_callOn hR ih (Nat.lt_trans hlt₁ hlt) he hrest₁

theorem follows_unary : Agree R more (n + 1) False (SameExpr R) (unary eof) (unary eof') := by
  intro ts ts' hlt h
  cases ts with
  | nil => exact follows_of_nil
  | cons t ts =>
      obtain ⟨t', us, rfl, ht, hrest⟩ := h.cons
      unfold unary
      by_cases hk : t.kind = .bang ∨ t.kind = .minus
      · simp only [hR.kind ht, if_pos hk]
        refine ((ih.unary (Nat.lt_of_succ_lt_succ hlt) hrest).map ?_).loosen
        exact fun e e' he m => .unary ht (he m)
      · simp only [hR.kind ht, if_neg hk]
        exact follows_call hR ih hlt h

/-! ## Binary operators, from tight to loose -/

theorem follows_operand (p : Precedence) :
    Agree R more (n + 1) False (SameExpr R) (operand eof p) (operand eof' p) := by
  induction hh : p.height using Nat.strongRecOn generalizing p with
  | ind h hp =>
      intro ts ts' hlt hrest
      unfold operand
      split
      · rename_i q hq
        unfold climb
        refine (hp q.height (hh ▸ Precedence.height_tighter hq) q rfl hlt hrest).andPerhaps ?_
        intro l l' ts₁ ts₁' _ _ hl hlt₁ hrest₁
        exact follows_climbOn hR ih q (Nat.lt_trans hlt₁ hlt) hl hrest₁
      · exact follows_unary hR ih hlt hrest

theorem follows_climb (p : Precedence) :
    Agree R more (n + 1) False (SameExpr R) (climb eof p) (climb eof' p) := by
  intro ts ts' hlt hrest
  unfold climb
  refine (follows_operand hR ih p hlt hrest).andPerhaps ?_
  intro l l' ts₁ ts₁' _ _ hl hlt₁ hrest₁
  exact follows_climbOn hR ih p (Nat.lt_trans hlt₁ hlt) hl hrest₁

omit hR ih in
/-- Targets that are alike can be assigned to alike. -/
theorem same_assigned? {e e' v v' : Expr} (hR : R.OfTexts) (he : SameExpr R e e')
    (hv : SameExpr R v v') : Option.Rel (SameExpr R) (e.assigned? v) (e'.assigned? v') := by
  cases e with
  | «variable» name d =>
      cases he none with
      | «variable» hn _ => exact .some fun m => .assign hn (hv m) (hR.depth m)
  | get o name =>
      have hget : ∃ o' name', e' = .get o' name' := by
        cases he none
        exact ⟨_, _, rfl⟩
      obtain ⟨o', name', rfl⟩ := hget
      refine .some fun m => ?_
      cases he m with
      | get ho hn => exact .set ho hn (hv m)
  | index o b i =>
      have hindex : ∃ o' b' i', e' = .index o' b' i' := by
        cases he none
        exact ⟨_, _, _, rfl⟩
      obtain ⟨o', b', i', rfl⟩ := hindex
      refine .some fun m => ?_
      cases he m with
      | index ho hb hi => exact .setIndex ho hb hi (hv m)
  | _ =>
      cases he none
      exact .none

theorem follows_expression :
    Agree R more (n + 1) False (SameExpr R) (expression eof) (expression eof') := by
  intro ts ts' hlt h
  unfold expression
  refine (follows_climb hR ih .disjunction hlt h).andPerhaps ?_
  intro e e' ts₁ ts₁' _ _ he hlt₁ hrest₁
  cases ts₁ with
  | nil => exact follows_atEnd
  | cons t ts₂ =>
      obtain ⟨t', us, rfl, ht, hrest₂⟩ := hrest₁.cons
      by_cases hk : t.kind = .equal
      · simp only [hR.kind ht, if_pos hk]
        simp only [List.length_cons] at hlt₁
        refine ((ih.expression (by omega) hrest₂).andPerhaps ?_).loosen.loosen
        intro v v' ts₃ ts₃' _ _ hv hlt₃ hrest₃
        have hassigned := same_assigned? hR he hv
        cases ha : e.assigned? v with
        | none => exact follows_stuck
        | some a =>
            rw [ha] at hassigned
            cases ha' : e'.assigned? v' with
            | none => rw [ha'] at hassigned; cases hassigned
            | some a' =>
                rw [ha'] at hassigned
                cases hassigned with
                | some hsame => exact follows_here hsame hrest₃
      · simp only [hR.kind ht, if_neg hk]
        exact follows_here he hrest₁

/-! ## Lists of expressions -/

theorem follows_argumentList (count : Nat) :
    Agree R more (n + 1) False (SameExprs R) (argumentList eof count)
      (argumentList eof' count) := by
  intro ts ts' hlt h
  unfold argumentList
  by_cases hcount : maxArguments ≤ count
  · simp only [if_pos hcount]
    exact follows_stuck
  · simp only [if_neg hcount]
    refine (follows_expression hR ih hlt h).andPerhaps ?_
    intro e e' ts₁ ts₁' _ _ he hlt₁ hrest₁
    cases ts₁ with
    | nil => exact follows_atEnd
    | cons t ts₂ =>
        obtain ⟨t', us, rfl, ht, hrest₂⟩ := hrest₁.cons
        by_cases hk : t.kind = .comma
        · simp only [hR.kind ht, if_pos hk]
          simp only [List.length_cons] at hlt₁
          refine ((ih.argumentList (count + 1) (by omega) hrest₂).map ?_).loosen.loosen
          exact fun es es' hes m => .cons (he m) (hes m)
        · simp only [hR.kind ht, if_neg hk]
          exact follows_here (fun m => .cons (he m) .nil) hrest₁

theorem follows_arguments :
    Agree R more (n + 1) True (fun a b => SameExprs R a.1 b.1 ∧ R.token a.2 b.2)
      (arguments eof) (arguments eof') := by
  intro ts ts' hlt h
  cases ts with
  | nil => exact follows_of_nil
  | cons t ts =>
      obtain ⟨t', us, rfl, ht, hrest⟩ := h.cons
      unfold arguments
      by_cases hk : t.kind = .rightParen
      · simp only [hR.kind ht, if_pos hk]
        exact follows_here ⟨fun m => .nil, ht⟩ hrest
      · simp only [hR.kind ht, if_neg hk]
        refine (follows_argumentList hR ih 0 hlt h).andThen ?_
        intro es es' ts₂ ts₂' _ _ hes hlt₂ hrest₂
        refine (follows_expect hR .rightParen _ hrest₂).map ?_
        exact fun _ _ hparen => ⟨hes, hparen.1⟩

theorem follows_elements :
    Agree R more (n + 1) True (SameExprs R) (elements eof) (elements eof') := by
  intro ts ts' hlt h
  cases ts with
  | nil => exact follows_of_nil
  | cons t ts =>
      obtain ⟨t', us, rfl, ht, hrest⟩ := h.cons
      unfold elements
      by_cases hk : t.kind = .rightBracket
      · simp only [hR.kind ht, if_pos hk]
        exact follows_here (fun m => .nil) hrest
      · simp only [hR.kind ht, if_neg hk]
        refine (follows_expression hR ih hlt h).andThen ?_
        intro e e' ts₂ ts₂' _ _ he hlt₂ hrest₂
        refine (follows_elementsAfter hR ih (Nat.lt_trans hlt₂ hlt) hrest₂).map ?_
        exact fun es es' hes m => .cons (he m) (hes m)

theorem follows_array {b b' : Token} {ts ts' : List Token} (hlt : ts.length < n + 1)
    (hb : R.token b b') (h : Rest R more ts ts') :
    Follows R more True (SameExpr R) (array eof b ts) (array eof' b' ts') := by
  cases ts with
  | nil => exact follows_of_nil
  | cons t ts =>
      obtain ⟨t', us, rfl, ht, hrest⟩ := h.cons
      unfold array
      by_cases hk : t.kind = .rightBracket
      · simp only [hR.kind ht, if_pos hk]
        exact follows_here (fun m => .array hb .none .nil) hrest
      · simp only [hR.kind ht, if_neg hk]
        refine (follows_expression hR ih hlt h).andThen ?_
        intro e e' ts₂ ts₂' _ _ he hlt₂ hrest₂
        exact follows_arrayAfter hR ih (Nat.lt_trans hlt₂ hlt) hb he hrest₂

/-! ## Declarations -/

theorem follows_varDeclaration :
    Agree R more (n + 1) True (SameStmt R) (varDeclaration eof) (varDeclaration eof') := by
  intro ts ts' hlt h
  unfold varDeclaration
  refine (follows_expect hR .identifier _ h).andThen ?_
  intro name name' ts₁ ts₁' _ _ hname hlt₁ hrest₁
  have hn := hR.name hname.1 hname.2
  cases ts₁ with
  | nil => exact follows_of_nil
  | cons t ts₁ =>
      rw [nextIs_eq hR hrest₁]
      by_cases he : nextIs .equal (t :: ts₁) = true
      · simp only [if_pos he]
        refine (follows_expect hR .equal _ hrest₁).andThen ?_
        intro _ _ ts₂ ts₂' _ _ _ hlt₂ hrest₂
        refine (follows_expression hR ih (by omega) hrest₂).andThen ?_
        intro v v' ts₃ ts₃' _ _ hv hlt₃ hrest₃
        refine (follows_expect hR .semicolon _ hrest₃).map ?_
        exact fun _ _ _ m => .varDecl hn (.some (hv m))
      · simp only [if_neg he]
        refine (follows_expect hR .semicolon _ hrest₁).map ?_
        exact fun _ _ _ m => .varDecl hn .none

theorem follows_letDeclaration :
    Agree R more (n + 1) True (SameStmt R) (letDeclaration eof) (letDeclaration eof') := by
  intro ts ts' hlt h
  unfold letDeclaration
  refine (follows_expect hR .identifier _ h).andThen ?_
  intro name name' ts₁ ts₁' _ _ hname hlt₁ hrest₁
  refine (follows_expect hR .equal _ hrest₁).andThen ?_
  intro _ _ ts₂ ts₂' _ _ _ hlt₂ hrest₂
  refine (follows_expression hR ih (by omega) hrest₂).andThen ?_
  intro v v' ts₃ ts₃' _ _ hv hlt₃ hrest₃
  refine (follows_expect hR .semicolon _ hrest₃).map ?_
  exact fun _ _ _ m => .letDecl (hR.name hname.1 hname.2) (hv m)

theorem follows_methods :
    Agree R more (n + 1) True (SameDecls R) (methods eof) (methods eof') := by
  intro ts ts' hlt h
  cases ts with
  | nil => exact follows_of_nil
  | cons t ts =>
      obtain ⟨t', us, rfl, ht, hrest⟩ := h.cons
      unfold methods
      by_cases hk : t.kind = .rightBrace
      · simp only [hR.kind ht, if_pos hk]
        exact follows_here (fun m => .nil) hrest
      · simp only [hR.kind ht, if_neg hk]
        refine ((follows_functionNamed hR ih hlt ht h).imp False.elim).andThen ?_
        intro d d' ts₂ ts₂' _ _ hd hlt₂ hrest₂
        refine (ih.methods (by omega) hrest₂).map ?_
        exact fun ds ds' hds m => .cons (hd m) (hds m)

theorem follows_classBody {name name' : Token} {e e' : Option Expr} {ts ts' : List Token}
    (hlt : ts.length < n + 1) (hname : R.name name name')
    (he : ∀ m, LikeOptionExpr R m e e') (h : Rest R more ts ts') :
    Follows R more True (SameStmt R) (classBody eof name e ts) (classBody eof' name' e' ts') := by
  unfold classBody
  refine (follows_expect hR .leftBrace _ h).andThen ?_
  intro _ _ ts₁ ts₁' _ _ _ hlt₁ hrest₁
  refine (follows_methods hR ih (Nat.lt_trans hlt₁ hlt) hrest₁).map ?_
  exact fun ds ds' hds m => .classDecl hname (he m) (hds _)

theorem follows_classDeclaration :
    Agree R more (n + 1) True (SameStmt R) (classDeclaration eof) (classDeclaration eof') := by
  intro ts ts' hlt h
  unfold classDeclaration
  refine (follows_expect hR .identifier _ h).andThen ?_
  intro name name' ts₁ ts₁' _ _ hname hlt₁ hrest₁
  have hn := hR.name hname.1 hname.2
  cases ts₁ with
  | nil => exact follows_of_nil
  | cons t ts₁ =>
      rw [nextIs_eq hR hrest₁]
      by_cases he : nextIs .less (t :: ts₁) = true
      · simp only [if_pos he]
        refine (follows_expect hR .less _ hrest₁).andThen ?_
        intro _ _ ts₂ ts₂' _ _ _ hlt₂ hrest₂
        refine (follows_call hR ih (by omega) hrest₂).andThen ?_
        intro v v' ts₃ ts₃' _ _ hv hlt₃ hrest₃
        exact follows_classBody hR ih (by omega) hn (fun m => .some (hv m)) hrest₃
      · simp only [if_neg he]
        exact follows_classBody hR ih (by omega) hn (fun m => .none) hrest₁

theorem follows_moduleDeclaration :
    Agree R more (n + 1) True (SameStmt R) (moduleDeclaration eof) (moduleDeclaration eof') := by
  intro ts ts' hlt h
  unfold moduleDeclaration
  refine (follows_expect hR .identifier _ h).andThen ?_
  intro name name' ts₁ ts₁' _ _ hname hlt₁ hrest₁
  refine (follows_expect hR .leftBrace _ hrest₁).andThen ?_
  intro _ _ ts₂ ts₂' _ _ _ hlt₂ hrest₂
  refine (ih.blockBody (by omega) hrest₂).map ?_
  exact fun body body' hbody m => .moduleDecl (hR.name hname.1 hname.2) (hbody _)

/-! ## Statements -/

theorem follows_expressionStatement :
    Agree R more (n + 1) True (SameStmt R) (expressionStatement eof)
      (expressionStatement eof') := by
  intro ts ts' hlt h
  unfold expressionStatement
  refine (follows_expression hR ih hlt h).andThen ?_
  intro e e' ts₁ ts₁' _ _ he hlt₁ hrest₁
  refine (follows_expect hR .semicolon _ hrest₁).map ?_
  exact fun _ _ _ m => .expression (he m)

/-- Two lists agree on an expression that may be left out, up to the token that closes it. -/
theorem follows_clause {α β : Type} {S : α → β → Prop} {kind : TokenKind} {what : String}
    {absent : α} {absent' : β} {present : Expr → α} {present' : Expr → β}
    (habsent : S absent absent')
    (hpresent : ∀ e e', SameExpr R e e' → S (present e) (present' e')) {ts ts' : List Token}
    (hlt : ts.length < n + 1) (h : Rest R more ts ts') :
    Follows R more True S
      (if nextIs kind ts then (expect eof kind what ts).map fun _ => absent
        else (expression eof ts).andThen fun e ts₁ _ =>
          (expect eof kind what ts₁).map fun _ => present e)
      (if nextIs kind ts' then (expect eof' kind what ts').map fun _ => absent'
        else (expression eof' ts').andThen fun e ts₁ _ =>
          (expect eof' kind what ts₁).map fun _ => present' e) := by
  cases ts with
  | nil => exact follows_of_nil
  | cons t ts =>
      rw [nextIs_eq hR h]
      by_cases hk : nextIs kind (t :: ts) = true
      · simp only [if_pos hk]
        refine (follows_expect hR kind _ h).map ?_
        exact fun _ _ _ => habsent
      · simp only [if_neg hk]
        refine (follows_expression hR ih hlt h).andThen ?_
        intro e e' ts₁ ts₁' _ _ he hlt₁ hrest₁
        refine (follows_expect hR kind _ hrest₁).map ?_
        exact fun _ _ _ => hpresent e e' he

theorem follows_returnStatement {k k' : Token} {ts ts' : List Token} (hlt : ts.length < n + 1)
    (hk : R.token k k') (h : Rest R more ts ts') :
    Follows R more True (SameStmt R) (returnStatement eof k ts) (returnStatement eof' k' ts') := by
  unfold returnStatement
  refine follows_clause hR ih (fun m => .returnWith hk .none) ?_ hlt h
  exact fun e e' he m => .returnWith hk (.some (he m))

/-- What follows a branch begins with `else` or does not, and at the end of the
list nothing follows that does. -/
theorem follows_elseBranch {ts ts' : List Token} (hlt : ts.length < n)
    (h : Rest R more ts ts') :
    Follows R more (NoElse more) (fun a b => ∀ m, LikeOptionStmt R m a b)
      (elseBranch eof ts) (elseBranch eof' ts') := by
  cases ts with
  | nil =>
      obtain ⟨us, hus, rfl⟩ := h
      cases hus
      intro v rest hrest he hclosed
      unfold elseBranch at he
      cases he
      have hmore : nextIs .kwElse more = false := hclosed rfl
      refine ⟨none, more, Nat.lt_succ_self _, ?_, fun m => .none, rest_nil⟩
      cases more with
      | nil =>
          unfold elseBranch
          rfl
      | cons t more =>
          have hk : ¬ t.kind = .kwElse := by simpa [nextIs] using hmore
          unfold elseBranch
          simp only [List.nil_append, if_neg hk]
          rfl
  | cons t ts =>
      obtain ⟨t', us, rfl, ht, hrest⟩ := h.cons
      unfold elseBranch
      by_cases hk : t.kind = .kwElse
      · simp only [hR.kind ht, if_pos hk]
        refine ((ih.statement (Nat.lt_of_succ_lt hlt) hrest).map ?_).loosen.loosen
        exact fun st st' hst m => .some (hst m)
      · simp only [hR.kind ht, if_neg hk]
        exact follows_here (fun m => .none) h

theorem follows_ifStatement :
    Agree R more (n + 1) (NoElse more) (SameStmt R) (ifStatement eof) (ifStatement eof') := by
  intro ts ts' hlt h
  unfold ifStatement
  refine (follows_expect hR .leftParen _ h).andThen ?_
  intro _ _ ts₁ ts₁' _ _ _ hlt₁ hrest₁
  refine (follows_expression hR ih (by omega) hrest₁).andThen ?_
  intro e e' ts₂ ts₂' _ _ he hlt₂ hrest₂
  refine (follows_expect hR .rightParen _ hrest₂).andThen ?_
  intro _ _ ts₃ ts₃' _ _ _ hlt₃ hrest₃
  refine (ih.statement (by omega) hrest₃).andPerhaps ?_
  intro a a' ts₄ ts₄' _ _ ha hlt₄ hrest₄
  refine (follows_elseBranch hR ih (by omega) hrest₄).map ?_
  exact fun b b' hb m => .branch (he m) (ha m) (hb m)

theorem follows_whileStatement :
    Agree R more (n + 1) (NoElse more) (SameStmt R) (whileStatement eof)
      (whileStatement eof') := by
  intro ts ts' hlt h
  unfold whileStatement
  refine (follows_expect hR .leftParen _ h).andThen ?_
  intro _ _ ts₁ ts₁' _ _ _ hlt₁ hrest₁
  refine (follows_expression hR ih (by omega) hrest₁).andThen ?_
  intro e e' ts₂ ts₂' _ _ he hlt₂ hrest₂
  refine (follows_expect hR .rightParen _ hrest₂).andThen ?_
  intro _ _ ts₃ ts₃' _ _ _ hlt₃ hrest₃
  refine (ih.statement (by omega) hrest₃).map ?_
  exact fun b b' hb m => .whileLoop (he m) (hb m) .none

theorem follows_forInitializer :
    Agree R more (n + 1) True (fun a b => ∀ m, LikeOptionStmt R m a b) (forInitializer eof)
      (forInitializer eof') := by
  intro ts ts' hlt h
  cases ts with
  | nil => exact follows_of_nil
  | cons t ts =>
      obtain ⟨t', us, rfl, ht, hrest⟩ := h.cons
      have hts : ts.length < n + 1 := Nat.lt_of_succ_lt hlt
      have hsome : ∀ st st', SameStmt R st st' → ∀ m, LikeOptionStmt R m (some st) (some st') :=
        fun st st' hst m => .some (hst m)
      unfold forInitializer
      simp only [hR.kind ht]
      split
      · exact follows_here (fun m => .none) hrest
      · exact ((follows_varDeclaration hR ih hts hrest).map hsome).loosen
      · exact ((follows_letDeclaration hR ih hts hrest).map hsome).loosen
      · exact (follows_expressionStatement hR ih hlt h).map hsome

theorem follows_forCondition :
    Agree R more (n + 1) True (SameExpr R) (forCondition eof) (forCondition eof') := by
  intro ts ts' hlt h
  unfold forCondition
  exact follows_clause hR ih (fun m => .literal _) (fun e e' he => he) hlt h

theorem follows_forStep :
    Agree R more (n + 1) True (fun a b => ∀ m, LikeOptionExpr R m a b) (forStep eof)
      (forStep eof') := by
  intro ts ts' hlt h
  unfold forStep
  exact follows_clause hR ih (fun m => .none) (fun e e' he m => .some (he m)) hlt h

omit hR ih in
theorem same_forLoop {a a' : Option Stmt} {e e' : Expr} {s s' : Option Expr} {b b' : Stmt}
    (ha : ∀ m, LikeOptionStmt R m a a') (he : SameExpr R e e')
    (hs : ∀ m, LikeOptionExpr R m s s') (hb : SameStmt R b b') :
    SameStmt R (.forLoop a e s b) (.forLoop a' e' s' b') := by
  intro m
  have hloop : LikeStmts R (inner m) [.whileLoop e b s] [.whileLoop e' b' s'] :=
    .cons (.whileLoop (he _) (hb _) (hs _)) .nil
  cases ha (inner m) with
  | none => exact .block hloop
  | some hst => exact .block (.cons hst hloop)

theorem follows_forStatement :
    Agree R more (n + 1) (NoElse more) (SameStmt R) (forStatement eof) (forStatement eof') := by
  intro ts ts' hlt h
  unfold forStatement
  refine (follows_expect hR .leftParen _ h).andThen ?_
  intro _ _ ts₁ ts₁' _ _ _ hlt₁ hrest₁
  refine ((follows_forInitializer hR ih (by omega) hrest₁).imp False.elim).andThen ?_
  intro a a' ts₂ ts₂' _ _ ha hlt₂ hrest₂
  refine ((follows_forCondition hR ih (by omega) hrest₂).imp False.elim).andThen ?_
  intro e e' ts₃ ts₃' _ _ he hlt₃ hrest₃
  refine ((follows_forStep hR ih (by omega) hrest₃).imp False.elim).andThen ?_
  intro s s' ts₄ ts₄' _ _ hs hlt₄ hrest₄
  refine (ih.statement (by omega) hrest₄).map ?_
  exact fun b b' hb => same_forLoop ha he hs hb

theorem follows_statement :
    Agree R more (n + 1) (NoElse more) (SameStmt R) (statement eof) (statement eof') := by
  intro ts ts' hlt h
  cases ts with
  | nil => exact follows_of_nil
  | cons t ts =>
      obtain ⟨t', us, rfl, ht, hrest⟩ := h.cons
      have hts : ts.length < n := Nat.lt_of_succ_lt_succ hlt
      have hts' : ts.length < n + 1 := Nat.lt_succ_of_lt hts
      unfold statement
      simp only [hR.kind ht]
      split
      · exact (follows_ifStatement hR ih hts' hrest).loosen
      · refine ((follows_expression hR ih hts' hrest).andThen ?_).loosen
        intro e e' ts₂ ts₂' _ _ he hlt₂ hrest₂
        refine (follows_expect hR .semicolon _ hrest₂).map ?_
        exact fun _ _ _ m => .print (he m)
      · refine (((ih.blockBody hts hrest).imp fun _ => trivial).map ?_).loosen
        exact fun body body' hbody m => .block (hbody _)
      · exact (follows_whileStatement hR ih hts' hrest).loosen
      · exact (follows_forStatement hR ih hts' hrest).loosen
      · exact ((follows_returnStatement hR ih hts' ht hrest).imp fun _ => trivial).loosen
      · refine ((follows_expect hR .semicolon _ hrest).map ?_).loosen
        exact fun _ _ _ m => .breakLoop ht
      · refine ((follows_expect hR .semicolon _ hrest).map ?_).loosen
        exact fun _ _ _ m => .continueLoop ht
      · exact (follows_expressionStatement hR ih hlt h).imp fun _ => trivial

theorem follows_declaration :
    Agree R more (n + 1) (NoElse more) (SameStmt R) (declaration eof) (declaration eof') := by
  intro ts ts' hlt h
  cases ts with
  | nil => exact follows_of_nil
  | cons t ts =>
      obtain ⟨t', us, rfl, ht, hrest⟩ := h.cons
      have hts : ts.length < n + 1 := Nat.lt_of_succ_lt hlt
      unfold declaration
      simp only [hR.kind ht]
      split
      · exact ((follows_varDeclaration hR ih hts hrest).imp fun _ => trivial).loosen
      · exact ((follows_letDeclaration hR ih hts hrest).imp fun _ => trivial).loosen
      · exact ((follows_classDeclaration hR ih hts hrest).imp fun _ => trivial).loosen
      · exact ((follows_moduleDeclaration hR ih hts hrest).imp fun _ => trivial).loosen
      · rename_i hk
        cases ts with
        | nil =>
            simp only [nextIs, Bool.false_eq_true, if_false, statement, hk, expressionStatement]
            exact follows_of_one
        | cons next ts =>
            rw [nextIs_eq hR hrest]
            by_cases hi : nextIs .identifier (next :: ts) = true
            · simp only [if_pos hi]
              refine (((follows_functionNamed hR ih hts ht hrest).imp
                fun _ => trivial).map ?_).loosen
              exact fun d d' hd m => .functionDecl (hd m)
            · simp only [if_neg hi]
              exact follows_statement hR ih hlt h
      · exact follows_statement hR ih hlt h

/-! ## Runs of statements -/

section
omit hR ih

theorem statements_done (inBlock : Bool) {t : Token} {ts : List Token} {st : Stmt}
    {rest : List Token} {noted : List SyntaxError} {h : rest.length < (t :: ts).length}
    (hk : (inBlock && decide (t.kind = .rightBrace)) = false)
    (hd : declaration eof (t :: ts) = .done st rest noted h) :
    (statements eof inBlock (t :: ts)).body = st :: (statements eof inBlock rest).body ∧
      (statements eof inBlock (t :: ts)).noted =
        noted ++ (statements eof inBlock rest).noted ∧
      (statements eof inBlock (t :: ts)).rest = (statements eof inBlock rest).rest := by
  rw [statements]
  simp only [hk, Bool.false_eq_true, if_false]
  generalize declaration eof (t :: ts) = r at hd
  subst hd
  exact ⟨rfl, rfl, rfl⟩

/-- A run without errors was never stuck. -/
theorem declaration_of_statements {inBlock : Bool} {t : Token} {ts : List Token}
    (hk : (inBlock && decide (t.kind = .rightBrace)) = false)
    (hnoted : (statements eof inBlock (t :: ts)).noted = []) :
    ∃ st rest h, declaration eof (t :: ts) = .done st rest [] h ∧
      (statements eof inBlock rest).noted = [] := by
  cases hd : declaration eof (t :: ts) with
  | done st rest noted h =>
      rw [(statements_done _ hk hd).2.1, List.append_eq_nil_iff] at hnoted
      obtain ⟨rfl, hlater⟩ := hnoted
      exact ⟨st, rest, h, rfl, hlater⟩
  | stuck e rest noted h =>
      rw [statements] at hnoted
      simp only [hk, Bool.false_eq_true, if_false] at hnoted
      generalize declaration eof (t :: ts) = r at hd hnoted
      subst hd
      simp [Reading.recover] at hnoted

theorem statements_brace (eof : Token) {t : Token} (ts : List Token) (hk : t.kind = .rightBrace) :
    (statements eof true (t :: ts)).body = [] ∧ (statements eof true (t :: ts)).noted = [] ∧
      (statements eof true (t :: ts)).rest = t :: ts := by
  rw [statements]
  simp [hk]

end

/-- The statements of a block, up to its closing brace. -/
theorem follows_statements {k : Nat} (hk : k ≤ n + 1) {ts ts' : List Token}
    (hlt : ts.length < k) (h : Rest R more ts ts')
    (hnoted : (statements eof true ts).noted = []) (hrest : (statements eof true ts).rest ≠ []) :
    (statements eof' true ts').noted = [] ∧
      SameStmts R (statements eof true ts).body (statements eof' true ts').body ∧
      Rest R more (statements eof true ts).rest (statements eof' true ts').rest := by
  induction k generalizing ts ts' with
  | zero => exact absurd hlt (Nat.not_lt_zero _)
  | succ k ihk =>
      cases ts with
      | nil =>
          unfold statements at hrest
          exact absurd rfl hrest
      | cons t ts =>
          obtain ⟨t', us, rfl, ht, hus⟩ := h.cons
          by_cases hb : t.kind = .rightBrace
          · have hb' : t'.kind = .rightBrace := (hR.kind ht).trans hb
            obtain ⟨hbody, hnone, hr⟩ := statements_brace eof ts hb
            obtain ⟨hbody', hnone', hr'⟩ := statements_brace eof' us hb'
            rw [hbody, hbody', hr, hr']
            exact ⟨hnone', fun m => .nil, h⟩
          · have hb' : ¬ t'.kind = .rightBrace := fun hb' => hb ((hR.kind ht).symm.trans hb')
            have hkind : (true && decide (t.kind = .rightBrace)) = false := by simp [hb]
            have hkind' : (true && decide (t'.kind = .rightBrace)) = false := by simp [hb']
            obtain ⟨st, rest, hs, hd, hlater⟩ := declaration_of_statements hkind hnoted
            obtain ⟨hbody, hnone, hr⟩ := statements_done _ hkind hd
            rw [hr] at hrest
            have hclosed : rest = [] → NoElse more := fun h0 => by
              subst h0
              unfold statements at hrest
              exact absurd rfl hrest
            obtain ⟨st', rest', hs', hd', hst, hrest'⟩ :=
              follows_declaration hR ih (by omega) h _ _ _ hd hclosed
            obtain ⟨hbody', hnone', hr'⟩ := statements_done _ hkind' hd'
            have hlt' : rest.length < k := by
              simp only [List.length_cons] at hs hlt
              omega
            obtain ⟨hnoted', hsame, hfinal⟩ := ihk (by omega) hlt' hrest' hlater hrest
            rw [hbody, hbody', hnone', hr, hr']
            exact ⟨by simpa using hnoted', fun m => .cons (hst m) (hsame m), hfinal⟩

theorem follows_blockBody :
    Agree R more (n + 1) True (SameStmts R) (blockBody eof) (blockBody eof') := by
  intro ts ts' hlt h v rest hs he _
  unfold blockBody at he
  dsimp only at he
  cases hx : expect eof .rightBrace "'\x7d' after block" (statements eof true ts).rest with
  | stuck => rw [hx] at he; cases he
  | done t us noted hus =>
      rw [hx] at he
      simp only [Reading.map, Reading.widen, noting, done.injEq, List.append_eq_nil_iff] at he
      obtain ⟨rfl, rfl, hnoted, rfl⟩ := he
      have hne : (statements eof true ts).rest ≠ [] := fun h0 => by
        rw [h0] at hus
        exact Nat.not_lt_zero _ hus
      obtain ⟨hnoted', hsame, hrest⟩ := follows_statements hR ih (Nat.le_refl _) hlt h hnoted hne
      obtain ⟨t', us', hus', hx', -, hfinal⟩ :=
        follows_expect hR .rightBrace _ hrest _ _ _ hx fun _ => trivial
      refine ⟨(statements eof' true ts').body, us',
        Nat.lt_of_lt_of_le hus' (statements eof' true ts').bounded, ?_, hsame, hfinal⟩
      unfold blockBody
      dsimp only
      rw [hx', hnoted']
      rfl

omit ih in
/-- All readers follow themselves on lists of any length. -/
theorem upto (n : Nat) : Upto R more eof eof' n := by
  induction n with
  | zero =>
      constructor
      all_goals first
        | exact fun hlt => absurd hlt (Nat.not_lt_zero _)
        | exact fun _ => fun hlt => absurd hlt (Nat.not_lt_zero _)
  | succ n ih =>
      exact {
        operand := fun p => follows_operand hR ih p
        climbOn := fun p => follows_climbOn hR ih p
        unary := follows_unary hR ih
        callOn := follows_callOn hR ih
        expression := follows_expression hR ih
        argumentList := follows_argumentList hR ih
        arguments := follows_arguments hR ih
        elementsAfter := follows_elementsAfter hR ih
        elements := follows_elements hR ih
        array := follows_array hR ih
        methods := follows_methods hR ih
        statement := follows_statement hR ih
        blockBody := follows_blockBody hR ih }

omit ih in
variable (more eof') in
/-- The statements of a program, whatever statements come after them. -/
theorem follows_program {k : Nat} {ts ts' : List Token} (hlt : ts.length < k)
    (h : Rest R more ts ts') (hmore : NoElse more)
    (hnoted : (statements eof false ts).noted = []) :
    (statements eof' false ts').noted = (statements eof' false more).noted ∧
      ∃ body', SameStmts R (statements eof false ts).body body' ∧
        (statements eof' false ts').body = body' ++ (statements eof' false more).body := by
  induction k generalizing ts ts' with
  | zero => exact absurd hlt (Nat.not_lt_zero _)
  | succ k ihk =>
      cases ts with
      | nil =>
          obtain ⟨us, hus, rfl⟩ := h
          cases hus
          refine ⟨rfl, [], ?_, rfl⟩
          unfold statements
          exact fun m => .nil
      | cons t ts =>
          obtain ⟨t', us, rfl, ht, hus⟩ := h.cons
          obtain ⟨st, rest, hs, hd, hlater⟩ := declaration_of_statements rfl hnoted
          obtain ⟨hbody, -, -⟩ := statements_done false rfl hd
          obtain ⟨st', rest', hs', hd', hst, hrest'⟩ :=
            follows_declaration hR (upto hR _) (Nat.lt_succ_self _) h _ _ _ hd fun _ => hmore
          obtain ⟨hbody', hnone', -⟩ := statements_done false rfl hd'
          have hlt' : rest.length < k := by
            simp only [List.length_cons] at hs hlt
            omega
          obtain ⟨hnoted', body', hsame, hfinal⟩ := ihk hlt' hrest' hlater
          rw [hbody, hbody', hnone', hfinal]
          exact ⟨hnoted', st' :: body', fun m => .cons (hst m) (hsame m), rfl⟩

omit hR ih

/-! ## No statement begins with `else` -/

/-- Nothing is read. -/
def Fails {α : Type} {n : Nat} (r : Reading α n) : Prop :=
  ∃ e rest noted h, r = .stuck e rest noted h

section
variable {α β : Type} {k : Nat} {r : Reading α k}

theorem Fails.andThen (h : Fails r)
    (f : α → (rest : List Token) → rest.length < k → Reading β rest.length) :
    Fails (r.andThen f) := by
  obtain ⟨e, rest, noted, hle, rfl⟩ := h
  exact ⟨e, rest, noted, hle, rfl⟩

theorem Fails.andPerhaps (h : Fails r)
    (f : α → (rest : List Token) → rest.length < k → Reading β (rest.length + 1)) :
    Fails (r.andPerhaps f) := by
  obtain ⟨e, rest, noted, hle, rfl⟩ := h
  exact ⟨e, rest, noted, hle, rfl⟩

end

section
variable {t : Token} {ts : List Token} (hk : t.kind = .kwElse)
include hk

theorem fails_unary : Fails (unary eof (t :: ts)) := by
  have hprimary : Fails (primary eof (t :: ts)) := by
    unfold primary
    simp only [hk]
    exact ⟨_, _, _, _, rfl⟩
  unfold unary
  simp only [hk, reduceCtorEq, or_self, if_false]
  unfold call
  exact hprimary.andPerhaps _

theorem fails_operand (p : Precedence) : Fails (operand eof p (t :: ts)) := by
  induction hh : p.height using Nat.strongRecOn generalizing p with
  | ind h hp =>
      unfold operand
      split
      · rename_i q hq
        unfold climb
        exact (hp q.height (hh ▸ Precedence.height_tighter hq) q rfl).andPerhaps _
      · exact fails_unary hk

theorem fails_declaration : Fails (declaration eof (t :: ts)) := by
  have hexpression : Fails (expression eof (t :: ts)) := by
    unfold expression climb
    exact ((fails_operand hk _).andPerhaps _).andPerhaps _
  unfold declaration
  simp only [hk]
  unfold statement
  simp only [hk]
  unfold expressionStatement
  exact hexpression.andThen _

end

theorem noElse_of_statements {ts : List Token} (h : (statements eof false ts).noted = []) :
    NoElse ts := by
  cases ts with
  | nil => rfl
  | cons t ts =>
      obtain ⟨st, rest, hs, hd, -⟩ := declaration_of_statements rfl h
      by_contra hne
      have hk : t.kind = .kwElse := by simpa [NoElse, nextIs] using hne
      have hfails : Fails (declaration eof (t :: ts)) := fails_declaration hk
      obtain ⟨e, us, noted, hle, hstuck⟩ := hfails
      rw [hstuck] at hd
      cases hd

end Parser

/-! ## Programs -/

/-- What parsing makes of tokens that an `eof` follows; what stands behind it is
not read. -/
theorem parse_before {ts : List Token} {e : Token} (hts : ∀ t ∈ ts, t.kind ≠ .eof)
    (he : e.kind = .eof) (more : List Token) : parse (ts ++ e :: more) =
      match (Parser.statements e false ts).noted with
      | [] => .ok (Parser.statements e false ts).body
      | errors => .error errors := by
  have hne : ∀ t ∈ ts, decide (t.kind ≠ .eof) = true := fun t ht => by simpa using hts t ht
  unfold parse
  rw [List.span_eq_takeWhile_dropWhile, List.takeWhile_append_of_pos hne,
    List.dropWhile_append_of_pos hne, List.takeWhile_cons_of_neg (by simp [he]),
    List.dropWhile_cons_of_neg (by simp [he]), List.append_nil]
  rfl

/-- What parsing makes of tokens that the end of a text follows. -/
theorem parse_eq {ts : List Token} {e : Token} (hts : ∀ t ∈ ts, t.kind ≠ .eof)
    (he : e.kind = .eof) : parse (ts ++ [e]) =
      match (Parser.statements e false ts).noted with
      | [] => .ok (Parser.statements e false ts).body
      | errors => .error errors :=
  parse_before hts he []

/-- Programs written one after the other are read one after the other, also
with other tokens that are alike. -/
theorem parse_append {R : Likeness} (hR : R.OfTexts) {ts us ts' us' : List Token}
    {p q : List Stmt} {e₁ e₂ e : Token} (hts : ∀ t ∈ ts, t.kind ≠ .eof)
    (hus : ∀ t ∈ us, t.kind ≠ .eof) (he₁ : e₁.kind = .eof) (he₂ : e₂.kind = .eof)
    (he : e.kind = .eof) (hp : parse (ts ++ [e₁]) = .ok p) (hq : parse (us ++ [e₂]) = .ok q)
    (ht : List.Forall₂ R.token ts ts') (hu : List.Forall₂ R.token us us') :
    ∃ p' q', parse (ts' ++ us' ++ [e]) = .ok (p' ++ q') ∧ Parser.SameStmts R p p' ∧
      Parser.SameStmts R q q' := by
  have hkind : ∀ {as bs : List Token}, List.Forall₂ R.token as bs →
      (∀ t ∈ as, t.kind ≠ .eof) → ∀ t ∈ bs, t.kind ≠ .eof := by
    intro as bs h
    induction h with
    | nil => exact fun _ => nofun
    | cons hab _ ih =>
        intro has t ht
        rcases List.mem_cons.mp ht with rfl | ht
        · rw [hR.kind hab]
          exact has _ List.mem_cons_self
        · exact ih (fun t ht => has t (List.mem_cons_of_mem _ ht)) t ht
  have hall : ∀ t ∈ ts' ++ us', t.kind ≠ .eof := fun t h =>
    (List.mem_append.mp h).elim (hkind ht hts t) (hkind hu hus t)
  rw [parse_eq hts he₁] at hp
  rw [parse_eq hus he₂] at hq
  split at hp
  · rename_i hpn
    cases hp
    split at hq
    · rename_i hqn
      cases hq
      have hnil : (Parser.statements e false []).noted = [] ∧
          (Parser.statements e false []).body = [] := by
        unfold Parser.statements
        exact ⟨rfl, rfl⟩
      -- the second program by itself, and then the first one before it
      obtain ⟨hqn', q', hsame, hqbody⟩ := Parser.follows_program hR [] e
        (Nat.lt_succ_self us.length) ⟨us', hu, (List.append_nil us').symm⟩ rfl hqn
      rw [hnil.1] at hqn'
      rw [hnil.2, List.append_nil] at hqbody
      obtain ⟨hpn', p', hsame', hpbody⟩ := Parser.follows_program hR us' e
        (Nat.lt_succ_self ts.length) ⟨ts', ht, rfl⟩ (Parser.noElse_of_statements hqn') hpn
      refine ⟨p', q', ?_, hsame', hsame⟩
      rw [parse_eq hall he, hpn', hqn', hpbody, hqbody]
    · cases hq
  · cases hp

/-- A program is read alike from tokens that are alike. -/
theorem parse_like {R : Likeness} (hR : R.OfTexts) {ts ts' : List Token} {p : List Stmt}
    {e e' : Token} (hts : ∀ t ∈ ts, t.kind ≠ .eof) (he : e.kind = .eof) (he' : e'.kind = .eof)
    (hp : parse (ts ++ [e]) = .ok p) (ht : List.Forall₂ R.token ts ts') :
    ∃ p', parse (ts' ++ [e']) = .ok p' ∧ Parser.SameStmts R p p' := by
  have hnil : parse ([] ++ [e]) = .ok [] := by
    rw [parse_eq (List.forall_mem_nil _) he]
    unfold Parser.statements
    rfl
  obtain ⟨p', q', hparse, hsame, hq⟩ :=
    parse_append hR hts (List.forall_mem_nil _) he he he' hp hnil ht .nil
  cases hq none
  rw [List.append_nil, List.append_nil] at hparse
  exact ⟨p', hparse, hsame⟩

end Lox
