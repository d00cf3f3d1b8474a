/-
# What is read derives

A reader that is done without an error took the tokens of a construct from the
front of its list, and read the tree that these tokens derive.
`Reading.Yields` says of a reading what holds of the construct and the rest,
with one lemma for each way of joining readers; then there is one lemma for
each construct.  The constructs call each other, so the lemmas are about lists
shorter than a bound, and an induction on the bound puts them together.

That an `if` without `else` is followed by no `else` is carried along: this is
what makes the statement before an `else` a closed one.
-/
import Lox.Proofs.Grammar
import Lox.Proofs.Parse

namespace Lox

namespace Reading

variable {α β : Type} {n : Nat}

/-- Whatever is read without an error, `P` holds of it and of the rest. -/
def Yields (r : Reading α n) (P : α → List Token → Prop) : Prop :=
  ∀ v rest h, r = .done v rest [] h → P v rest

variable {P : α → List Token → Prop} {Q : β → List Token → Prop} {r : Reading α n}

theorem yields_here {a : α} {ts : List Token} (h : P a ts) : (here a ts).Yields P := by
  intro v rest hlt he
  cases he
  exact h

theorem yields_stuck {e : SyntaxError} {rest : List Token} {noted : List SyntaxError}
    {h : rest.length ≤ n} : (stuck e rest noted h : Reading α n).Yields P := by
  intro v rest hlt he
  cases he

theorem Yields.imp {P' : α → List Token → Prop} (h : r.Yields P)
    (hP : ∀ a ts, P a ts → P' a ts) : r.Yields P' :=
  fun v rest hlt he => hP v rest (h v rest hlt he)

theorem Yields.map {f : α → β} (h : r.Yields fun a rest => Q (f a) rest) :
    (r.map f).Yields Q := by
  intro v rest hlt he
  cases r with
  | stuck => cases he
  | done a ts noted hn =>
      cases he
      exact h a rest hn rfl

theorem Yields.widen {k : Nat} {le : n ≤ k} (h : r.Yields P) : (r.widen le).Yields P := by
  intro v rest hlt he
  cases r with
  | stuck => cases he
  | done a ts noted hn =>
      cases he
      exact h v rest hn rfl

theorem Yields.loosen (h : r.Yields P) : r.loosen.Yields P := h.widen

theorem Yields.andThen {f : α → (rest : List Token) → rest.length < n → Reading β rest.length}
    (h : r.Yields P) (hf : ∀ a ts hs, P a ts → (f a ts hs).Yields Q) :
    (r.andThen f).Yields Q := by
  intro v rest hlt he
  cases r with
  | stuck => cases he
  | done a ts noted hn =>
      simp only [Reading.andThen] at he
      cases hfa : f a ts hn with
      | stuck => rw [hfa] at he; cases he
      | done b us later hb =>
          rw [hfa] at he
          simp only [Reading.widen, noting, done.injEq, List.append_eq_nil_iff] at he
          obtain ⟨rfl, rfl, rfl, rfl⟩ := he
          exact hf a ts hn (h a ts hn rfl) b us hb hfa

theorem Yields.andPerhaps
    {f : α → (rest : List Token) → rest.length < n → Reading β (rest.length + 1)}
    (h : r.Yields P) (hf : ∀ a ts hs, P a ts → (f a ts hs).Yields Q) :
    (r.andPerhaps f).Yields Q := by
  intro v rest hlt he
  cases r with
  | stuck => cases he
  | done a ts noted hn =>
      simp only [Reading.andPerhaps] at he
      cases hfa : f a ts hn with
      | stuck => rw [hfa] at he; cases he
      | done b us later hb =>
          rw [hfa] at he
          simp only [Reading.widen, noting, done.injEq, List.append_eq_nil_iff] at he
          obtain ⟨rfl, rfl, rfl, rfl⟩ := he
          exact hf a ts hn (h a ts hn rfl) b us hb hfa

end Reading

namespace Parser

open Reading Grammar

variable {eof : Token} {n : Nat}

theorem yields_expect (kind : TokenKind) (what : String) (ts : List Token) :
    (expect eof kind what ts).Yields fun t rest => ts = t :: rest ∧ t.kind = kind := by
  unfold expect
  split
  · rename_i t rest
    split
    · rename_i hk
      exact yields_here ⟨rfl, hk⟩
    · exact yields_stuck
  · exact yields_stuck

/-- The list begins with a construct, and what is left follows it. -/
def From (c : Category) (ts : List Token) (v : c.Tree) (rest : List Token) : Prop :=
  ∃ used, ts = used ++ rest ∧ Derives c used v

/-- The list begins with a construct and a token of the kind `kind`. -/
def FromTo (c : Category) (kind : TokenKind) (ts : List Token) (v : c.Tree)
    (rest : List Token) : Prop :=
  ∃ used t, ts = used ++ t :: rest ∧ Derives c used v ∧ t.kind = kind

/-- The list begins with arguments, not too many, and a closing parenthesis. -/
def FromArguments (ts : List Token) (v : List Expr × Token) (rest : List Token) : Prop :=
  ∃ used, ts = used ++ v.2 :: rest ∧ v.2.kind = .rightParen ∧ Derives .items used v.1 ∧
    v.1.length ≤ maxArguments

/-- The list begins with a statement, and an `else` behind it would not belong
to it. -/
def FromStatement (ts : List Token) (st : Stmt) (rest : List Token) : Prop :=
  ∃ closed, From (.statement closed) ts st rest ∧ (closed = false → NoElse rest)

/-- The list begins with the parameters and the body of the function. -/
def FromFunction (keyword : Token) (name : Option Token) (ts : List Token) (d : FunctionDecl)
    (rest : List Token) : Prop :=
  ∃ ps body, d = .mk keyword name ps body ∧ From .callable ts (ps, body) rest

theorem yields_parameters (n count : Nat) {ts : List Token} (hlt : ts.length < n) :
    (parameters eof count ts).Yields fun ps rest =>
      From .params ts ps rest ∧ count + ps.length ≤ maxArguments := by
  induction n generalizing count ts with
  | zero => exact absurd hlt (Nat.not_lt_zero _)
  | succ n ih =>
      unfold parameters
      split
      · exact yields_stuck
      · rename_i hcount
        refine (yields_expect _ _ _).andPerhaps ?_
        rintro x ts₁ hs ⟨rfl, hx⟩
        have hone : From .params (x :: ts₁) [x] ts₁ ∧ count + [x].length ≤ maxArguments :=
          ⟨⟨[x], rfl, .param hx⟩, Nat.succ_le_of_lt (Nat.lt_of_not_le hcount)⟩
        split
        · rename_i t ts₂ _
          split
          · rename_i hc
            simp only [List.length_cons] at hlt
            refine (Yields.map ((ih (count + 1) (by omega)).imp ?_)).loosen.loosen
            rintro ps rest ⟨⟨used, rfl, hps⟩, hle⟩
            exact ⟨⟨x :: t :: used, rfl, .params hx hc hps⟩, by simp only [List.length_cons]; omega⟩
          · exact yields_here hone
        · exact yields_here hone

/-- The readers that earlier ones call, on shorter lists. -/
structure Sound (eof : Token) (n : Nat) : Prop where
  operand : ∀ p {ts}, ts.length < n →
    (operand eof p ts).Yields (From (.operation p.tighter) ts)
  climbOn : ∀ p {us ts e}, ts.length < n → Derives (.operation (some p)) us e →
    (climbOn eof p e ts).Yields (From (.operation (some p)) (us ++ ts))
  unary : ∀ {ts}, ts.length < n → (unary eof ts).Yields (From (.operation none) ts)
  callOn : ∀ {us ts e}, ts.length < n → Derives .call us e →
    (callOn eof e ts).Yields (From .call (us ++ ts))
  expression : ∀ {ts}, ts.length < n → (expression eof ts).Yields (From .expression ts)
  argumentList : ∀ count {ts}, ts.length < n → (argumentList eof count ts).Yields
    fun es rest => From .list ts es rest ∧ count + es.length ≤ maxArguments
  arguments : ∀ {ts}, ts.length < n → (arguments eof ts).Yields (FromArguments ts)
  elementsAfter : ∀ {ts}, ts.length < n →
    (elementsAfter eof ts).Yields (FromTo .more .rightBracket ts)
  elements : ∀ {ts}, ts.length < n →
    (elements eof ts).Yields (FromTo .items .rightBracket ts)
  array : ∀ {l ts}, ts.length < n → l.kind = .leftBracket →
    (array eof l ts).Yields (From .primary (l :: ts))
  methods : ∀ {ts}, ts.length < n → (methods eof ts).Yields (FromTo .methods .rightBrace ts)
  statement : ∀ {ts}, ts.length < n → (statement eof ts).Yields (FromStatement ts)
  blockBody : ∀ {ts}, ts.length < n → (blockBody eof ts).Yields (FromTo .program .rightBrace ts)

variable (ih : Sound eof n)
include ih

/-! ## Expressions -/

theorem yields_climbOn (p : Precedence) {us ts : List Token} {e : Expr}
    (hlt : ts.length < n + 1) (he : Derives (.operation (some p)) us e) :
    (climbOn eof p e ts).Yields (From (.operation (some p)) (us ++ ts)) := by
  unfold climbOn
  split
  · rename_i op ts₁
    split
    · rename_i hop
      simp only [List.length_cons] at hlt
      refine ((ih.operand p (by omega)).andPerhaps ?_).loosen.loosen
      rintro right ts₂ hs ⟨vs, rfl, hr⟩
      refine (ih.climbOn p (by omega) (.join he hop hr)).imp ?_
      rintro v rest ⟨used, heq, hv⟩
      exact ⟨used, by rw [← heq]; simp, hv⟩
    · exact yields_here ⟨us, rfl, he⟩
  · exact yields_here ⟨us, rfl, he⟩

theorem yields_elementsAfter {ts : List Token} (hlt : ts.length < n + 1) :
    (elementsAfter eof ts).Yields (FromTo .more .rightBracket ts) := by
  unfold elementsAfter
  split
  · rename_i t ts₁
    simp only [List.length_cons] at hlt
    split
    · rename_i hc
      refine ((ih.expression (by omega)).andThen ?_).loosen
      rintro e ts₂ hs ⟨us, rfl, he⟩
      refine Yields.map ((ih.elementsAfter (by omega)).imp ?_)
      rintro es rest ⟨vs, r, rfl, hes, hr⟩
      exact ⟨t :: (us ++ vs), r, by simp, .more hc he hes, hr⟩
    · split
      · rename_i hr
        exact yields_here ⟨[], t, rfl, .noMore, hr⟩
      · exact yields_stuck
  · exact yields_stuck

theorem yields_callOn {us ts : List Token} {e : Expr} (hlt : ts.length < n + 1)
    (he : Derives .call us e) : (callOn eof e ts).Yields (From .call (us ++ ts)) := by
  -- one more link, and the links behind it
  have hnext : ∀ {vs ts' e'}, ts'.length < n → Derives .call vs e' → vs ++ ts' = us ++ ts →
      (callOn eof e' ts').Yields (From .call (us ++ ts)) := by
    intro vs ts' e' hlt' he' heq
    rw [← heq]
    exact ih.callOn hlt' he'
  unfold callOn
  split
  · rename_i t ts₁
    simp only [List.length_cons] at hlt
    split
    · rename_i ht
      refine ((ih.arguments (by omega)).andPerhaps ?_).loosen.loosen
      rintro ⟨es, r⟩ ts₂ hs ⟨vs, rfl, hr, hes, hle⟩
      exact hnext (by omega) (.call he ht hes hle hr) (by simp)
    · split
      · rename_i ht
        refine ((yields_expect _ _ _).andPerhaps ?_).loosen.loosen
        rintro x ts₂ hs ⟨rfl, hx⟩
        exact hnext (by omega) (.get he ht hx) (by simp)
      · split
        · rename_i ht
          refine ((ih.expression (by omega)).andThen ?_).loosen.loosen
          rintro i ts₂ hs ⟨vs, rfl, hi⟩
          refine (yields_expect _ _ _).andPerhaps ?_
          rintro r ts₃ hs' ⟨rfl, hr⟩
          exact hnext (by omega) (.index he ht hi hr) (by simp)
        · exact yields_here ⟨us, rfl, he⟩
  · exact yields_here ⟨us, rfl, he⟩

/-! ## Functions -/

theorem yields_functionBody {k l : Token} {name : Option Token} {ps us ts : List Token}
    (hlt : ts.length < n + 1) (hl : l.kind = .leftParen)
    (hps : Derives .params us ps ∧ ps.length ≤ maxArguments ∨ us = [] ∧ ps = []) :
    (functionBody eof k name ps ts).Yields (FromFunction k name (l :: (us ++ ts))) := by
  unfold functionBody
  refine (yields_expect _ _ _).andThen ?_
  rintro r ts₁ _ ⟨rfl, hr⟩
  refine (yields_expect _ _ _).andThen ?_
  rintro o ts₂ _ ⟨rfl, ho⟩
  simp only [List.length_cons] at hlt
  refine Yields.map ((ih.blockBody (by omega)).imp ?_)
  rintro body rest ⟨vs, c, rfl, hbody, hc⟩
  have hblock : Derives .block (o :: (vs ++ [c])) body := .block ho hbody hc
  rcases hps with ⟨hps, hle⟩ | ⟨rfl, rfl⟩
  · exact ⟨ps, body, rfl, l :: (us ++ r :: o :: (vs ++ [c])), by simp,
      .callableOf hl hps hle hr hblock⟩
  · exact ⟨[], body, rfl, l :: r :: o :: (vs ++ [c]), by simp, .callable hl hr hblock⟩

theorem yields_functionAfterName {k : Token} {name : Option Token} {ts : List Token}
    (hlt : ts.length < n + 1) :
    (functionAfterName eof k name ts).Yields (FromFunction k name ts) := by
  unfold functionAfterName
  refine (yields_expect _ _ _).andThen ?_
  rintro l ts₁ _ ⟨rfl, hl⟩
  simp only [List.length_cons] at hlt
  split
  · exact yields_functionBody ih (by omega) hl (.inr ⟨rfl, rfl⟩)
  · refine (yields_parameters _ 0 (Nat.lt_succ_self _)).andThen ?_
    rintro ps ts₂ hs ⟨⟨us, rfl, hps⟩, hle⟩
    exact yields_functionBody ih (by omega) hl (.inl ⟨hps, by omega⟩)

theorem yields_functionNamed {k : Token} {ts : List Token} (hlt : ts.length < n + 1) :
    (functionNamed eof k ts).Yields fun d rest => ∃ x us, ts = x :: us ∧ x.kind = .identifier ∧
      FromFunction k (some x) us d rest := by
  unfold functionNamed
  refine (yields_expect _ _ _).andThen ?_
  rintro x ts₁ _ ⟨rfl, hx⟩
  simp only [List.length_cons] at hlt
  refine (yields_functionAfterName ih (by omega)).imp ?_
  exact fun d rest hd => ⟨x, ts₁, rfl, hx, hd⟩

theorem yields_lambda {k : Token} {ts : List Token} (hlt : ts.length < n + 1)
    (hk : k.kind = .kwFun) :
    ((lambda eof k ts).map Expr.function).Yields (From .primary (k :: ts)) := by
  refine Yields.map ?_
  unfold lambda
  split
  · rename_i x ts₁
    split
    · rename_i hx
      simp only [List.length_cons] at hlt
      refine ((yields_functionAfterName ih (by omega)).imp ?_).loosen
      rintro _ rest ⟨ps, body, rfl, us, rfl, hd⟩
      exact ⟨k :: x :: us, rfl, .namedLambda hk hx hd⟩
    · refine (yields_functionAfterName ih hlt).imp ?_
      rintro _ rest ⟨ps, body, rfl, us, heq, hd⟩
      exact ⟨k :: us, by rw [heq]; rfl, .lambda hk hd⟩
  · refine (yields_functionAfterName ih hlt).imp ?_
    rintro _ rest ⟨ps, body, rfl, us, heq, hd⟩
    exact ⟨k :: us, by rw [heq]; rfl, .lambda hk hd⟩

/-! ## Primaries and operations -/

theorem yields_primary {ts : List Token} (hlt : ts.length < n + 1) :
    (primary eof ts).Yields (From .primary ts) := by
  unfold primary
  split
  · exact yields_stuck
  · rename_i t ts₁
    simp only [List.length_cons] at hlt
    split
    · rename_i hk
      exact yields_here ⟨[t], rfl, .ofFalse hk⟩
    · rename_i hk
      exact yields_here ⟨[t], rfl, .ofTrue hk⟩
    · rename_i hk
      exact yields_here ⟨[t], rfl, .ofNil hk⟩
    · rename_i hk
      split
      · rename_i x hx
        exact yields_here ⟨[t], rfl, .ofNumber hk hx⟩
      · exact yields_stuck
    · rename_i hk
      exact yields_here ⟨[t], rfl, .ofString hk⟩
    · rename_i hk
      exact yields_here ⟨[t], rfl, .ofName hk⟩
    · rename_i hk
      exact yields_here ⟨[t], rfl, .receiver hk⟩
    · rename_i hk
      refine ((yields_expect _ _ _).andThen ?_).loosen
      rintro d ts₂ _ ⟨rfl, hd⟩
      refine Yields.map ((yields_expect _ _ _).imp ?_)
      rintro x rest ⟨rfl, hx⟩
      exact ⟨[t, d, x], rfl, .superMethod hk hd hx⟩
    · rename_i hk
      exact (yields_lambda ih (by omega) hk).loosen
    · rename_i hk
      exact (ih.array (by omega) hk).loosen
    · rename_i hk
      refine ((ih.expression (by omega)).andThen ?_).loosen
      rintro e ts₂ _ ⟨us, rfl, he⟩
      refine Yields.map ((yields_expect _ _ _).imp ?_)
      rintro r rest ⟨rfl, hr⟩
      exact ⟨t :: (us ++ [r]), by simp, .grouping hk he hr⟩
    · exact yields_stuck

theorem yields_call {ts : List Token} (hlt : ts.length < n + 1) :
    (call eof ts).Yields (From .call ts) := by
  unfold call
  refine (yields_primary ih hlt).andPerhaps ?_
  rintro e ts₁ hs ⟨us, rfl, he⟩
  simp only [List.length_append] at hlt
  exact yields_callOn ih (by omega) (.ofPrimary he)

theorem yields_unary {ts : List Token} (hlt : ts.length < n + 1) :
    (unary eof ts).Yields (From (.operation none) ts) := by
  have hcall : (call eof ts).Yields (From (.operation none) ts) :=
    (yields_call ih hlt).imp fun _ _ ⟨us, heq, he⟩ => ⟨us, heq, .ofCall he⟩
  unfold unary
  split
  · rename_i t ts₁
    split
    · rename_i hop
      simp only [List.length_cons] at hlt
      refine (Yields.map ((ih.unary (by omega)).imp ?_)).loosen
      rintro e rest ⟨us, rfl, he⟩
      exact ⟨t :: us, rfl, .unary hop he⟩
    · exact hcall
  · exact hcall

theorem yields_operand (p : Precedence) {ts : List Token} (hlt : ts.length < n + 1) :
    (operand eof p ts).Yields (From (.operation p.tighter) ts) := by
  induction hh : p.height using Nat.strongRecOn generalizing p with
  | ind h hp =>
      unfold operand
      split
      · rename_i q hq
        show (climb eof q ts).Yields (From (.operation p.tighter) ts)
        rw [hq]
        unfold climb
        refine (hp q.height (hh ▸ Precedence.height_tighter hq) q rfl).andPerhaps ?_
        rintro e ts₁ hs ⟨us, rfl, he⟩
        simp only [List.length_append] at hlt
        exact yields_climbOn ih q (by omega) (.operand he)
      · rename_i hnone
        rw [hnone]
        exact yields_unary ih hlt

theorem yields_climb (p : Precedence) {ts : List Token} (hlt : ts.length < n + 1) :
    (climb eof p ts).Yields (From (.operation (some p)) ts) := by
  unfold climb
  refine (yields_operand ih p hlt).andPerhaps ?_
  rintro e ts₁ hs ⟨us, rfl, he⟩
  simp only [List.length_append] at hlt
  exact yields_climbOn ih p (by omega) (.operand he)

theorem yields_expression {ts : List Token} (hlt : ts.length < n + 1) :
    (expression eof ts).Yields (From .expression ts) := by
  unfold expression
  refine (yields_climb ih .disjunction hlt).andPerhaps ?_
  rintro target ts₁ hs ⟨us, rfl, htarget⟩
  split
  · rename_i t ts₂ _
    split
    · rename_i ht
      simp only [List.length_append, List.length_cons] at hlt
      refine ((ih.expression (by omega)).andPerhaps ?_).loosen.loosen
      rintro v ts₃ hs' ⟨vs, rfl, hv⟩
      split
      · rename_i e he
        exact yields_here ⟨us ++ t :: vs, by simp, htarget.assigned ht hv he⟩
      · exact yields_stuck
    · exact yields_here ⟨us, rfl, .ofOperation htarget⟩
  · exact yields_here ⟨us, rfl, .ofOperation htarget⟩

/-! ## Arguments and elements -/

theorem yields_argumentList (count : Nat) {ts : List Token} (hlt : ts.length < n + 1) :
    (argumentList eof count ts).Yields fun es rest =>
      From .list ts es rest ∧ count + es.length ≤ maxArguments := by
  unfold argumentList
  split
  · exact yields_stuck
  · rename_i hcount
    refine (yields_expression ih hlt).andPerhaps ?_
    rintro e ts₁ hs ⟨us, rfl, he⟩
    have hone : From .list (us ++ ts₁) [e] ts₁ ∧ count + [e].length ≤ maxArguments :=
      ⟨⟨us ++ [], by simp, .list he .noMore⟩, Nat.succ_le_of_lt (Nat.lt_of_not_le hcount)⟩
    split
    · rename_i t ts₂ _
      split
      · rename_i hc
        simp only [List.length_append, List.length_cons] at hlt
        refine (Yields.map ((ih.argumentList (count + 1) (by omega)).imp ?_)).loosen.loosen
        rintro es rest ⟨⟨vs, rfl, hes⟩, hle⟩
        refine ⟨⟨us ++ t :: vs, by simp, ?_⟩, by simp only [List.length_cons]; omega⟩
        cases hes with
        | list he' hmore => exact .list he (.more hc he' hmore)
      · exact yields_here hone
    · exact yields_here hone

theorem yields_arguments {ts : List Token} (hlt : ts.length < n + 1) :
    (arguments eof ts).Yields (FromArguments ts) := by
  unfold arguments
  split
  · rename_i t ts₁
    split
    · rename_i hr
      exact yields_here ⟨[], rfl, hr, .noItem, Nat.zero_le _⟩
    · refine (yields_argumentList ih 0 hlt).andThen ?_
      rintro es ts₂ hs ⟨⟨us, heq, hes⟩, hle⟩
      refine Yields.map ((yields_expect _ _ _).imp ?_)
      rintro r rest ⟨rfl, hr⟩
      exact ⟨us, heq, hr, .ofList hes, by simpa using hle⟩
  · exact yields_stuck

theorem yields_elements {ts : List Token} (hlt : ts.length < n + 1) :
    (elements eof ts).Yields (FromTo .items .rightBracket ts) := by
  unfold elements
  split
  · rename_i t ts₁
    split
    · rename_i hr
      exact yields_here ⟨[], t, rfl, .noItem, hr⟩
    · refine (yields_expression ih hlt).andThen ?_
      rintro e ts₂ hs ⟨us, heq, he⟩
      simp only [List.length_cons] at hlt hs
      refine Yields.map ((ih.elementsAfter (by omega)).imp ?_)
      rintro es rest ⟨vs, r, rfl, hes, hr⟩
      exact ⟨us ++ vs, r, by rw [heq]; simp, .ofList (.list he hes), hr⟩
  · exact yields_stuck

theorem yields_arrayAfter {l : Token} {us ts : List Token} {first : Expr}
    (hlt : ts.length < n) (hl : l.kind = .leftBracket) (hfirst : Derives .expression us first) :
    (arrayAfter eof l first ts).Yields (From .primary (l :: (us ++ ts))) := by
  unfold arrayAfter
  split
  · refine (yields_expect _ _ _).andThen ?_
    rintro c ts₁ _ ⟨rfl, hc⟩
    simp only [List.length_cons] at hlt
    refine Yields.map ((ih.elements (by omega)).imp ?_)
    rintro es rest ⟨vs, r, rfl, hes, hr⟩
    exact ⟨l :: (us ++ c :: (vs ++ [r])), by simp, .sizedArray hl hfirst hc hes hr⟩
  · refine Yields.map ((ih.elementsAfter hlt).imp ?_)
    rintro es rest ⟨vs, r, rfl, hes, hr⟩
    exact ⟨l :: (us ++ vs ++ [r]), by simp, .array hl (.ofList (.list hfirst hes)) hr⟩

theorem yields_array {l : Token} {ts : List Token} (hlt : ts.length < n + 1)
    (hl : l.kind = .leftBracket) : (array eof l ts).Yields (From .primary (l :: ts)) := by
  unfold array
  split
  · rename_i t ts₁
    split
    · rename_i hr
      exact yields_here ⟨[l, t], rfl, .array hl .noItem hr⟩
    · refine (yields_expression ih hlt).andThen ?_
      rintro first ts₂ hs ⟨us, heq, hfirst⟩
      rw [heq]
      exact yields_arrayAfter ih (by omega) hl hfirst
  · exact yields_stuck

/-! ## Declarations -/

theorem yields_varDeclaration {k : Token} {ts : List Token} (hlt : ts.length < n + 1)
    (hk : k.kind = .kwVar) : (varDeclaration eof ts).Yields (From .varDecl (k :: ts)) := by
  unfold varDeclaration
  refine (yields_expect _ _ _).andThen ?_
  rintro x ts₁ _ ⟨rfl, hx⟩
  simp only [List.length_cons] at hlt
  split
  · refine (yields_expect _ _ _).andThen ?_
    rintro q ts₂ _ ⟨rfl, hq⟩
    simp only [List.length_cons] at hlt
    refine (yields_expression ih (by omega)).andThen ?_
    rintro e ts₃ _ ⟨us, rfl, he⟩
    refine Yields.map ((yields_expect _ _ _).imp ?_)
    rintro s rest ⟨rfl, hs⟩
    exact ⟨k :: x :: q :: (us ++ [s]), by simp, .varInitialized hk hx hq he hs⟩
  · refine Yields.map ((yields_expect _ _ _).imp ?_)
    rintro s rest ⟨rfl, hs⟩
    exact ⟨[k, x, s], rfl, .varDecl hk hx hs⟩

theorem yields_letDeclaration {k : Token} {ts : List Token} (hlt : ts.length < n + 1)
    (hk : k.kind = .kwLet) : (letDeclaration eof ts).Yields (From .letDecl (k :: ts)) := by
  unfold letDeclaration
  refine (yields_expect _ _ _).andThen ?_
  rintro x ts₁ _ ⟨rfl, hx⟩
  refine (yields_expect _ _ _).andThen ?_
  rintro q ts₂ _ ⟨rfl, hq⟩
  simp only [List.length_cons] at hlt
  refine (yields_expression ih (by omega)).andThen ?_
  rintro e ts₃ _ ⟨us, rfl, he⟩
  refine Yields.map ((yields_expect _ _ _).imp ?_)
  rintro s rest ⟨rfl, hs⟩
  exact ⟨k :: x :: q :: (us ++ [s]), by simp, .letDecl hk hx hq he hs⟩

theorem yields_methods {ts : List Token} (hlt : ts.length < n + 1) :
    (methods eof ts).Yields (FromTo .methods .rightBrace ts) := by
  unfold methods
  split
  · rename_i t ts₁
    split
    · rename_i hr
      exact yields_here ⟨[], t, rfl, .noMethod, hr⟩
    · refine (yields_functionNamed ih hlt).andThen ?_
      rintro _ ts₂ hs ⟨x, us, heq, hx, ps, body, rfl, vs, rfl, hd⟩
      cases heq
      refine Yields.map ((ih.methods (by omega)).imp ?_)
      rintro ms rest ⟨ws, r, rfl, hms, hr⟩
      exact ⟨t :: (vs ++ ws), r, by simp, .methods hx hd hms, hr⟩
  · exact yields_stuck

theorem yields_classDeclaration {k : Token} {ts : List Token} (hlt : ts.length < n + 1)
    (hk : k.kind = .kwClass) :
    (classDeclaration eof ts).Yields (From .declaration (k :: ts)) := by
  unfold classDeclaration
  refine (yields_expect _ _ _).andThen ?_
  rintro x ts₁ _ ⟨rfl, hx⟩
  simp only [List.length_cons] at hlt
  split
  · refine (yields_expect _ _ _).andThen ?_
    rintro s ts₂ _ ⟨rfl, hs⟩
    simp only [List.length_cons] at hlt
    refine (yields_call ih (by omega)).andThen ?_
    rintro e ts₃ _ ⟨us, rfl, he⟩
    unfold classBody
    refine (yields_expect _ _ _).andThen ?_
    rintro l ts₄ _ ⟨rfl, hl⟩
    simp only [List.length_append, List.length_cons] at hlt
    refine Yields.map ((yields_methods ih (by omega)).imp ?_)
    rintro ms rest ⟨vs, r, rfl, hms, hr⟩
    exact ⟨k :: x :: s :: (us ++ l :: (vs ++ [r])), by simp,
      .subclassDecl hk hx hs he hl hms hr⟩
  · unfold classBody
    refine (yields_expect _ _ _).andThen ?_
    rintro l ts₂ _ ⟨rfl, hl⟩
    simp only [List.length_cons] at hlt
    refine Yields.map ((yields_methods ih (by omega)).imp ?_)
    rintro ms rest ⟨vs, r, rfl, hms, hr⟩
    exact ⟨k :: x :: l :: (vs ++ [r]), by simp, .classDecl hk hx hl hms hr⟩

theorem yields_moduleDeclaration {k : Token} {ts : List Token} (hlt : ts.length < n + 1)
    (hk : k.kind = .kwModule) :
    (moduleDeclaration eof ts).Yields (From .declaration (k :: ts)) := by
  unfold moduleDeclaration
  refine (yields_expect _ _ _).andThen ?_
  rintro x ts₁ _ ⟨rfl, hx⟩
  refine (yields_expect _ _ _).andThen ?_
  rintro l ts₂ _ ⟨rfl, hl⟩
  simp only [List.length_cons] at hlt
  refine Yields.map ((ih.blockBody (by omega)).imp ?_)
  rintro body rest ⟨us, r, rfl, hbody, hr⟩
  exact ⟨k :: x :: l :: (us ++ [r]), by simp, .moduleDecl hk hx (.block hl hbody hr)⟩

/-! ## Statements -/

theorem yields_expressionStatement {ts : List Token} (hlt : ts.length < n + 1) :
    (expressionStatement eof ts).Yields (From .exprStmt ts) := by
  unfold expressionStatement
  refine (yields_expression ih hlt).andThen ?_
  rintro e ts₁ _ ⟨us, rfl, he⟩
  refine Yields.map ((yields_expect _ _ _).imp ?_)
  rintro s rest ⟨rfl, hs⟩
  exact ⟨us ++ [s], by simp, .exprStmt he hs⟩

/-- An expression that may be left out stands before the token that closes it. -/
theorem yields_clause {α : Type} {kind : TokenKind} {what : String} {absent : α}
    {present : Expr → α} {ts : List Token} (hlt : ts.length < n + 1) :
    (if nextIs kind ts then (expect eof kind what ts).map fun _ => absent
      else (expression eof ts).andThen fun e ts₁ _ =>
        (expect eof kind what ts₁).map fun _ => present e).Yields
      fun v rest => ∃ us c e, ts = us ++ c :: rest ∧ Derives .optional us e ∧ c.kind = kind ∧
        v = e.elim absent present := by
  split
  · refine Yields.map ((yields_expect _ _ _).imp ?_)
    rintro c rest ⟨rfl, hc⟩
    exact ⟨[], c, none, rfl, .absent, hc, rfl⟩
  · refine (yields_expression ih hlt).andThen ?_
    rintro e ts₁ _ ⟨us, rfl, he⟩
    refine Yields.map ((yields_expect _ _ _).imp ?_)
    rintro c rest ⟨rfl, hc⟩
    exact ⟨us, c, some e, rfl, .present he, hc, rfl⟩

theorem yields_returnStatement {k : Token} {ts : List Token} (hlt : ts.length < n + 1)
    (hk : k.kind = .kwReturn) :
    (returnStatement eof k ts).Yields (From (.statement true) (k :: ts)) := by
  unfold returnStatement
  refine (yields_clause ih hlt).imp ?_
  rintro _ rest ⟨us, s, e, rfl, he, hs, rfl⟩
  have hst : Derives (.statement true) (k :: (us ++ [s])) (.returnWith k e) :=
    .returnWith hk he hs
  refine ⟨k :: (us ++ [s]), by simp, ?_⟩
  cases e with
  | none => exact hst
  | some e => exact hst

theorem yields_ifStatement {k : Token} {ts : List Token} (hlt : ts.length < n + 1)
    (hk : k.kind = .kwIf) : (ifStatement eof ts).Yields (FromStatement (k :: ts)) := by
  unfold ifStatement
  refine (yields_expect _ _ _).andThen ?_
  rintro l ts₁ _ ⟨rfl, hl⟩
  simp only [List.length_cons] at hlt
  refine (yields_expression ih (by omega)).andThen ?_
  rintro e ts₂ _ ⟨us, rfl, he⟩
  refine (yields_expect _ _ _).andThen ?_
  rintro r ts₃ _ ⟨rfl, hr⟩
  simp only [List.length_append, List.length_cons] at hlt
  refine (ih.statement (by omega)).andPerhaps ?_
  rintro a ts₄ _ ⟨closed, ⟨vs, rfl, ha⟩, hclosed⟩
  have hthen : NoElse ts₄ → FromStatement (k :: l :: (us ++ r :: (vs ++ ts₄)))
      (.branch e a none) ts₄ := fun hno =>
    ⟨false, ⟨k :: l :: (us ++ r :: vs), by simp, .ifThen hk hl he hr ha⟩, fun _ => hno⟩
  cases ts₄ with
  | nil =>
      unfold elseBranch
      exact Yields.map (yields_here (hthen rfl))
  | cons o ts₅ =>
      unfold elseBranch
      by_cases ho : o.kind = .kwElse
      · rw [if_pos ho]
        -- before an `else` the statement is closed
        have ha' : closed = true := by
          cases closed with
          | true => rfl
          | false =>
              have hno : NoElse (o :: ts₅) := hclosed rfl
              simp [NoElse, nextIs, ho] at hno
        subst ha'
        simp only [List.length_append, List.length_cons] at hlt
        refine Yields.map (Yields.map ((ih.statement (by omega)).imp ?_)).loosen.loosen
        rintro b rest ⟨closed', ⟨ws, rfl, hb⟩, hrest⟩
        exact ⟨closed', ⟨k :: l :: (us ++ r :: (vs ++ o :: ws)), by simp,
          .ifElse hk hl he hr ha ho hb⟩, hrest⟩
      · rw [if_neg ho]
        exact Yields.map (yields_here (hthen (decide_eq_false ho)))

theorem yields_whileStatement {k : Token} {ts : List Token} (hlt : ts.length < n + 1)
    (hk : k.kind = .kwWhile) : (whileStatement eof ts).Yields (FromStatement (k :: ts)) := by
  unfold whileStatement
  refine (yields_expect _ _ _).andThen ?_
  rintro l ts₁ _ ⟨rfl, hl⟩
  simp only [List.length_cons] at hlt
  refine (yields_expression ih (by omega)).andThen ?_
  rintro e ts₂ _ ⟨us, rfl, he⟩
  refine (yields_expect _ _ _).andThen ?_
  rintro r ts₃ _ ⟨rfl, hr⟩
  simp only [List.length_append, List.length_cons] at hlt
  refine Yields.map ((ih.statement (by omega)).imp ?_)
  rintro b rest ⟨closed, ⟨vs, rfl, hb⟩, hrest⟩
  exact ⟨closed, ⟨k :: l :: (us ++ r :: vs), by simp, .whileLoop hk hl he hr hb⟩, hrest⟩

theorem yields_forInitializer {ts : List Token} (hlt : ts.length < n + 1) :
    (forInitializer eof ts).Yields (From .initializer ts) := by
  have hexpr : ((expressionStatement eof ts).map some).Yields (From .initializer ts) := by
    refine Yields.map ((yields_expressionStatement ih hlt).imp ?_)
    rintro st rest ⟨us, heq, h⟩
    exact ⟨us, heq, .exprInitializer h⟩
  unfold forInitializer
  split
  · exact hexpr
  · rename_i t ts₁
    simp only [List.length_cons] at hlt
    split
    · rename_i hs
      exact yields_here ⟨[t], rfl, .noInitializer hs⟩
    · rename_i hk
      refine (Yields.map ((yields_varDeclaration ih (by omega) hk).imp ?_)).loosen
      rintro d rest ⟨us, heq, h⟩
      exact ⟨us, heq, .varInitializer h⟩
    · rename_i hk
      refine (Yields.map ((yields_letDeclaration ih (by omega) hk).imp ?_)).loosen
      rintro d rest ⟨us, heq, h⟩
      exact ⟨us, heq, .letInitializer h⟩
    · exact hexpr

theorem yields_forCondition {ts : List Token} (hlt : ts.length < n + 1) :
    (forCondition eof ts).Yields fun e rest => ∃ us s c, ts = us ++ s :: rest ∧
      Derives .optional us c ∧ s.kind = .semicolon ∧ e = c.getD (.literal (.boolean true)) := by
  unfold forCondition
  refine (yields_clause ih hlt).imp ?_
  rintro _ rest ⟨us, s, e, rfl, he, hs, rfl⟩
  exact ⟨us, s, e, rfl, he, hs, by cases e <;> rfl⟩

theorem yields_forStep {ts : List Token} (hlt : ts.length < n + 1) :
    (forStep eof ts).Yields (FromTo .optional .rightParen ts) := by
  unfold forStep
  refine (yields_clause ih hlt).imp ?_
  rintro _ rest ⟨us, r, e, rfl, he, hr, rfl⟩
  have hself : e.elim none some = e := by cases e <;> rfl
  exact ⟨us, r, rfl, hself.symm ▸ he, hr⟩

theorem yields_forStatement {k : Token} {ts : List Token} (hlt : ts.length < n + 1)
    (hk : k.kind = .kwFor) : (forStatement eof ts).Yields (FromStatement (k :: ts)) := by
  unfold forStatement
  refine (yields_expect _ _ _).andThen ?_
  rintro l ts₁ _ ⟨rfl, hl⟩
  simp only [List.length_cons] at hlt
  refine (yields_forInitializer ih (by omega)).andThen ?_
  rintro a ts₂ _ ⟨us, rfl, ha⟩
  simp only [List.length_append] at hlt
  refine (yields_forCondition ih (by omega)).andThen ?_
  rintro _ ts₃ _ ⟨vs, s, e, rfl, he, hs, rfl⟩
  simp only [List.length_append, List.length_cons] at hlt
  refine (yields_forStep ih (by omega)).andThen ?_
  rintro i ts₄ _ ⟨ws, r, rfl, hi, hr⟩
  simp only [List.length_append, List.length_cons] at hlt
  refine Yields.map ((ih.statement (by omega)).imp ?_)
  rintro b rest ⟨closed, ⟨xs, rfl, hb⟩, hrest⟩
  exact ⟨closed, ⟨k :: l :: (us ++ (vs ++ s :: (ws ++ r :: xs))), by simp,
    .forLoop hk hl ha he hs hi hr hb⟩, hrest⟩

theorem yields_statement {ts : List Token} (hlt : ts.length < n + 1) :
    (statement eof ts).Yields (FromStatement ts) := by
  have hclosed : ∀ {us st rest}, From (.statement true) us st rest → FromStatement us st rest :=
    fun h => ⟨true, h, nofun⟩
  have hexpr : (expressionStatement eof ts).Yields (FromStatement ts) :=
    (yields_expressionStatement ih hlt).imp
      fun _ _ ⟨us, heq, h⟩ => hclosed ⟨us, heq, .ofExprStmt h⟩
  unfold statement
  split
  · exact hexpr
  · rename_i t ts₁
    simp only [List.length_cons] at hlt
    split
    · rename_i hk
      exact (yields_ifStatement ih (by omega) hk).loosen
    · rename_i hk
      refine ((yields_expression ih (by omega)).andThen ?_).loosen
      rintro e ts₂ _ ⟨us, rfl, he⟩
      refine Yields.map ((yields_expect _ _ _).imp ?_)
      rintro s rest ⟨rfl, hs⟩
      exact hclosed ⟨t :: (us ++ [s]), by simp, .print hk he hs⟩
    · rename_i hk
      refine (Yields.map ((ih.blockBody (by omega)).imp ?_)).loosen
      rintro body rest ⟨us, r, rfl, hbody, hr⟩
      exact hclosed ⟨t :: (us ++ [r]), by simp, .ofBlock (.block hk hbody hr)⟩
    · rename_i hk
      exact (yields_whileStatement ih (by omega) hk).loosen
    · rename_i hk
      exact (yields_forStatement ih (by omega) hk).loosen
    · rename_i hk
      exact ((yields_returnStatement ih (by omega) hk).imp fun _ _ => hclosed).loosen
    · rename_i hk
      refine (Yields.map ((yields_expect _ _ _).imp ?_)).loosen
      rintro s rest ⟨rfl, hs⟩
      exact hclosed ⟨[t, s], rfl, .breakLoop hk hs⟩
    · rename_i hk
      refine (Yields.map ((yields_expect _ _ _).imp ?_)).loosen
      rintro s rest ⟨rfl, hs⟩
      exact hclosed ⟨[t, s], rfl, .continueLoop hk hs⟩
    · exact hexpr

theorem yields_declaration {ts : List Token} (hlt : ts.length < n + 1) :
    (declaration eof ts).Yields (From .declaration ts) := by
  have hstatement : ¬ BeginsFunction ts → (statement eof ts).Yields (From .declaration ts) := by
    intro hno
    refine (yields_statement ih hlt).imp ?_
    rintro st rest ⟨closed, ⟨us, heq, hst⟩, -⟩
    exact ⟨us, heq, .ofStatement hst fun h => hno (heq ▸ h.append rest)⟩
  cases ts with
  | nil =>
      unfold declaration
      exact hstatement fun h => by cases h.1
  | cons t ts₁ =>
      unfold declaration
      simp only [List.length_cons] at hlt
      split
      · rename_i hk
        refine ((yields_varDeclaration ih (by omega) hk).imp ?_).loosen
        rintro d rest ⟨us, heq, h⟩
        exact ⟨us, heq, .ofVarDecl h⟩
      · rename_i hk
        refine ((yields_letDeclaration ih (by omega) hk).imp ?_).loosen
        rintro d rest ⟨us, heq, h⟩
        exact ⟨us, heq, .ofLetDecl h⟩
      · rename_i hk
        exact (yields_classDeclaration ih (by omega) hk).loosen
      · rename_i hk
        exact (yields_moduleDeclaration ih (by omega) hk).loosen
      · rename_i hk
        split
        · refine (Yields.map ((yields_functionNamed ih (by omega)).imp ?_)).loosen
          rintro _ rest ⟨x, us, rfl, hx, ps, body, rfl, vs, rfl, hd⟩
          exact ⟨t :: x :: vs, rfl, .functionDecl hk hx hd⟩
        · rename_i hname
          exact hstatement fun h => hname h.2
      · rename_i hk
        exact hstatement fun h => hk (of_decide_eq_true h.1)

/-! ## Runs of statements -/

theorem sound_statements {inBlock : Bool} {k : Nat} (hk : k ≤ n + 1) {ts : List Token}
    (hlt : ts.length < k) (hnoted : (statements eof inBlock ts).noted = []) :
    (∃ used, ts = used ++ (statements eof inBlock ts).rest ∧
      Derives .program used (statements eof inBlock ts).body) ∧
      (inBlock = false → (statements eof inBlock ts).rest = []) := by
  induction k generalizing ts with
  | zero => exact absurd hlt (Nat.not_lt_zero _)
  | succ k ihk =>
      cases ts with
      | nil =>
          unfold statements
          exact ⟨⟨[], rfl, .noDeclaration⟩, fun _ => rfl⟩
      | cons t ts =>
          cases hb : inBlock && decide (t.kind = .rightBrace) with
          | true =>
              simp only [Bool.and_eq_true, decide_eq_true_eq] at hb
              obtain ⟨rfl, ht⟩ := hb
              obtain ⟨hbody, -, hrest⟩ := statements_brace eof ts ht
              rw [hbody, hrest]
              exact ⟨⟨[], rfl, .noDeclaration⟩, nofun⟩
          | false =>
              obtain ⟨st, rest, hs, hd, hlater⟩ := declaration_of_statements hb hnoted
              obtain ⟨hbody, -, hrest⟩ := statements_done _ hb hd
              obtain ⟨us, heq, hst⟩ := yields_declaration ih (by omega) _ _ _ hd
              obtain ⟨⟨vs, hvs, hbody'⟩, hend⟩ := ihk (by omega) (by simp at hs hlt; omega) hlater
              rw [hbody, hrest]
              refine ⟨⟨us ++ vs, ?_, .declarations hst hbody'⟩, hend⟩
              rw [heq, List.append_assoc, ← hvs]

theorem yields_blockBody {ts : List Token} (hlt : ts.length < n + 1) :
    (blockBody eof ts).Yields (FromTo .program .rightBrace ts) := by
  intro v rest hs he
  unfold blockBody at he
  dsimp only at he
  cases hx : expect eof .rightBrace "'\x7d' after block" (statements eof true ts).rest with
  | stuck => rw [hx] at he; cases he
  | done r us noted hus =>
      rw [hx] at he
      simp only [Reading.map, Reading.widen, noting, done.injEq, List.append_eq_nil_iff] at he
      obtain ⟨rfl, rfl, hnoted, rfl⟩ := he
      obtain ⟨⟨used, heq, hbody⟩, -⟩ := sound_statements ih (Nat.le_refl _) hlt hnoted
      obtain ⟨hrest, hr⟩ := yields_expect _ _ _ _ _ _ hx
      exact ⟨used, r, by rw [heq, hrest], hbody, hr⟩

omit ih in
/-- All readers are sound on lists of any length. -/
theorem sound (eof : Token) (n : Nat) : Sound eof n := by
  induction n with
  | zero =>
      constructor
      all_goals first
        | exact fun hlt => absurd hlt (Nat.not_lt_zero _)
        | exact fun _ => fun hlt => absurd hlt (Nat.not_lt_zero _)
  | succ n ih =>
      exact {
        operand := yields_operand ih
        climbOn := yields_climbOn ih
        unary := yields_unary ih
        callOn := yields_callOn ih
        expression := yields_expression ih
        argumentList := yields_argumentList ih
        arguments := yields_arguments ih
        elementsAfter := yields_elementsAfter ih
        elements := yields_elements ih
        array := yields_array ih
        methods := yields_methods ih
        statement := yields_statement ih
        blockBody := yields_blockBody ih }

omit ih in
/-- A program that is read without an error derives from all its tokens. -/
theorem derives_of_statements {ts : List Token} (h : (statements eof false ts).noted = []) :
    Derives .program ts (statements eof false ts).body := by
  obtain ⟨⟨used, heq, hbody⟩, hend⟩ :=
    sound_statements (sound eof ts.length) (Nat.le_refl _) (Nat.lt_succ_self _) h
  rw [hend rfl, List.append_nil] at heq
  rwa [← heq] at hbody

end Parser

/-- The tokens before the first `eof` derive what they are parsed to. -/
theorem derives_of_parse {tokens : List Token} {sts : List Stmt} (h : parse tokens = .ok sts) :
    Grammar.Derives .program (tokens.takeWhile (·.kind ≠ .eof)) sts := by
  unfold parse at h
  rw [List.span_eq_takeWhile_dropWhile] at h
  dsimp only at h
  split at h
  · rename_i hnoted
    cases h
    exact Parser.derives_of_statements hnoted
  · cases h

end Lox
