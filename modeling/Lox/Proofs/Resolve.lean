/-
# Resolving a text by itself and after another

After another text a text finds the names of that text among the globals; by
itself it finds only its own.  What differs is the depth of the names of the
other text: there is none by itself, and after the other text it leads to the
globals.  `like_stmts` says so of every program that the resolver accepts after
the other text, and that it accepts it by itself.

The induction is on the syntax.  It needs that the two texts declare no common
name among the globals, and this a redeclaration would violate.
-/
import Lox.Proofs.Like
import Lox.Proofs.Visit

namespace Lox

/-- A likeness of resolved programs: alike names are the same words, and a name
that is found among the globals is like one that is not found. -/
structure Likeness.OfScopes (R : Likeness) : Prop where
  token : ∀ {t t'}, R.token t t' → t'.lexeme = t.lexeme
  name : ∀ {t t'}, R.name t t' → t'.lexeme = t.lexeme
  own : ∀ {t t'}, R.name t t' → t.lexeme ≠ "super"
  same : ∀ m d, R.depth m d d
  global : ∀ k, R.depth (some k) none (some k)

/-- The same likeness of programs without depths. -/
def Likeness.unresolved (R : Likeness) : Likeness :=
  { R with depth := fun _ d d' => d = none ∧ d' = none }

namespace Table

variable {α : Type}

theorem get?_append (t u : Table α) (n : String) :
    get? (t ++ u) n = (t.get? n).or (u.get? n) := by
  induction t with
  | nil => rfl
  | cons entry t ih =>
      obtain ⟨k, a⟩ := entry
      simp only [List.cons_append, get?]
      split
      · rfl
      · exact ih

theorem set_append (t u : Table α) {n : String} (a : α) (h : t.get? n = none) :
    set (t ++ u) n a = t ++ u.set n a := by
  induction t with
  | nil => rfl
  | cons entry t ih =>
      obtain ⟨k, b⟩ := entry
      simp only [get?] at h
      split at h
      · cases h
      · rename_i hk
        simp only [List.cons_append, set, if_neg hk, ih h]

end Table

/-! ## Scopes after another text -/

/-- Scopes by themselves and after another text with the globals `p`, of which
none is declared again.  No global is the word `super`.  The number of scopes to
the globals is of interest only if there are names in `p`. -/
inductive After (p : StaticScope) : Option Nat → Scopes → Scopes → Prop
  | globals {m g} : Table.get? (p ++ g) "super" = none → (∀ n, g.get? n ≠ none → p.get? n = none) →
      (p = [] ∨ m = some 0) → After p m [g] [p ++ g]
  | push {m σ σ'} (scope : StaticScope) : After p m σ σ' →
      After p (inner m) (scope :: σ) (scope :: σ')

namespace After

variable {p : StaticScope} {m : Option Nat} {σ σ' : Scopes} {n : String}

/-- A name that is found by itself is found there after the other text; another
one is found nowhere, or among the globals of the other text. -/
theorem find? (h : After p m σ σ') (n : String) :
    σ'.find? n = σ.find? n ∨
      σ.find? n = none ∧ p.get? n ≠ none ∧ ∃ k b, m = some k ∧ σ'.find? n = some (k, b) := by
  induction h with
  | @globals m g _ hown hm =>
      simp only [Scopes.find?, Table.get?_append]
      cases hp : p.get? n with
      | none => exact .inl rfl
      | some b =>
          have hg : g.get? n = none := by
            refine Classical.byContradiction fun hne => ?_
            rw [hown n hne] at hp
            cases hp
          rw [hg]
          rcases hm with rfl | rfl
          · cases hp
          · exact .inr ⟨rfl, nofun, 0, b, rfl, rfl⟩
  | @push m σ σ' scope h ih =>
      simp only [Scopes.find?]
      cases scope.get? n with
      | some b => exact .inl rfl
      | none =>
          rcases ih with heq | ⟨hnone, hp, k, b, rfl, hfind⟩
          · rw [heq]
            exact .inl rfl
          · rw [hnone, hfind]
            exact .inr ⟨rfl, hp, k + 1, b, rfl, rfl⟩

theorem super (h : After p m σ σ') : p.get? "super" = none := by
  induction h with
  | globals hsuper =>
      rw [Table.get?_append, Option.or_eq_none_iff] at hsuper
      exact hsuper.1
  | push _ _ ih => exact ih

/-- At no distance from the globals there is no other scope. -/
theorem outermost (h : After p (some 0) σ σ') :
    ∃ g, σ' = [p ++ g] ∧ Table.get? (p ++ g) "super" = none := by
  generalize hm : some 0 = m at h
  cases h with
  | globals hsuper => exact ⟨_, rfl, hsuper⟩
  | @push m _ _ _ _ => cases m <;> cases hm

/-- A name of the innermost scope is one of the innermost scope after the other
text. -/
theorem here? (h : After p m σ σ') (n : String) :
    σ'.here? n = σ.here? n ∨ σ.here? n = none ∧ σ'.here? n ≠ none := by
  cases h with
  | push => exact .inl rfl
  | @globals _ g _ hown hm =>
      show Table.get? (p ++ g) n = g.get? n ∨ g.get? n = none ∧ Table.get? (p ++ g) n ≠ none
      rw [Table.get?_append]
      cases hp : p.get? n with
      | none => exact .inl rfl
      | some b =>
          refine .inr ⟨Classical.byContradiction fun hne => ?_, nofun⟩
          rw [hown n hne] at hp
          cases hp

/-- A name gets a mark that no global of the other text has. -/
theorem mark (h : After p m σ σ') (hs : n ≠ "super")
    (hn : σ.here? n ≠ none ∨ σ'.here? n = none) (b : Binding) :
    After p m (σ.mark n b) (σ'.mark n b) := by
  cases h with
  | push scope h => exact .push _ h
  | @globals _ g hsuper hown hm =>
      have hp : p.get? n = none := by
        rcases hn with hn | hn
        · exact hown n hn
        · replace hn : Table.get? (p ++ g) n = none := hn
          rw [Table.get?_append, Option.or_eq_none_iff] at hn
          exact hn.1
      show After p m [g.set n b] [(p ++ g).set n b]
      have hset := Table.set_append p g b hp
      rw [hset]
      refine .globals ?_ (fun k hk => ?_) hm
      · rw [← hset, Table.get?_set_of_ne _ _ hs.symm]
        exact hsuper
      rw [Table.get?_set] at hk
      split at hk
      · subst k
        exact hp
      · exact hown k hk

theorem declare (h : After p m σ σ') (hs : n ≠ "super") (hn : σ'.here? n = none) (a : Bool) :
    After p m (σ.declare n a) (σ'.declare n a) ∧ (σ.declare n a).here? n ≠ none := by
  have hσ : σ.here? n = none := by
    rcases h.here? n with heq | ⟨hnone, -⟩
    · exact heq ▸ hn
    · exact hnone
  simp only [Scopes.declare, hσ, hn, Option.isSome_none, Bool.false_eq_true, if_false]
  refine ⟨h.mark hs (.inr hn) _, ?_⟩
  cases h with
  | globals =>
      show Table.get? (Table.set _ n _) n ≠ none
      rw [Table.get?_set_self]
      exact nofun
  | push =>
      show Table.get? (Table.set _ n _) n ≠ none
      rw [Table.get?_set_self]
      exact nofun

theorem define (h : After p m σ σ') (hs : n ≠ "super") (hn : σ.here? n ≠ none) :
    After p m (σ.define n) (σ'.define n) := by
  have heq : σ'.here? n = σ.here? n := by
    rcases h.here? n with heq | ⟨hnone, -⟩
    · exact heq
    · exact absurd hnone hn
  unfold Scopes.define
  rw [heq]
  cases hb : σ.here? n with
  | none => exact absurd hb hn
  | some b => exact h.mark hs (.inl hn) _

theorem introduce (h : After p m σ σ') (hs : n ≠ "super") (hn : σ'.here? n = none) (a : Bool) :
    After p m (σ.introduce n a) (σ'.introduce n a) :=
  (h.declare hs hn a).1.define hs (h.declare hs hn a).2

end After

/-! ## Names -/

theorem Findings.errors_when_iff {b : Bool} {v : Violation} {t : Token} :
    (Findings.when b v t).errors = [] ↔ b = false := by
  cases b <;> simp [Findings.when, Findings.violation, Findings.nothing]

section
variable {R : Likeness} {p : StaticScope} {m : Option Nat} {σ σ' : Scopes} {n n' : Token}

/-- A declaration that is none again after the other text is none again by
itself. -/
theorem After.redeclared (h : After p m σ σ') (hn : n'.lexeme = n.lexeme)
    (he : (σ'.redeclared n').errors = []) :
    (σ.redeclared n).errors = [] ∧ σ'.here? n.lexeme = none := by
  unfold Scopes.redeclared at he ⊢
  rw [Findings.errors_when_iff] at he ⊢
  rw [hn] at he
  have hnone : σ'.here? n.lexeme = none := by simpa using he
  refine ⟨?_, hnone⟩
  rcases h.here? n.lexeme with heq | ⟨hσ, -⟩
  · rw [← heq, hnone]
    rfl
  · rw [hσ]
    rfl

/-- A name is read while its declaration is not complete. -/
theorem After.unfinished (h : After p m σ σ') (hn : n'.lexeme = n.lexeme)
    (he : (σ'.here? n'.lexeme).any (fun b => !b.defined) = false) :
    (σ.here? n.lexeme).any (fun b => !b.defined) = false := by
  rw [hn] at he
  rcases h.here? n.lexeme with heq | ⟨hσ, -⟩
  · rw [← heq]
    exact he
  · rw [hσ]
    rfl

theorem like_refer (hR : R.OfScopes) (h : After p m σ σ') (hn : n'.lexeme = n.lexeme)
    (assigning : Bool) (he : (σ'.refer n' none assigning).2.errors = []) :
    (σ.refer n none assigning).2.errors = [] ∧
      R.depth m (σ.refer n none assigning).1 (σ'.refer n' none assigning).1 := by
  unfold Scopes.refer at he ⊢
  rw [hn] at he ⊢
  rcases h.find? n.lexeme with heq | ⟨hnone, -, k, b, rfl, hfind⟩
  · rw [heq] at he ⊢
    cases hfind : σ.find? n.lexeme with
    | none => exact ⟨rfl, hR.same m none⟩
    | some found =>
        rw [hfind] at he
        dsimp only at he ⊢
        rw [Findings.errors_when_iff] at he ⊢
        exact ⟨he, hR.same m _⟩
  · rw [hnone, hfind]
    exact ⟨rfl, hR.global k⟩

/-- The word `super` is found at the same depth. -/
theorem refer_super (h : After p m σ σ') (hn : n'.lexeme = n.lexeme) (hs : n.lexeme = "super") :
    (σ'.refer n' none false).1 = (σ.refer n none false).1 := by
  unfold Scopes.refer
  rw [hn]
  rcases h.find? n.lexeme with heq | ⟨-, hne, -⟩
  · rw [heq]
    cases σ.find? n.lexeme <;> rfl
  · rw [hs] at hne
    exact absurd h.super hne

theorem after_withParams (hR : R.OfScopes) (h : After p m σ σ') {ps ps' : List Token}
    (hps : List.Forall₂ R.name ps ps') (he : (σ'.withParams ps').2.errors = []) :
    (σ.withParams ps).2.errors = [] ∧ After p m (σ.withParams ps).1 (σ'.withParams ps').1 := by
  induction hps generalizing σ σ' with
  | nil => exact ⟨rfl, h⟩
  | cons hname _ ih =>
      simp only [Scopes.withParams, Findings.errors_append, List.append_eq_nil_iff] at he ⊢
      obtain ⟨hfirst, hnone⟩ := h.redeclared (hR.name hname) he.1
      rw [hR.name hname] at he ⊢
      obtain ⟨hlater, hafter⟩ := ih (h.introduce (hR.own hname) hnone true) he.2
      exact ⟨⟨hfirst, hlater⟩, hafter⟩

/-- Alike functions are initializers alike. -/
theorem methodKind_eq {d d' : FunctionDecl} (hR : R.OfScopes)
    (h : LikeDecl R.unresolved m d d') : d'.methodKind = d.methodKind := by
  unfold FunctionDecl.methodKind FunctionDecl.isInitializer
  rw [h.lexeme? hR.name]

theorem LikeOptionExpr.isSome {e e' : Option Expr} (h : LikeOptionExpr R m e e') :
    e'.isSome = e.isSome := by
  cases h <;> rfl

/-- The name that an expression is, is like the one of an alike expression. -/
theorem inheritance_eq {name name' : Token} {e e' : Expr} (hR : R.OfScopes)
    (hname : R.name name name') (h : LikeExpr R.unresolved m e e')
    (he : (inheritance name' e').errors = []) : (inheritance name e).errors = [] := by
  cases h with
  | «variable» hn _ =>
      unfold inheritance at he ⊢
      simp only [Expr.name?, Findings.errors_when_iff] at he ⊢
      rw [hR.token hn, hR.name hname] at he
      exact he
  | _ => rfl

/-! ## Programs -/

mutual

/-- A program that is resolved after another text is resolved by itself, too, and
the results are alike. -/
theorem like_expr (hR : R.OfScopes) (s : Surroundings) {m : Option Nat} {σ σ' : Scopes}
    (hσ : After p m σ σ') :
    ∀ (e : Expr) {e' : Expr}, LikeExpr R.unresolved m e e' →
      (Resolve.expr s σ' e').2.errors = [] →
      (Resolve.expr s σ e).2.errors = [] ∧
        LikeExpr R m (Resolve.expr s σ e).1 (Resolve.expr s σ' e').1
  | .literal v, _, h, _ => by
      cases h
      exact ⟨rfl, .literal v⟩
  | .grouping e, _, h, he => by
      cases h with
      | grouping h =>
          obtain ⟨hn, hl⟩ := like_expr hR s hσ e h he
          exact ⟨hn, .grouping hl⟩
  | .unary op e, _, h, he => by
      cases h with
      | unary hop h =>
          obtain ⟨hn, hl⟩ := like_expr hR s hσ e h he
          exact ⟨hn, .unary hop hl⟩
  | .binary l op r, _, h, he => by
      cases h with
      | binary hl hop hr =>
          simp only [Resolve.expr, Findings.errors_append, List.append_eq_nil_iff] at he ⊢
          obtain ⟨hn, hl⟩ := like_expr hR s hσ l hl he.1
          obtain ⟨hn', hr⟩ := like_expr hR s hσ r hr he.2
          exact ⟨⟨hn, hn'⟩, .binary hl hop hr⟩
  | .logical l op r, _, h, he => by
      cases h with
      | logical hl hop hr =>
          simp only [Resolve.expr, Findings.errors_append, List.append_eq_nil_iff] at he ⊢
          obtain ⟨hn, hl⟩ := like_expr hR s hσ l hl he.1
          obtain ⟨hn', hr⟩ := like_expr hR s hσ r hr he.2
          exact ⟨⟨hn, hn'⟩, .logical hl hop hr⟩
  | .variable n d, _, h, he => by
      cases h with
      | «variable» hname hd =>
          obtain ⟨rfl, rfl⟩ := hd
          simp only [Resolve.expr, Findings.errors_append, List.append_eq_nil_iff,
            Findings.errors_when_iff] at he ⊢
          obtain ⟨hn, hdepth⟩ := like_refer hR hσ (hR.token hname) false he.2
          exact ⟨⟨hσ.unfinished (hR.token hname) he.1, hn⟩, .variable hname hdepth⟩
  | .assign n v d, _, h, he => by
      cases h with
      | assign hname hv hd =>
          obtain ⟨rfl, rfl⟩ := hd
          simp only [Resolve.expr, Findings.errors_append, List.append_eq_nil_iff] at he ⊢
          obtain ⟨hn, hv⟩ := like_expr hR s hσ v hv he.1
          obtain ⟨hn', hdepth⟩ := like_refer hR hσ (hR.token hname) true he.2
          exact ⟨⟨hn, hn'⟩, .assign hname hv hdepth⟩
  | .call f paren es, _, h, he => by
      cases h with
      | call hf hparen hes =>
          simp only [Resolve.expr, Findings.errors_append, List.append_eq_nil_iff] at he ⊢
          obtain ⟨hn, hf⟩ := like_expr hR s hσ f hf he.1
          obtain ⟨hn', hes⟩ := like_exprs hR s hσ es hes he.2
          exact ⟨⟨hn, hn'⟩, .call hf hparen hes⟩
  | .get o n, _, h, he => by
      cases h with
      | get ho hname =>
          obtain ⟨hn, ho⟩ := like_expr hR s hσ o ho he
          exact ⟨hn, .get ho hname⟩
  | .set o n v, _, h, he => by
      cases h with
      | set ho hname hv =>
          simp only [Resolve.expr, Findings.errors_append, List.append_eq_nil_iff] at he ⊢
          obtain ⟨hn, hv⟩ := like_expr hR s hσ v hv he.1
          obtain ⟨hn', ho⟩ := like_expr hR s hσ o ho he.2
          exact ⟨⟨hn, hn'⟩, .set ho hname hv⟩
  | .receiver k d, _, h, he => by
      cases h with
      | receiver hk hd =>
          obtain ⟨rfl, rfl⟩ := hd
          cases hc : s.inClass <;> simp only [Resolve.expr, hc] at he ⊢
          · cases he
          · obtain ⟨hn, hdepth⟩ := like_refer hR hσ (hR.token hk) false he
            exact ⟨hn, .receiver hk hdepth⟩
          · obtain ⟨hn, hdepth⟩ := like_refer hR hσ (hR.token hk) false he
            exact ⟨hn, .receiver hk hdepth⟩
  | .superMethod k n d, _, h, he => by
      cases h with
      | superMethod hsuper hk hname hd =>
          obtain ⟨rfl, -⟩ := hd
          cases hc : s.inClass <;> simp only [Resolve.expr, hc] at he ⊢
          · cases he
          · cases he
          · obtain ⟨hn, -⟩ := like_refer hR hσ (hR.token hk) false he
            rw [refer_super hσ (hR.token hk) hsuper]
            exact ⟨hn, .superMethod hsuper hk hname (hR.same m _)⟩
  | .function d, _, h, he => by
      cases h with
      | function hd =>
          rcases hd.name with ⟨hdn, hdn'⟩ | ⟨n, n', hdn, hdn', hn'⟩
          · simp only [FunctionDecl.around, hdn] at hd
            simp only [Resolve.expr, hdn, hdn'] at he ⊢
            obtain ⟨hn, hl⟩ := like_decl hR s .function hσ d hd he
            refine ⟨hn, .function ?_⟩
            rw [FunctionDecl.around, Resolve.name_function, hdn]
            exact hl
          · have hself := (After.push [] hσ).introduce (hR.own hn') rfl false
            simp only [FunctionDecl.around, hdn] at hd
            simp only [Resolve.expr, hdn, hdn', hR.name hn'] at he ⊢
            obtain ⟨hn, hl⟩ := like_decl hR s .function hself d hd he
            refine ⟨hn, .function ?_⟩
            rw [FunctionDecl.around, Resolve.name_function, hdn]
            exact hl
  | .array b size es, _, h, he => by
      cases h with
      | array hb hsize hes =>
          simp only [Resolve.expr, Findings.errors_append, List.append_eq_nil_iff] at he ⊢
          obtain ⟨hn, hsize⟩ := like_optionExpr hR s hσ size hsize he.1
          obtain ⟨hn', hes⟩ := like_exprs hR s hσ es hes he.2
          exact ⟨⟨hn, hn'⟩, .array hb hsize hes⟩
  | .index o b i, _, h, he => by
      cases h with
      | index ho hb hi =>
          simp only [Resolve.expr, Findings.errors_append, List.append_eq_nil_iff] at he ⊢
          obtain ⟨hn, ho⟩ := like_expr hR s hσ o ho he.1
          obtain ⟨hn', hi⟩ := like_expr hR s hσ i hi he.2
          exact ⟨⟨hn, hn'⟩, .index ho hb hi⟩
  | .setIndex o b i v, _, h, he => by
      cases h with
      | setIndex ho hb hi hv =>
          simp only [Resolve.expr, Findings.errors_append, List.append_eq_nil_iff] at he ⊢
          obtain ⟨hn, ho⟩ := like_expr hR s hσ o ho he.1.1
          obtain ⟨hn', hi⟩ := like_expr hR s hσ i hi he.1.2
          obtain ⟨hn'', hv⟩ := like_expr hR s hσ v hv he.2
          exact ⟨⟨⟨hn, hn'⟩, hn''⟩, .setIndex ho hb hi hv⟩
termination_by structural e => e

theorem like_exprs (hR : R.OfScopes) (s : Surroundings) {m : Option Nat} {σ σ' : Scopes}
    (hσ : After p m σ σ') :
    ∀ (es : List Expr) {es' : List Expr}, LikeExprs R.unresolved m es es' →
      (Resolve.exprs s σ' es').2.errors = [] →
      (Resolve.exprs s σ es).2.errors = [] ∧
        LikeExprs R m (Resolve.exprs s σ es).1 (Resolve.exprs s σ' es').1
  | [], _, h, _ => by
      cases h
      exact ⟨rfl, .nil⟩
  | e :: es, _, h, he => by
      cases h with
      | cons h hes =>
          simp only [Resolve.exprs, Findings.errors_append, List.append_eq_nil_iff] at he ⊢
          obtain ⟨hn, h⟩ := like_expr hR s hσ e h he.1
          obtain ⟨hn', hes⟩ := like_exprs hR s hσ es hes he.2
          exact ⟨⟨hn, hn'⟩, .cons h hes⟩
termination_by structural es => es

theorem like_optionExpr (hR : R.OfScopes) (s : Surroundings) {m : Option Nat} {σ σ' : Scopes}
    (hσ : After p m σ σ') :
    ∀ (e : Option Expr) {e' : Option Expr}, LikeOptionExpr R.unresolved m e e' →
      (Resolve.optionExpr s σ' e').2.errors = [] →
      (Resolve.optionExpr s σ e).2.errors = [] ∧
        LikeOptionExpr R m (Resolve.optionExpr s σ e).1 (Resolve.optionExpr s σ' e').1
  | none, _, h, _ => by
      cases h
      exact ⟨rfl, .none⟩
  | some e, _, h, he => by
      cases h with
      | some h =>
          obtain ⟨hn, h⟩ := like_expr hR s hσ e h he
          exact ⟨hn, .some h⟩
termination_by structural e => e

theorem like_decl (hR : R.OfScopes) (s : Surroundings) (kind : FunctionKind) {m : Option Nat}
    {σ σ' : Scopes} (hσ : After p m σ σ') :
    ∀ (d : FunctionDecl) {d' : FunctionDecl}, LikeDecl R.unresolved m d d' →
      (Resolve.function s kind σ' d').2.errors = [] →
      (Resolve.function s kind σ d).2.errors = [] ∧
        LikeDecl R m (Resolve.function s kind σ d).1 (Resolve.function s kind σ' d').1
  | .mk k n ps body, _, h, he => by
      cases h with
      | mk hk hname hps hbody =>
          simp only [Resolve.function, Findings.errors_append, List.append_eq_nil_iff] at he ⊢
          obtain ⟨hn, hparams⟩ := after_withParams hR (.push [] hσ) hps he.1
          obtain ⟨hn', hbody, -⟩ := like_stmts hR (s.within kind) hparams body hbody he.2
          exact ⟨⟨hn, hn'⟩, .mk hk hname hps hbody⟩
termination_by structural d => d

theorem like_decls (hR : R.OfScopes) (s : Surroundings) {m : Option Nat} {σ σ' : Scopes}
    (hσ : After p m σ σ') :
    ∀ (ds : List FunctionDecl) {ds' : List FunctionDecl}, LikeDecls R.unresolved m ds ds' →
      (Resolve.methods s σ' ds').2.errors = [] →
      (Resolve.methods s σ ds).2.errors = [] ∧
        LikeDecls R m (Resolve.methods s σ ds).1 (Resolve.methods s σ' ds').1
  | [], _, h, _ => by
      cases h
      exact ⟨rfl, .nil⟩
  | d :: ds, _, h, he => by
      cases h with
      | cons hd hds =>
          simp only [Resolve.methods, Findings.errors_append, List.append_eq_nil_iff,
            methodKind_eq hR hd] at he ⊢
          obtain ⟨hn, hd⟩ := like_decl hR s d.methodKind hσ d hd he.1
          obtain ⟨hn', hds⟩ := like_decls hR s hσ ds hds he.2
          exact ⟨⟨hn, hn'⟩, .cons hd hds⟩
termination_by structural ds => ds

theorem like_stmt (hR : R.OfScopes) (s : Surroundings) {m : Option Nat} {σ σ' : Scopes}
    (hσ : After p m σ σ') :
    ∀ (st : Stmt) {st' : Stmt}, LikeStmt R.unresolved m st st' →
      (Resolve.stmt s σ' st').2.2.errors = [] →
      (Resolve.stmt s σ st).2.2.errors = [] ∧
        LikeStmt R m (Resolve.stmt s σ st).1 (Resolve.stmt s σ' st').1 ∧
        After p m (Resolve.stmt s σ st).2.1 (Resolve.stmt s σ' st').2.1
  | .print e, _, h, he => by
      cases h with
      | print h =>
          obtain ⟨hn, h⟩ := like_expr hR s hσ e h he
          exact ⟨hn, .print h, hσ⟩
  | .expression e, _, h, he => by
      cases h with
      | expression h =>
          obtain ⟨hn, h⟩ := like_expr hR s hσ e h he
          exact ⟨hn, .expression h, hσ⟩
  | .varDecl n e, _, h, he => by
      cases h with
      | varDecl hname h =>
          simp only [Resolve.stmt, Findings.errors_append, List.append_eq_nil_iff] at he ⊢
          obtain ⟨hn, hnone⟩ := hσ.redeclared (hR.name hname) he.1
          obtain ⟨hdeclare, hthere⟩ := hσ.declare (hR.own hname) hnone true
          rw [hR.name hname] at he ⊢
          obtain ⟨hn', h⟩ := like_optionExpr hR s hdeclare e h he.2
          exact ⟨⟨hn, hn'⟩, .varDecl hname h, hdeclare.define (hR.own hname) hthere⟩
  | .letDecl n e, _, h, he => by
      cases h with
      | letDecl hname h =>
          simp only [Resolve.stmt, Findings.errors_append, List.append_eq_nil_iff] at he ⊢
          obtain ⟨hn, hnone⟩ := hσ.redeclared (hR.name hname) he.1
          obtain ⟨hdeclare, hthere⟩ := hσ.declare (hR.own hname) hnone false
          rw [hR.name hname] at he ⊢
          obtain ⟨hn', h⟩ := like_expr hR s hdeclare e h he.2
          exact ⟨⟨hn, hn'⟩, .letDecl hname h, hdeclare.define (hR.own hname) hthere⟩
  | .block body, _, h, he => by
      cases h with
      | block h =>
          obtain ⟨hn, h, -⟩ := like_stmts hR s (.push [] hσ) body h he
          exact ⟨hn, .block h, hσ⟩
  | .branch c a b, _, h, he => by
      cases h with
      | branch hc ha hb =>
          simp only [Resolve.stmt, Findings.errors_append, List.append_eq_nil_iff] at he ⊢
          obtain ⟨hn, hc⟩ := like_expr hR s hσ c hc he.1.1
          obtain ⟨hn', ha, hσ₁⟩ := like_stmt hR s hσ a ha he.1.2
          obtain ⟨hn'', hb, hσ₂⟩ := like_optionStmt hR s hσ₁ b hb he.2
          exact ⟨⟨⟨hn, hn'⟩, hn''⟩, .branch hc ha hb, hσ₂⟩
  | .whileLoop c b step, _, h, he => by
      cases h with
      | whileLoop hc hb hstep =>
          simp only [Resolve.stmt, Findings.errors_append, List.append_eq_nil_iff] at he ⊢
          obtain ⟨hn, hc⟩ := like_expr hR s hσ c hc he.1.1
          obtain ⟨hn', hb, hσ₁⟩ := like_stmt hR { s with inLoop := true } hσ b hb he.1.2
          obtain ⟨hn'', hstep⟩ := like_optionExpr hR s hσ₁ step hstep he.2
          exact ⟨⟨⟨hn, hn'⟩, hn''⟩, .whileLoop hc hb hstep, hσ₁⟩
  | .functionDecl d, _, h, he => by
      cases h with
      | functionDecl hd =>
          simp only [Resolve.stmt, Findings.errors_append, List.append_eq_nil_iff] at he ⊢
          rcases hd.name with ⟨hdn, hdn'⟩ | ⟨n, n', hdn, hdn', hn'⟩
          · simp only [hdn, hdn'] at he ⊢
            obtain ⟨hn, hl⟩ := like_decl hR s .function hσ d hd he.2
            exact ⟨⟨rfl, hn⟩, .functionDecl hl, hσ⟩
          · simp only [hdn, hdn'] at he ⊢
            obtain ⟨hn, hnone⟩ := hσ.redeclared (hR.name hn') he.1
            have hσ₁ := hσ.introduce (hR.own hn') hnone true
            rw [hR.name hn'] at he ⊢
            obtain ⟨hn'', hl⟩ := like_decl hR s .function hσ₁ d hd he.2
            exact ⟨⟨hn, hn''⟩, .functionDecl hl, hσ₁⟩
  | .classDecl n none ms, _, h, he => by
      cases h with
      | classDecl hname h hms =>
          cases h
          simp only [Resolve.stmt, Findings.errors_append, List.append_eq_nil_iff] at he ⊢
          obtain ⟨hn, hnone⟩ := hσ.redeclared (hR.name hname) he.1
          have hσ₁ := hσ.introduce (hR.own hname) hnone true
          rw [hR.name hname] at he ⊢
          obtain ⟨hn', hms⟩ := like_decls hR { s with inClass := .base } (.push _ hσ₁) ms hms he.2
          exact ⟨⟨hn, hn'⟩, .classDecl hname .none hms, hσ₁⟩
  | .classDecl n (some e) ms, _, h, he => by
      cases h with
      | classDecl hname h hms =>
          cases h with
          | some h =>
              simp only [Resolve.stmt, Findings.errors_append, List.append_eq_nil_iff] at he ⊢
              obtain ⟨hn, hnone⟩ := hσ.redeclared (hR.name hname) he.1.1.1
              have hσ₁ := hσ.introduce (hR.own hname) hnone true
              have hinherit := inheritance_eq hR hname h he.1.1.2
              rw [hR.name hname] at he ⊢
              obtain ⟨hn', h⟩ := like_expr hR { s with inClass := .derived } hσ₁ e h he.1.2
              obtain ⟨hn'', hms⟩ := like_decls hR { s with inClass := .derived }
                (.push _ (.push _ hσ₁)) ms hms he.2
              exact ⟨⟨⟨⟨hn, hinherit⟩, hn'⟩, hn''⟩, .classDecl hname (.some h) hms, hσ₁⟩
  | .returnWith k e, _, h, he => by
      cases h with
      | returnWith hk h =>
          simp only [Resolve.stmt, Surroundings.atReturn, Findings.errors_append,
            List.append_eq_nil_iff, Findings.errors_when_iff, h.isSome] at he ⊢
          obtain ⟨hn, h⟩ := like_optionExpr hR s hσ e h he.2
          exact ⟨⟨he.1, hn⟩, .returnWith hk h, hσ⟩
  | .breakLoop k, _, h, he => by
      cases h with
      | breakLoop hk =>
          simp only [Resolve.stmt, Findings.errors_when_iff] at he ⊢
          exact ⟨he, .breakLoop hk, hσ⟩
  | .continueLoop k, _, h, he => by
      cases h with
      | continueLoop hk =>
          simp only [Resolve.stmt, Findings.errors_when_iff] at he ⊢
          exact ⟨he, .continueLoop hk, hσ⟩
  | .moduleDecl n body, _, h, he => by
      cases h with
      | moduleDecl hname h =>
          simp only [Resolve.stmt, Findings.errors_append, List.append_eq_nil_iff] at he ⊢
          obtain ⟨hn, h, -⟩ := like_stmts hR { s with inLoop := false } (.push [] hσ) body h he.1
          obtain ⟨hn', hnone⟩ := hσ.redeclared (hR.name hname) he.2
          rw [hR.name hname]
          exact ⟨⟨hn, hn'⟩, .moduleDecl hname h, hσ.introduce (hR.own hname) hnone false⟩
termination_by structural st => st

theorem like_optionStmt (hR : R.OfScopes) (s : Surroundings) {m : Option Nat} {σ σ' : Scopes}
    (hσ : After p m σ σ') :
    ∀ (st : Option Stmt) {st' : Option Stmt}, LikeOptionStmt R.unresolved m st st' →
      (Resolve.optionStmt s σ' st').2.2.errors = [] →
      (Resolve.optionStmt s σ st).2.2.errors = [] ∧
        LikeOptionStmt R m (Resolve.optionStmt s σ st).1 (Resolve.optionStmt s σ' st').1 ∧
        After p m (Resolve.optionStmt s σ st).2.1 (Resolve.optionStmt s σ' st').2.1
  | none, _, h, _ => by
      cases h
      exact ⟨rfl, .none, hσ⟩
  | some st, _, h, he => by
      cases h with
      | some h =>
          obtain ⟨hn, h, hσ₁⟩ := like_stmt hR s hσ st h he
          exact ⟨hn, .some h, hσ₁⟩
termination_by structural st => st

theorem like_stmts (hR : R.OfScopes) (s : Surroundings) {m : Option Nat} {σ σ' : Scopes}
    (hσ : After p m σ σ') :
    ∀ (sts : List Stmt) {sts' : List Stmt}, LikeStmts R.unresolved m sts sts' →
      (Resolve.stmts s σ' sts').2.2.errors = [] →
      (Resolve.stmts s σ sts).2.2.errors = [] ∧
        LikeStmts R m (Resolve.stmts s σ sts).1 (Resolve.stmts s σ' sts').1 ∧
        After p m (Resolve.stmts s σ sts).2.1 (Resolve.stmts s σ' sts').2.1
  | [], _, h, _ => by
      cases h
      exact ⟨rfl, .nil, hσ⟩
  | st :: sts, _, h, he => by
      cases h with
      | cons h hsts =>
          simp only [Resolve.stmts, Findings.errors_append, List.append_eq_nil_iff] at he ⊢
          obtain ⟨hn, h, hσ₁⟩ := like_stmt hR s hσ st h he.1
          obtain ⟨hn', hsts, hσ₂⟩ := like_stmts hR s hσ₁ sts hsts he.2
          exact ⟨⟨hn, hn'⟩, .cons h hsts, hσ₂⟩
termination_by structural sts => sts

end

end

end Lox
