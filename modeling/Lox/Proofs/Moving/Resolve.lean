/-
# Resolving a program with a step moved

The resolver gets the program with the step moved as it gets the program itself, without
depths.  Inside the loop it is one scope further inside, and that scope holds nothing:
nothing is declared right in it, since the body of a loop is no declaration.  So a name is
found under the marks that it had, at the distance that `Leads` says, and there is
nothing to complain about.  The two resolved programs are such programs as run alike
(`MovedStmts`).

The word `super` is in a scope with nothing but the scope of `this` inside of it, so the
depth less one, where the receiver is, leads to the same scope as well.
-/
import Lox.Proofs.Moving
import Lox.Proofs.Described

namespace Lox

/-! ## Scopes -/

/-- Scopes around a place, and those around it in the second program. -/
inductive MovedScopes : List Layer → Scopes → Scopes → Prop
  | nil : MovedScopes [] [] []
  | own {Δ scope σ σ'} : scope.get? "super" = none → MovedScopes Δ σ σ' →
      MovedScopes (.own :: Δ) (scope :: σ) (scope :: σ')
  | added {Δ σ σ'} : MovedScopes Δ σ σ' → MovedScopes (.added :: Δ) σ ([] :: σ')
  | methods {Δ scope σ σ'} : scope.get? "super" = none → MovedScopes Δ σ σ' →
      MovedScopes (.own :: .own :: Δ) (scope :: Scopes.implicit "super" :: σ)
        (scope :: Scopes.implicit "super" :: σ')

/-- A name is found in the scope that it was in, under its marks. -/
def SamePlace (Δ : List Layer) (p p' : Nat × Binding) : Prop :=
  Leads Δ p.1 p'.1 ∧ p'.2 = p.2

/-- The word `super` is found there, and the scope inside of it is the one that was. -/
def SameSuper (Δ : List Layer) (p p' : Nat × Binding) : Prop :=
  ∃ d d', p = (d + 1, p.2) ∧ p' = (d' + 1, p.2) ∧ Leads Δ (d + 1) (d' + 1) ∧ Leads Δ d d'

theorem find?_own {Δ : List Layer} {σ σ' : Scopes} {n : String} (scope : StaticScope)
    (h : Option.Rel (SamePlace Δ) (σ.find? n) (σ'.find? n)) :
    Option.Rel (SamePlace (.own :: Δ)) (Scopes.find? (scope :: σ) n)
      (Scopes.find? (scope :: σ') n) := by
  simp only [Scopes.find?]
  cases scope.get? n with
  | some b => exact .some ⟨.here, rfl⟩
  | none =>
      revert h
      generalize σ.find? n = o, σ'.find? n = o'
      rintro (⟨hleads, hb⟩ | _)
      · exact .some ⟨.own hleads, hb⟩
      · exact .none

namespace MovedScopes

variable {Δ : List Layer} {σ σ' : Scopes} {n : String}

theorem find? (h : MovedScopes Δ σ σ') (n : String) :
    Option.Rel (SamePlace Δ) (σ.find? n) (σ'.find? n) := by
  induction h with
  | nil => exact .none
  | own _ _ ih => exact find?_own _ ih
  | methods _ _ ih => exact find?_own _ (find?_own _ ih)
  | @added _ σ σ' _ ih =>
      simp only [Scopes.find?, Table.get?]
      revert ih
      generalize σ.find? n = o, σ'.find? n = o'
      rintro (⟨hleads, hb⟩ | _)
      · exact .some ⟨.added hleads, hb⟩
      · exact .none

theorem find?_super (h : MovedScopes Δ σ σ') :
    Option.Rel (SameSuper Δ) (σ.find? "super") (σ'.find? "super") := by
  induction h with
  | nil => exact .none
  | @own _ scope σ σ' hscope _ ih =>
      simp only [Scopes.find?, hscope]
      revert ih
      generalize σ.find? "super" = o, σ'.find? "super" = o'
      rintro (⟨d, d', hp, hp', houter, hinner⟩ | _)
      · rw [hp, hp']
        exact .some ⟨d + 1, d' + 1, rfl, rfl, .own houter, .own hinner⟩
      · exact .none
  | @added _ σ σ' _ ih =>
      simp only [Scopes.find?, Table.get?]
      revert ih
      generalize σ.find? "super" = o, σ'.find? "super" = o'
      rintro (⟨d, d', hp, hp', houter, hinner⟩ | _)
      · rw [hp, hp']
        exact .some ⟨d, d' + 1, rfl, rfl, .added houter, .added hinner⟩
      · exact .none
  | methods hscope _ _ =>
      simp only [Scopes.find?, hscope]
      exact .some ⟨0, 0, rfl, rfl, .own .here, .here⟩

/-- A scope further inside that is there in both programs. -/
theorem enter (h : MovedScopes Δ σ σ') : MovedScopes (.own :: Δ) ([] :: σ) ([] :: σ') :=
  .own rfl h

/-! ### Uses -/

/-- A use finds what it found, and to complain about as much. -/
theorem refer (h : MovedScopes Δ σ σ') (x : Token) (a : Bool) :
    Option.Rel (Leads Δ) (σ.refer x none a).1 (σ'.refer x none a).1 ∧
      (σ'.refer x none a).2 = (σ.refer x none a).2 := by
  have hfind := h.find? x.lexeme
  unfold Scopes.refer
  revert hfind
  generalize σ.find? x.lexeme = o, σ'.find? x.lexeme = o'
  rintro (@⟨⟨d, b⟩, ⟨d', b'⟩, hleads, rfl⟩ | _)
  · exact ⟨.some hleads, rfl⟩
  · exact ⟨.none, rfl⟩

theorem refer_super (h : MovedScopes Δ σ σ') {x : Token} (hx : x.lexeme = "super") (a : Bool) :
    Option.Rel (fun d d' => Leads Δ d d' ∧ Leads Δ (d - 1) (d' - 1)) (σ.refer x none a).1
      (σ'.refer x none a).1 := by
  have hfind := h.find?_super
  unfold Scopes.refer
  rw [hx]
  revert hfind
  generalize σ.find? "super" = o, σ'.find? "super" = o'
  rintro (⟨d, d', hp, hp', houter, hinner⟩ | _)
  · rw [hp, hp']
    exact .some ⟨houter, hinner⟩
  · exact .none

/-- A name that is in no initializer of its own is in none. -/
theorem finished (h : MovedScopes Δ σ σ')
    (hn : ((σ.here? n).any fun b => !b.defined) = false) :
    ((σ'.here? n).any fun b => !b.defined) = false := by
  cases h with
  | nil => exact hn
  | own => exact hn
  | added => rfl
  | methods => exact hn

/-! ### Declarations -/

theorem here? (h : MovedScopes (.own :: Δ) σ σ') (n : String) : σ'.here? n = σ.here? n := by
  cases h <;> rfl

theorem redeclared (h : MovedScopes (.own :: Δ) σ σ') (x : Token) :
    σ'.redeclared x = σ.redeclared x := by
  unfold Scopes.redeclared
  rw [h.here?]

theorem mark (h : MovedScopes (.own :: Δ) σ σ') (hn : n ≠ "super") (b : Binding) :
    MovedScopes (.own :: Δ) (σ.mark n b) (σ'.mark n b) := by
  cases h with
  | own hscope houter =>
      exact .own ((Table.get?_set_of_ne _ b hn.symm).trans hscope) houter
  | methods hscope houter =>
      exact .methods ((Table.get?_set_of_ne _ b hn.symm).trans hscope) houter

theorem declare (h : MovedScopes (.own :: Δ) σ σ') (hn : n ≠ "super") (a : Bool) :
    MovedScopes (.own :: Δ) (σ.declare n a) (σ'.declare n a) := by
  unfold Scopes.declare
  rw [h.here?]
  split
  · exact h
  · exact h.mark hn _

theorem define (h : MovedScopes (.own :: Δ) σ σ') (hn : n ≠ "super") :
    MovedScopes (.own :: Δ) (σ.define n) (σ'.define n) := by
  unfold Scopes.define
  rw [h.here?]
  split
  · exact h.mark hn _
  · exact h

theorem introduce (h : MovedScopes (.own :: Δ) σ σ') (hn : n ≠ "super") (a : Bool) :
    MovedScopes (.own :: Δ) (σ.introduce n a) (σ'.introduce n a) :=
  (h.declare hn a).define hn

theorem withParams (h : MovedScopes (.own :: Δ) σ σ') {ps : List Token}
    (hps : ∀ p ∈ ps, p.Plain) :
    MovedScopes (.own :: Δ) (σ.withParams ps).1 (σ'.withParams ps).1 ∧
      (σ'.withParams ps).2 = (σ.withParams ps).2 := by
  induction ps generalizing σ σ' with
  | nil => exact ⟨h, rfl⟩
  | cons p ps ih =>
      obtain ⟨hp, hps⟩ := List.forall_mem_cons.mp hps
      obtain ⟨hscopes, hfound⟩ := ih (h.introduce hp.2 true) hps
      simp only [Scopes.withParams, h.redeclared, hfound, and_true]
      exact hscopes

end MovedScopes

/-- A statement may stand in these scopes and in this loop: it declares nothing in a scope
that is there in the second program only, and does not go on with a loop whose step was
moved. -/
structure Stmt.Fits (Δ : List Layer) (l : InnerLoop) (st : Stmt) : Prop where
  own : st.declares ≠ none → ∃ outer, Δ = .own :: outer
  moved : l = .moved → st.continues = false

namespace Stmt.Fits

variable {Δ : List Layer} {l : InnerLoop}

/-- Statements among others may stand in a scope of their own. -/
theorem statements {body : List Stmt} (h : l = .moved → anyContinues body = false) :
    ∀ st ∈ body, Fits (.own :: Δ) l st := by
  intro st hst
  refine ⟨fun _ => ⟨Δ, rfl⟩, fun hl => ?_⟩
  have hany := h hl
  clear h
  induction body with
  | nil => cases hst
  | cons u body ih =>
      simp only [anyContinues, Bool.or_eq_false_iff] at hany
      rcases List.mem_cons.mp hst with rfl | hst
      · exact hany.1
      · exact ih hst hany.2

/-- A part of a statement that declares nothing. -/
theorem part {st : Stmt} (hnone : st.declares = none) (h : l = .moved → st.continues = false) :
    Fits Δ l st :=
  ⟨fun hsome => absurd hnone hsome, h⟩

end Stmt.Fits

/-! ## Programs -/

mutual

/-- The resolver accepts the expression with the step moved, and what it makes of it is
the resolved expression with the step moved.  Whether a loop is around the place is of no
interest, so the surroundings need not be the same. -/
theorem moved_expr (s s' : Surroundings) (hs : s'.inClass = s.inClass) {Δ : List Layer}
    {σ σ' : Scopes} (hσ : MovedScopes Δ σ σ') (w : Descent) :
    ∀ (e : Expr) {m : Option Nat} {e₀ : Expr}, LikeExpr .bare m e e₀ → WordedExpr e →
      (Resolve.expr s σ e).2.errors = [] →
      (Resolve.expr s' σ' (Moving.expr w e)).2.errors = [] ∧
        MovedExpr Δ (Resolve.expr s σ e).1 (Resolve.expr s' σ' (Moving.expr w e)).1
  | .literal v, _, _, _, _, _ => ⟨rfl, .literal v⟩
  | .grouping e, _, _, .grouping hb, .grouping hw, he => by
      obtain ⟨hnone, h⟩ := moved_expr s s' hs hσ (w.child 0) e hb hw he
      exact ⟨hnone, .grouping h⟩
  | .unary op e, _, _, .unary _ hb, .unary hw, he => by
      obtain ⟨hnone, h⟩ := moved_expr s s' hs hσ (w.child 0) e hb hw he
      exact ⟨hnone, .unary h⟩
  | .binary l op r, _, _, .binary hbl _ hbr, .binary hwl hwr, he => by
      simp only [Resolve.expr, Moving.expr, Findings.errors_append, List.append_eq_nil_iff] at he ⊢
      obtain ⟨hnl, hl⟩ := moved_expr s s' hs hσ (w.child 0) l hbl hwl he.1
      obtain ⟨hnr, hr⟩ := moved_expr s s' hs hσ (w.child 1) r hbr hwr he.2
      exact ⟨⟨hnl, hnr⟩, .binary hl hr⟩
  | .logical l op r, _, _, .logical hbl _ hbr, .logical hwl hwr, he => by
      simp only [Resolve.expr, Moving.expr, Findings.errors_append, List.append_eq_nil_iff] at he ⊢
      obtain ⟨hnl, hl⟩ := moved_expr s s' hs hσ (w.child 0) l hbl hwl he.1
      obtain ⟨hnr, hr⟩ := moved_expr s s' hs hσ (w.child 1) r hbr hwr he.2
      exact ⟨⟨hnl, hnr⟩, .logical hl hr⟩
  | .variable x d, _, _, .variable _ hd, _, he => by
      obtain rfl : d = none := hd
      obtain ⟨hleads, hfound⟩ := hσ.refer x false
      simp only [Resolve.expr, Moving.expr, Findings.errors_append, List.append_eq_nil_iff] at he ⊢
      have hfinished := hσ.finished (Findings.errors_when he.1)
      rw [hfinished, hfound]
      exact ⟨⟨rfl, he.2⟩, .variable hleads⟩
  | .assign x v d, _, _, .assign _ hb hd, .assign _ hw, he => by
      obtain rfl : d = none := hd
      obtain ⟨hleads, hfound⟩ := hσ.refer x true
      simp only [Resolve.expr, Moving.expr, Findings.errors_append, List.append_eq_nil_iff] at he ⊢
      obtain ⟨hnone, h⟩ := moved_expr s s' hs hσ (w.child 0) v hb hw he.1
      rw [hfound]
      exact ⟨⟨hnone, he.2⟩, .assign hleads h⟩
  | .call callee paren es, _, _, .call hb _ hbs, .call hw hws, he => by
      simp only [Resolve.expr, Moving.expr, Findings.errors_append, List.append_eq_nil_iff] at he ⊢
      obtain ⟨hnone, h⟩ := moved_expr s s' hs hσ (w.child 0) callee hb hw he.1
      obtain ⟨hnones, hes⟩ := moved_exprs s s' hs hσ w es hbs hws he.2
      exact ⟨⟨hnone, hnones⟩, .call h hes⟩
  | .get object x, _, _, .get hb _, .get hw, he => by
      obtain ⟨hnone, h⟩ := moved_expr s s' hs hσ (w.child 0) object hb hw he
      exact ⟨hnone, .get h⟩
  | .set object x v, _, _, .set hbo _ hbv, .set _ hwo hwv, he => by
      simp only [Resolve.expr, Moving.expr, Findings.errors_append, List.append_eq_nil_iff] at he ⊢
      obtain ⟨hnv, hv⟩ := moved_expr s s' hs hσ (w.child 1) v hbv hwv he.1
      obtain ⟨hno, ho⟩ := moved_expr s s' hs hσ (w.child 0) object hbo hwo he.2
      exact ⟨⟨hnv, hno⟩, .set ho hv⟩
  | .receiver keyword d, _, _, .receiver _ hd, _, he => by
      obtain rfl : d = none := hd
      obtain ⟨hleads, hfound⟩ := hσ.refer keyword false
      cases hc : s.inClass <;> simp only [Resolve.expr, Moving.expr, hs, hc] at he ⊢
      · cases he
      all_goals
        rw [hfound]
        exact ⟨he, .receiver hleads⟩
  | .superMethod keyword method d, _, _, .superMethod hsuper _ _ hd, _, he => by
      obtain rfl : d = none := hd
      obtain ⟨-, hfound⟩ := hσ.refer keyword false
      cases hc : s.inClass <;> simp only [Resolve.expr, Moving.expr, hs, hc] at he ⊢
      · cases he
      · cases he
      · rw [hfound]
        exact ⟨he, .superMethod (hσ.refer_super hsuper false)⟩
  | .function d, _, _, .function hb, .function hw, he => by
      cases hd : d.name with
      | none =>
          simp only [Resolve.expr, Moving.expr, Moving.name_function, hd] at he ⊢
          obtain ⟨hnone, h⟩ := moved_decl s s' hs .function hσ (w.child 0) d hb hw he
          refine ⟨hnone, .function ?_⟩
          rwa [FunctionDecl.layers, Resolve.name_function, hd]
      | some x =>
          have hx : x.Plain := hw.plain hd
          have hself : MovedScopes (.own :: Δ) (Scopes.introduce ([] :: σ) x.lexeme false)
              (Scopes.introduce ([] :: σ') x.lexeme false) :=
            hσ.enter.introduce hx.2 false
          simp only [Resolve.expr, Moving.expr, Moving.name_function, hd] at he ⊢
          obtain ⟨hnone, h⟩ := moved_decl s s' hs .function hself (w.child 0) d hb hw he
          refine ⟨hnone, .function ?_⟩
          rwa [FunctionDecl.layers, Resolve.name_function, hd]
  | .array bracket size es, _, _, .array _ hb hbs, .array hw hws, he => by
      simp only [Resolve.expr, Moving.expr, Findings.errors_append, List.append_eq_nil_iff] at he ⊢
      obtain ⟨hnone, h⟩ := moved_optionExpr s s' hs hσ (w.child 0) size hb hw he.1
      obtain ⟨hnones, hes⟩ := moved_exprs s s' hs hσ w es hbs hws he.2
      exact ⟨⟨hnone, hnones⟩, .array h hes⟩
  | .index object bracket i, _, _, .index hbo _ hbi, .index hwo hwi, he => by
      simp only [Resolve.expr, Moving.expr, Findings.errors_append, List.append_eq_nil_iff] at he ⊢
      obtain ⟨hno, ho⟩ := moved_expr s s' hs hσ (w.child 0) object hbo hwo he.1
      obtain ⟨hni, hi⟩ := moved_expr s s' hs hσ (w.child 1) i hbi hwi he.2
      exact ⟨⟨hno, hni⟩, .index ho hi⟩
  | .setIndex object bracket i v, _, _, .setIndex hbo _ hbi hbv, .setIndex hwo hwi hwv, he => by
      simp only [Resolve.expr, Moving.expr, Findings.errors_append, List.append_eq_nil_iff] at he ⊢
      obtain ⟨hno, ho⟩ := moved_expr s s' hs hσ (w.child 0) object hbo hwo he.1.1
      obtain ⟨hni, hi⟩ := moved_expr s s' hs hσ (w.child 1) i hbi hwi he.1.2
      obtain ⟨hnv, hv⟩ := moved_expr s s' hs hσ (w.child 2) v hbv hwv he.2
      exact ⟨⟨⟨hno, hni⟩, hnv⟩, .setIndex ho hi hv⟩
termination_by structural e => e

theorem moved_exprs (s s' : Surroundings) (hs : s'.inClass = s.inClass) {Δ : List Layer}
    {σ σ' : Scopes} (hσ : MovedScopes Δ σ σ') (w : Descent) :
    ∀ (es : List Expr) {m : Option Nat} {es₀ : List Expr}, LikeExprs .bare m es es₀ →
      (∀ e ∈ es, WordedExpr e) → (Resolve.exprs s σ es).2.errors = [] →
      (Resolve.exprs s' σ' (Moving.exprs w es)).2.errors = [] ∧
        MovedExprs Δ (Resolve.exprs s σ es).1 (Resolve.exprs s' σ' (Moving.exprs w es)).1
  | [], _, _, _, _, _ => ⟨rfl, .nil⟩
  | e :: es, _, _, .cons hb hbs, hw, he => by
      simp only [Resolve.exprs, Moving.exprs, Findings.errors_append,
        List.append_eq_nil_iff] at he ⊢
      obtain ⟨hw, hws⟩ := List.forall_mem_cons.mp hw
      obtain ⟨hnone, h⟩ := moved_expr s s' hs hσ (w.child (es.length + 1)) e hb hw he.1
      obtain ⟨hnones, hes⟩ := moved_exprs s s' hs hσ w es hbs hws he.2
      exact ⟨⟨hnone, hnones⟩, .cons h hes⟩
termination_by structural es => es

theorem moved_optionExpr (s s' : Surroundings) (hs : s'.inClass = s.inClass) {Δ : List Layer}
    {σ σ' : Scopes} (hσ : MovedScopes Δ σ σ') (w : Descent) :
    ∀ (e : Option Expr) {m : Option Nat} {e₀ : Option Expr}, LikeOptionExpr .bare m e e₀ →
      (∀ v ∈ e, WordedExpr v) → (Resolve.optionExpr s σ e).2.errors = [] →
      (Resolve.optionExpr s' σ' (Moving.optionExpr w e)).2.errors = [] ∧
        MovedOptionExpr Δ (Resolve.optionExpr s σ e).1
          (Resolve.optionExpr s' σ' (Moving.optionExpr w e)).1
  | none, _, _, _, _, _ => ⟨rfl, .none⟩
  | some e, _, _, .some hb, hw, he => by
      obtain ⟨hnone, h⟩ := moved_expr s s' hs hσ w e hb (hw e rfl) he
      exact ⟨hnone, .some h⟩
termination_by structural e => e

theorem moved_decl (s s' : Surroundings) (hs : s'.inClass = s.inClass) (kind : FunctionKind)
    {Δ : List Layer} {σ σ' : Scopes} (hσ : MovedScopes Δ σ σ') (w : Descent) :
    ∀ (d : FunctionDecl) {m : Option Nat} {d₀ : FunctionDecl}, LikeDecl .bare m d d₀ →
      WordedDecl d → (Resolve.function s kind σ d).2.errors = [] →
      (Resolve.function s' kind σ' (Moving.function w d)).2.errors = [] ∧
        MovedDecl Δ (Resolve.function s kind σ d).1
          (Resolve.function s' kind σ' (Moving.function w d)).1
  | .mk keyword name ps body, _, _, .mk _ _ _ hb, .mk _ hps hw, he => by
      have hwithin : s'.within kind = s.within kind := by
        unfold Surroundings.within
        rw [hs]
      simp only [Resolve.function, Moving.function, Findings.errors_append,
        List.append_eq_nil_iff, hwithin] at he ⊢
      obtain ⟨hparams, hfound⟩ := hσ.enter.withParams hps
      obtain ⟨hnone, -, h⟩ := moved_stmts (s.within kind) (l := .none) nofun hparams w body hb hw
        (Stmt.Fits.statements nofun) he.2
      rw [hfound]
      exact ⟨⟨he.1, hnone⟩, .mk h⟩
termination_by structural d => d

theorem moved_decls (s s' : Surroundings) (hs : s'.inClass = s.inClass) {Δ : List Layer}
    {σ σ' : Scopes} (hσ : MovedScopes Δ σ σ') (w : Descent) :
    ∀ (ds : List FunctionDecl) {m : Option Nat} {ds₀ : List FunctionDecl},
      LikeDecls .bare m ds ds₀ → (∀ d ∈ ds, WordedDecl d) →
      (Resolve.methods s σ ds).2.errors = [] →
      (Resolve.methods s' σ' (Moving.functions w ds)).2.errors = [] ∧
        MovedDecls Δ (Resolve.methods s σ ds).1
          (Resolve.methods s' σ' (Moving.functions w ds)).1
  | [], _, _, _, _, _ => ⟨rfl, .nil⟩
  | d :: ds, _, _, .cons hb hbs, hw, he => by
      simp only [Resolve.methods, Moving.functions, Moving.methodKind_function,
        Findings.errors_append, List.append_eq_nil_iff] at he ⊢
      obtain ⟨hw, hws⟩ := List.forall_mem_cons.mp hw
      obtain ⟨hnone, h⟩ := moved_decl s s' hs d.methodKind hσ (w.child (ds.length + 1)) d hb hw he.1
      obtain ⟨hnones, hds⟩ := moved_decls s s' hs hσ w ds hbs hws he.2
      exact ⟨⟨hnone, hnones⟩, .cons h hds⟩
termination_by structural ds => ds

/-- The resolver accepts the statement with the step moved, what it makes of it is the
resolved statement with the step moved, and the scopes behind it are those of before. -/
theorem moved_stmt (s : Surroundings) {l : InnerLoop} (hl : s.inLoop = true → l ≠ .none)
    {Δ : List Layer} {σ σ' : Scopes} (hσ : MovedScopes Δ σ σ') (w : Descent) :
    ∀ (st : Stmt) {m : Option Nat} {st₀ : Stmt}, LikeStmt .bare m st st₀ → WordedStmt st →
      st.Fits Δ l → (Resolve.stmt s σ st).2.2.errors = [] →
      (Resolve.stmt s σ' (Moving.stmt w st)).2.2.errors = [] ∧
        MovedScopes Δ (Resolve.stmt s σ st).2.1 (Resolve.stmt s σ' (Moving.stmt w st)).2.1 ∧
        MovedStmt Δ l (Resolve.stmt s σ st).1 (Resolve.stmt s σ' (Moving.stmt w st)).1
  | .print e, _, _, .print hb, .print hw, _, he => by
      obtain ⟨hnone, h⟩ := moved_expr s s rfl hσ (w.child 0) e hb hw he
      exact ⟨hnone, hσ, .print h⟩
  | .expression e, _, _, .expression hb, .expression hw, _, he => by
      obtain ⟨hnone, h⟩ := moved_expr s s rfl hσ (w.child 0) e hb hw he
      exact ⟨hnone, hσ, .expression h⟩
  | .varDecl x e, _, _, .varDecl _ hb, .varDecl hx hw, hfits, he => by
      obtain ⟨outer, rfl⟩ := hfits.own nofun
      simp only [Resolve.stmt, Moving.stmt, Findings.errors_append, List.append_eq_nil_iff,
        hσ.redeclared] at he ⊢
      have hdeclared := hσ.declare hx.2 true
      obtain ⟨hnone, h⟩ := moved_optionExpr s s rfl hdeclared (w.child 0) e hb hw he.2
      exact ⟨⟨he.1, hnone⟩, hdeclared.define hx.2, .varDecl h⟩
  | .letDecl x e, _, _, .letDecl _ hb, .letDecl hx hw, hfits, he => by
      obtain ⟨outer, rfl⟩ := hfits.own nofun
      simp only [Resolve.stmt, Moving.stmt, Findings.errors_append, List.append_eq_nil_iff,
        hσ.redeclared] at he ⊢
      have hdeclared := hσ.declare hx.2 false
      obtain ⟨hnone, h⟩ := moved_expr s s rfl hdeclared (w.child 0) e hb hw he.2
      exact ⟨⟨he.1, hnone⟩, hdeclared.define hx.2, .letDecl h⟩
  | .block body, _, _, .block hb, .block hw, hfits, he => by
      obtain ⟨hnone, -, h⟩ := moved_stmts s hl hσ.enter w body hb hw
        (Stmt.Fits.statements hfits.moved) he
      exact ⟨hnone, hσ, .block h⟩
  | .branch c onTrue onFalse, _, _, .branch hbc hbt hbf, .branch hwc hwt hnt hwf hnf, hfits,
      he => by
      simp only [Resolve.stmt, Moving.stmt, Findings.errors_append, List.append_eq_nil_iff] at he ⊢
      have hcontinues : l = .moved → onTrue.continues = false ∧ optionContinues onFalse = false :=
        fun hmoved => Bool.or_eq_false_iff.mp (hfits.moved hmoved)
      obtain ⟨hnc, hc⟩ := moved_expr s s rfl hσ (w.child 0) c hbc hwc he.1.1
      obtain ⟨hnt, hσ₁, ht⟩ := moved_stmt s hl hσ (w.child 1) onTrue hbt hwt
        (.part hnt fun hmoved => (hcontinues hmoved).1) he.1.2
      obtain ⟨hnf, hσ₂, hf⟩ := moved_optionStmt s hl hσ₁ (w.child 2) onFalse hbf hwf
        (fun st hst => .part (hnf st hst) fun hmoved => by
          obtain rfl := Option.mem_def.mp hst
          exact (hcontinues hmoved).2) he.2
      exact ⟨⟨⟨hnc, hnt⟩, hnf⟩, hσ₂, .branch hc ht hf⟩
  | .whileLoop c body step, _, _, .whileLoop hbc hb hbs, .whileLoop hwc hw hdeclares hws, _,
      he => by
      simp only [Resolve.stmt, Findings.errors_append, List.append_eq_nil_iff] at he
      have hscopes : (Resolve.stmt { s with inLoop := true } σ body).2.1 = σ :=
        scopes_after_of_none hw hdeclares ⟨{ s with inLoop := true }, [], σ⟩
      rw [hscopes] at he
      obtain ⟨hnc, hc⟩ := moved_expr s s rfl hσ (w.child 0) c hbc hwc he.1.1
      obtain hkept | ⟨e, hsome, hcontinues, hmoved⟩ := Moving.stmt_whileLoop w c body step
      · obtain ⟨hnb, hσ₁, hbody⟩ := moved_stmt { s with inLoop := true } (l := .kept) nofun hσ
          (w.child 1) body hb hw (.part hdeclares nofun) he.1.2
        rw [hscopes] at hσ₁
        obtain ⟨hns, hstep⟩ := moved_optionExpr s s rfl hσ₁ (w.child 2) step hbs hws he.2
        rw [hkept]
        simp only [Resolve.stmt, Findings.errors_append, List.append_eq_nil_iff, hscopes]
        exact ⟨⟨⟨hnc, hnb⟩, hns⟩, hσ₁, .whileLoop hc hbody hstep⟩
      · -- the body and the step are in the scope of the block around them
        obtain ⟨hnb, hσ₁, hbody⟩ := moved_stmt { s with inLoop := true } (l := .moved) nofun
          (.added hσ) (w.child 1) body hb hw (.part hdeclares fun _ => hcontinues) he.1.2
        rw [hscopes] at hσ₁
        obtain ⟨hns, hstep⟩ := moved_optionExpr s { s with inLoop := true } rfl hσ₁ (w.child 2)
          step hbs hws he.2
        subst hsome
        cases hstep with
        | some hstep =>
            rw [hmoved]
            simp only [Resolve.stmt, Resolve.stmts, Resolve.optionExpr, Findings.errors_append,
              List.append_eq_nil_iff, hscopes]
            exact ⟨⟨⟨hnc, hnb, hns, rfl⟩, rfl⟩, hσ, .movedLoop hc hbody hstep⟩
  | .functionDecl d, _, _, .functionDecl hb, .functionDecl hw, hfits, he => by
      cases hd : d.name with
      | none =>
          simp only [Resolve.stmt, Moving.stmt, Moving.name_function, hd, Findings.errors_append,
            List.append_eq_nil_iff] at he ⊢
          obtain ⟨hnone, h⟩ := moved_decl s s rfl .function hσ (w.child 0) d hb hw he.2
          exact ⟨⟨rfl, hnone⟩, hσ, .unnamed ((Resolve.name_function ..).trans hd) h⟩
      | some x =>
          have hx : x.Plain := hw.plain hd
          obtain ⟨outer, rfl⟩ := hfits.own (by rw [Stmt.declares, hd]; exact nofun)
          simp only [Resolve.stmt, Moving.stmt, Moving.name_function, hd, Findings.errors_append,
            List.append_eq_nil_iff, hσ.redeclared] at he ⊢
          have hσ₁ := hσ.introduce hx.2 true
          obtain ⟨hnone, h⟩ := moved_decl s s rfl .function hσ₁ (w.child 0) d hb hw he.2
          exact ⟨⟨he.1, hnone⟩, hσ₁, .functionDecl h⟩
  | .classDecl x none ms, _, _, .classDecl _ _ hb, .classDecl hx _ hw, hfits, he => by
      obtain ⟨outer, rfl⟩ := hfits.own nofun
      simp only [Resolve.stmt, Moving.stmt, Moving.optionExpr, Findings.errors_append,
        List.append_eq_nil_iff, hσ.redeclared] at he ⊢
      have hσ₁ := hσ.introduce hx.2 true
      obtain ⟨hnone, h⟩ := moved_decls { s with inClass := .base } { s with inClass := .base } rfl
        (.own rfl hσ₁) w ms hb hw he.2
      exact ⟨⟨he.1, hnone⟩, hσ₁, .classDecl .none h⟩
  | .classDecl x (some e) ms, _, _, .classDecl _ (.some hbe) hb, .classDecl hx hwe hw, hfits,
      he => by
      obtain ⟨outer, rfl⟩ := hfits.own nofun
      simp only [Resolve.stmt, Moving.stmt, Moving.optionExpr, Moving.inheritance_expr,
        Findings.errors_append, List.append_eq_nil_iff, hσ.redeclared] at he ⊢
      have hσ₁ := hσ.introduce hx.2 true
      let derived : Surroundings := { s with inClass := .derived }
      obtain ⟨hne, hinherits⟩ := moved_expr derived derived rfl hσ₁ (w.child 0)
        e hbe (hwe e rfl) he.1.2
      obtain ⟨hnone, h⟩ := moved_decls derived derived rfl (.methods rfl hσ₁) w ms hb hw he.2
      exact ⟨⟨⟨he.1.1, hne⟩, hnone⟩, hσ₁, .classDecl (.some hinherits) h⟩
  | .returnWith keyword e, _, _, .returnWith _ hb, .returnWith hw, _, he => by
      simp only [Resolve.stmt, Moving.stmt, Moving.isSome_optionExpr, Findings.errors_append,
        List.append_eq_nil_iff] at he ⊢
      obtain ⟨hnone, h⟩ := moved_optionExpr s s rfl hσ (w.child 0) e hb hw he.2
      exact ⟨⟨he.1, hnone⟩, hσ, .returnWith h⟩
  | .breakLoop keyword, _, _, _, _, _, he => by
      have hloop : s.inLoop = true := by
        simpa using Findings.errors_when he
      exact ⟨he, hσ, .breakLoop (hl hloop)⟩
  | .continueLoop keyword, _, _, _, _, hfits, he => by
      have hloop : s.inLoop = true := by
        simpa using Findings.errors_when he
      have hnotNone := hl hloop
      cases l with
      | none => cases hnotNone rfl
      | kept => exact ⟨he, hσ, .continueLoop⟩
      | moved => cases hfits.moved rfl
  | .moduleDecl x body, _, _, .moduleDecl _ hb, .moduleDecl hx hw, hfits, he => by
      obtain ⟨outer, rfl⟩ := hfits.own nofun
      simp only [Resolve.stmt, Moving.stmt, Findings.errors_append, List.append_eq_nil_iff,
        hσ.redeclared] at he ⊢
      obtain ⟨hnone, -, h⟩ := moved_stmts { s with inLoop := false } (l := .none) nofun
        hσ.enter w body hb hw (Stmt.Fits.statements nofun) he.1
      exact ⟨⟨hnone, he.2⟩, hσ.introduce hx.2 false, .moduleDecl h⟩
termination_by structural st => st

theorem moved_optionStmt (s : Surroundings) {l : InnerLoop} (hl : s.inLoop = true → l ≠ .none)
    {Δ : List Layer} {σ σ' : Scopes} (hσ : MovedScopes Δ σ σ') (w : Descent) :
    ∀ (st : Option Stmt) {m : Option Nat} {st₀ : Option Stmt}, LikeOptionStmt .bare m st st₀ →
      (∀ u ∈ st, WordedStmt u) → (∀ u ∈ st, u.Fits Δ l) →
      (Resolve.optionStmt s σ st).2.2.errors = [] →
      (Resolve.optionStmt s σ' (Moving.optionStmt w st)).2.2.errors = [] ∧
        MovedScopes Δ (Resolve.optionStmt s σ st).2.1
          (Resolve.optionStmt s σ' (Moving.optionStmt w st)).2.1 ∧
        MovedOptionStmt Δ l (Resolve.optionStmt s σ st).1
          (Resolve.optionStmt s σ' (Moving.optionStmt w st)).1
  | none, _, _, _, _, _, _ => ⟨rfl, hσ, .none⟩
  | some st, _, _, .some hb, hw, hfits, he => by
      obtain ⟨hnone, hσ₁, h⟩ := moved_stmt s hl hσ w st hb (hw st rfl) (hfits st rfl) he
      exact ⟨hnone, hσ₁, .some h⟩
termination_by structural st => st

theorem moved_stmts (s : Surroundings) {l : InnerLoop} (hl : s.inLoop = true → l ≠ .none)
    {Δ : List Layer} {σ σ' : Scopes} (hσ : MovedScopes Δ σ σ') (w : Descent) :
    ∀ (sts : List Stmt) {m : Option Nat} {sts₀ : List Stmt}, LikeStmts .bare m sts sts₀ →
      (∀ st ∈ sts, WordedStmt st) → (∀ st ∈ sts, st.Fits Δ l) →
      (Resolve.stmts s σ sts).2.2.errors = [] →
      (Resolve.stmts s σ' (Moving.stmts w sts)).2.2.errors = [] ∧
        MovedScopes Δ (Resolve.stmts s σ sts).2.1
          (Resolve.stmts s σ' (Moving.stmts w sts)).2.1 ∧
        MovedStmts Δ l (Resolve.stmts s σ sts).1 (Resolve.stmts s σ' (Moving.stmts w sts)).1
  | [], _, _, _, _, _, _ => ⟨rfl, hσ, .nil⟩
  | st :: sts, _, _, .cons hb hbs, hw, hfits, he => by
      simp only [Resolve.stmts, Moving.stmts, Findings.errors_append,
        List.append_eq_nil_iff] at he ⊢
      obtain ⟨hw, hws⟩ := List.forall_mem_cons.mp hw
      obtain ⟨hfit, hfits⟩ := List.forall_mem_cons.mp hfits
      obtain ⟨hnone, hσ₁, h⟩ := moved_stmt s hl hσ (w.child sts.length) st hb hw hfit he.1
      obtain ⟨hnones, hσ₂, hsts⟩ := moved_stmts s hl hσ₁ w sts hbs hws hfits he.2
      exact ⟨⟨hnone, hnones⟩, hσ₂, .cons h hsts⟩
termination_by structural sts => sts

end

/-- The resolver accepts a program with a step moved, and what it makes of the two runs
alike. -/
theorem moved_program {body : List Stmt} (hread : WasRead body) (haccepted : Accepted body)
    (w : Descent) : Accepted (Moving.stmts w body) ∧
      MovedStmts [.own] .none (Resolve.program body).1
        (Resolve.program (Moving.stmts w body)).1 := by
  obtain ⟨m, body₀, hbare⟩ := hread.bare
  have hscopes : MovedScopes [.own] [[]] [[]] := .enter .nil
  obtain ⟨hnone, -, h⟩ := moved_stmts .program (l := .none) nofun hscopes w body hbare
    hread.worded (Stmt.Fits.statements nofun) haccepted
  exact ⟨hnone, h⟩

/-- What the resolver makes of a program runs like itself. -/
theorem moved_self {body : List Stmt} (hread : WasRead body) (haccepted : Accepted body) :
    MovedStmts [.own] .none (Resolve.program body).1 (Resolve.program body).1 := by
  have h := (moved_program hread haccepted none).2
  rwa [Moving.stmts_none] at h

end Lox
