/-
# Scopes and the constructs that pushed them

In every visit there are as many scopes as constructs that pushed one:
`visitAt_even`.  Statements add names to the innermost scope and leave the others
alone, and a name that is there keeps its mark; so what a scope says about a name
is what it says once its construct is at an end: `visitAt_fits`.

Both go by the ways into a node, of which `Enters` lists one for each construct.
-/
import Lox.Proofs.Visit
import Mathlib.Data.List.Forall2

namespace Lox

/-! ## Names and their distances -/

namespace Scopes

/-- A name is found in the scope of its distance. -/
theorem getElem?_of_find? {σ : Scopes} {n : String} {d : Nat} {b : Binding}
    (h : σ.find? n = some (d, b)) : ∃ scope, σ[d]? = some scope ∧ scope.get? n = some b := by
  induction σ generalizing d with
  | nil => cases h
  | cons scope outer ih =>
      simp only [find?] at h
      split at h
      · cases h
        exact ⟨scope, rfl, ‹_›⟩
      · obtain ⟨⟨d', b'⟩, hd, he⟩ := Option.map_eq_some_iff.mp h
        cases he
        exact ih hd

theorem lt_length_of_find? {σ : Scopes} {n : String} {d : Nat} {b : Binding}
    (h : σ.find? n = some (d, b)) : d < σ.length := by
  obtain ⟨scope, hscope, -⟩ := getElem?_of_find? h
  exact (List.getElem?_eq_some_iff.mp hscope).1

/-- The depth of a name is the number of one of the scopes. -/
theorem refer_lt {σ : Scopes} {name : Token} {a : Bool} {d : Nat}
    (h : (σ.refer name none a).1 = some d) : d < σ.length := by
  unfold refer at h
  split at h
  · cases h
    exact lt_length_of_find? ‹_›
  · cases h

end Scopes

/-! ## What statements add to a scope -/

/-- The name that a statement adds to the scope that it stands in. -/
def Stmt.declares : Stmt → Option Token
  | .varDecl name _ | .letDecl name _ | .classDecl name _ _ | .moduleDecl name _ => some name
  | .functionDecl d => d.name
  | _ => none

/-- What the resolver makes of a statement declares the same. -/
theorem Context.declares_stmt (c : Context) (st : Stmt) : (c.stmt st).declares = st.declares := by
  cases st with
  | functionDecl d =>
      obtain ⟨keyword, name, params, body⟩ := d
      cases name <;> rfl
  | classDecl name e ms => cases e <;> rfl
  | _ => rfl

/-- Every name of `scope` is in `full`, and may be assigned to in both or in
neither. -/
def Agrees (scope full : StaticScope) : Prop :=
  ∀ n b, scope.get? n = some b → ∃ b', full.get? n = some b' ∧ b'.assignable = b.assignable

theorem Agrees.refl (scope : StaticScope) : Agrees scope scope :=
  fun _ b h => ⟨b, h, rfl⟩

theorem Agrees.trans {scope scope' full : StaticScope} (h : Agrees scope scope')
    (h' : Agrees scope' full) : Agrees scope full := by
  intro n b hb
  obtain ⟨b', hb', heq⟩ := h n b hb
  obtain ⟨b'', hb'', heq'⟩ := h' n b' hb'
  exact ⟨b'', hb'', heq'.trans heq⟩

/-- Nothing but the innermost scope is changed, and that by adding names. -/
inductive Scopes.Grows : Scopes → Scopes → Prop
  | nil : Grows [] []
  | cons {scope full outer} : Agrees scope full → Grows (scope :: outer) (full :: outer)

namespace Scopes

theorem Grows.refl (σ : Scopes) : Grows σ σ := by
  cases σ with
  | nil => exact .nil
  | cons scope outer => exact .cons (.refl scope)

theorem Grows.trans {σ σ' σ'' : Scopes} (h : Grows σ σ') (h' : Grows σ' σ'') :
    Grows σ σ'' := by
  cases h with
  | nil => exact h'
  | cons hs =>
      cases h' with
      | cons hs' => exact .cons (hs.trans hs')

theorem Grows.length {σ σ' : Scopes} (h : Grows σ σ') : σ'.length = σ.length := by
  cases h <;> rfl

/-- A mark says what a name's former mark said, if there was one. -/
theorem grows_mark (σ : Scopes) (n : String) (b : Binding)
    (h : ∀ b', σ.here? n = some b' → b.assignable = b'.assignable) : Grows σ (σ.mark n b) := by
  cases σ with
  | nil => exact .nil
  | cons scope outer =>
      refine .cons fun m b' hb' => ?_
      rw [Table.get?_set]
      split
      · subst m
        exact ⟨b, rfl, h b' hb'⟩
      · exact ⟨b', hb', rfl⟩

theorem here?_mark {σ : Scopes} (h : σ ≠ []) (n : String) (b : Binding) :
    (σ.mark n b).here? n = some b := by
  cases σ with
  | nil => exact absurd rfl h
  | cons scope outer => exact Table.get?_set_self scope n b

theorem grows_declare (σ : Scopes) (n : String) (a : Bool) : Grows σ (σ.declare n a) := by
  unfold declare
  split
  · exact .refl σ
  · rename_i hnone
    refine grows_mark σ n _ fun b' hb' => ?_
    simp [hb'] at hnone

theorem grows_define (σ : Scopes) (n : String) : Grows σ (σ.define n) := by
  unfold define
  split
  · rename_i b hb
    refine grows_mark σ n _ fun b' hb' => ?_
    cases hb.symm.trans hb'
    rfl
  · exact .refl σ

theorem grows_introduce (σ : Scopes) (n : String) (a : Bool) : Grows σ (σ.introduce n a) :=
  (grows_declare σ n a).trans (grows_define _ n)

theorem grows_withParams (σ : Scopes) (ps : List Token) : Grows σ (σ.withParams ps).1 := by
  induction ps generalizing σ with
  | nil => exact .refl σ
  | cons p ps ih => exact (grows_introduce σ p.lexeme true).trans (ih _)

end Scopes

namespace Resolve

mutual

/-- A statement adds names to the innermost scope. -/
theorem grows_stmt (s : Surroundings) (σ : Scopes) :
    ∀ st : Stmt, σ.Grows (stmt s σ st).2.1
  | .print _ | .expression _ | .block _ | .returnWith _ _ | .breakLoop _ | .continueLoop _ =>
    .refl σ
  | .varDecl name _ | .letDecl name _ =>
    (Scopes.grows_declare σ name.lexeme _).trans (Scopes.grows_define _ name.lexeme)
  | .moduleDecl name _ => Scopes.grows_introduce σ name.lexeme false
  | .branch _ t f => (grows_stmt s σ t).trans (grows_optionStmt s _ f)
  | .whileLoop _ b _ => grows_stmt _ σ b
  | .functionDecl d => by
      cases h : d.name with
      | none =>
          simp only [stmt, h]
          exact .refl σ
      | some name =>
          simp only [stmt, h]
          exact Scopes.grows_introduce σ name.lexeme true
  | .classDecl name none _ | .classDecl name (some _) _ =>
    Scopes.grows_introduce σ name.lexeme true

theorem grows_optionStmt (s : Surroundings) (σ : Scopes) :
    ∀ st : Option Stmt, σ.Grows (optionStmt s σ st).2.1
  | none => .refl σ
  | some st => grows_stmt s σ st

end

end Resolve

/-! ## Statements in order -/

namespace Context

/-- The context after statements. -/
def through (c : Context) (sts : List Stmt) : Context := sts.foldl after c

@[simp] theorem sites_through (c : Context) (sts : List Stmt) :
    (c.through sts).sites = c.sites := by
  induction sts generalizing c with
  | nil => rfl
  | cons st sts ih => exact ih (c.after st)

theorem grows_through (c : Context) (sts : List Stmt) :
    c.scopes.Grows (c.through sts).scopes := by
  induction sts generalizing c with
  | nil => exact .refl c.scopes
  | cons st sts ih => exact (Resolve.grows_stmt c.surroundings c.scopes st).trans (ih (c.after st))

/-- What comes after a statement adds to what it leaves. -/
theorem grows_through_cons (c : Context) (before later : List Stmt) (st : Stmt) :
    ((c.through before).after st).scopes.Grows (c.through (before ++ st :: later)).scopes := by
  unfold through
  rw [List.foldl_append, List.foldl_cons]
  exact grows_through _ later

end Context

/-! ## Ways into a node -/

/-- The ways from a visit of the node at `p` to the visit of a child. -/
inductive Enters (p : Place) : Visit → Visit → Prop
  | operand {c node e} : Enters p ⟨c, node⟩ ⟨c, .expr e⟩
  | text {c before st later} :
      Enters p ⟨c, .text (before ++ st :: later)⟩ ⟨c.through before, .stmt st⟩
  | lambda {c d} :
      Enters p ⟨c, .expr (.function d)⟩ ⟨c.lambda p d, .function .function d⟩
  | varInitializer {c name e} : Enters p ⟨c, .stmt (.varDecl name (some e))⟩
      ⟨c.withScopes (c.scopes.declare name.lexeme true), .expr e⟩
  | letInitializer {c name e} : Enters p ⟨c, .stmt (.letDecl name e)⟩
      ⟨c.withScopes (c.scopes.declare name.lexeme false), .expr e⟩
  | block {c before st later} : Enters p ⟨c, .stmt (.block (before ++ st :: later))⟩
      ⟨(c.push (.block p)).through before, .stmt st⟩
  | onTrue {c condition onTrue onFalse} :
      Enters p ⟨c, .stmt (.branch condition onTrue onFalse)⟩ ⟨c, .stmt onTrue⟩
  | onFalse {c condition onTrue onFalse} :
      Enters p ⟨c, .stmt (.branch condition onTrue (some onFalse))⟩
        ⟨c.after onTrue, .stmt onFalse⟩
  | loopBody {c condition body step} :
      Enters p ⟨c, .stmt (.whileLoop condition body step)⟩ ⟨c.looping, .stmt body⟩
  | loopStep {c condition body step} :
      Enters p ⟨c, .stmt (.whileLoop condition body (some step))⟩
        ⟨c.withScopes (c.looping.after body).scopes, .expr step⟩
  | declared {c d} :
      Enters p ⟨c, .stmt (.functionDecl d)⟩ ⟨c.declared d, .function .function d⟩
  | superclass {c name e ms} :
      Enters p ⟨c, .stmt (.classDecl name (some e) ms)⟩ ⟨c.superclass name, .expr e⟩
  | methods {c name e ms d} : Enters p ⟨c, .stmt (.classDecl name e ms)⟩
      ⟨c.methods p name e, .function d.methodKind d⟩
  | members {c name before st later} :
      Enters p ⟨c, .stmt (.moduleDecl name (before ++ st :: later))⟩
        ⟨(c.members p).through before, .stmt st⟩
  | body {c kind keyword name params before st later} :
      Enters p ⟨c, .function kind (.mk keyword name params (before ++ st :: later))⟩
        ⟨(c.body p kind params).through before, .stmt st⟩

namespace Visit

theorem operand_eq {c : Context} {es : List Expr} {i : Nat} {w : Visit}
    (h : operand c es i = some w) : ∃ e ∈ es, w = ⟨c, .expr e⟩ := by
  induction es with
  | nil => cases h
  | cons e es ih =>
      simp only [operand] at h
      split at h
      · cases h
        exact ⟨e, List.mem_cons_self, rfl⟩
      · obtain ⟨e', he, hw⟩ := ih h
        exact ⟨e', List.mem_cons_of_mem e he, hw⟩

theorem method_eq {c : Context} {ds : List FunctionDecl} {i : Nat} {w : Visit}
    (h : method c ds i = some w) : ∃ d ∈ ds, w = ⟨c, .function d.methodKind d⟩ := by
  induction ds with
  | nil => cases h
  | cons d ds ih =>
      simp only [method] at h
      split at h
      · cases h
        exact ⟨d, List.mem_cons_self, rfl⟩
      · obtain ⟨d', hd, hw⟩ := ih h
        exact ⟨d', List.mem_cons_of_mem d hd, hw⟩

theorem statement_eq {c : Context} {sts : List Stmt} {i : Nat} {w : Visit}
    (h : statement c sts i = some w) :
    ∃ before st later, sts = before ++ st :: later ∧ w = ⟨c.through before, .stmt st⟩ := by
  induction sts generalizing c with
  | nil => cases h
  | cons st sts ih =>
      simp only [statement] at h
      split at h
      · cases h
        exact ⟨[], st, sts, rfl, rfl⟩
      · obtain ⟨before, st', later, rfl, hw⟩ := ih h
        exact ⟨st :: before, st', later, rfl, hw⟩

theorem enters_ofExpr {p : Place} {c : Context} {e : Expr} {i : Nat} {w : Visit}
    (h : ofExpr p c e i = some w) : Enters p ⟨c, .expr e⟩ w := by
  cases exprChild_of_ofExpr h with
  | lambda => exact .lambda
  | argument h | element h =>
      obtain ⟨e, -, rfl⟩ := operand_eq h
      exact .operand
  | _ => exact .operand

theorem enters_ofStmt {p : Place} {c : Context} {st : Stmt} {i : Nat} {w : Visit}
    (h : ofStmt p c st i = some w) : Enters p ⟨c, .stmt st⟩ w := by
  cases stmtChild_of_ofStmt h with
  | printed | expression | condition | loopCondition | returned => exact .operand
  | varInitializer => exact .varInitializer
  | letInitializer => exact .letInitializer
  | block h =>
      obtain ⟨before, st, later, rfl, rfl⟩ := statement_eq h
      exact .block
  | onTrue => exact .onTrue
  | onFalse => exact .onFalse
  | loopBody => exact .loopBody
  | loopStep => exact .loopStep
  | declared => exact .declared
  | superclass => exact .superclass
  | method h =>
      obtain ⟨d, -, rfl⟩ := method_eq h
      exact .methods
  | member h =>
      obtain ⟨before, st, later, rfl, rfl⟩ := statement_eq h
      exact .members

/-- A child is entered in one of these ways. -/
theorem enters_child {p : Place} {v w : Visit} {i : Nat} (h : v.child p i = some w) :
    Enters p v w := by
  obtain ⟨c, node⟩ := v
  cases node with
  | text body =>
      obtain ⟨before, st, later, rfl, rfl⟩ := statement_eq h
      exact .text
  | expr e => exact enters_ofExpr h
  | stmt st => exact enters_ofStmt h
  | function kind d =>
      cases d with
      | mk keyword name params body =>
          obtain ⟨before, st, later, rfl, rfl⟩ := statement_eq h
          exact .body

end Visit

/-! ## Scopes and their sites -/

/-- There are as many scopes as constructs that pushed one, the outermost of
which, and no other, is the program. -/
structure Context.Even (c : Context) : Prop where
  length : c.scopes.length = c.sites.length
  outermost : ∃ inner, c.sites = inner ++ [.program] ∧ .program ∉ inner

theorem Context.Even.ne_nil {c : Context} (h : c.Even) : c.scopes ≠ [] := by
  intro hnil
  obtain ⟨inner, hsites, -⟩ := h.outermost
  have hlength := h.length
  rw [hnil, hsites, List.length_append] at hlength
  cases hlength

theorem even_after {c : Context} (h : c.Even) (st : Stmt) : (c.after st).Even :=
  ⟨(Resolve.grows_stmt c.surroundings c.scopes st).length.trans h.length, h.outermost⟩

theorem even_through {c : Context} (h : c.Even) (sts : List Stmt) : (c.through sts).Even := by
  induction sts generalizing c with
  | nil => exact h
  | cons st sts ih => exact ih (even_after h st)

theorem even_withScopes {c : Context} (h : c.Even) {σ : Scopes}
    (hσ : σ.length = c.scopes.length) : (c.withScopes σ).Even :=
  ⟨hσ.trans h.length, h.outermost⟩

theorem outermost_cons {sites : List Site} (site : Site) (hsite : site ≠ .program)
    (h : ∃ inner, sites = inner ++ [.program] ∧ .program ∉ inner) :
    ∃ inner, site :: sites = inner ++ [.program] ∧ .program ∉ inner := by
  obtain ⟨inner, rfl, hinner⟩ := h
  refine ⟨site :: inner, rfl, fun hmem => ?_⟩
  rcases List.mem_cons.mp hmem with heq | hmem
  · exact hsite heq.symm
  · exact hinner hmem

theorem even_push {c : Context} (h : c.Even) (site : Site) (hsite : site ≠ .program) :
    (c.push site).Even :=
  ⟨congrArg (· + 1) h.length, outermost_cons site hsite h.outermost⟩

theorem even_enters {p : Place} {v w : Visit} (h : Enters p v w) (hv : v.context.Even) :
    w.context.Even := by
  cases h with
  | operand | onTrue => exact hv
  | text => exact even_through hv _
  | @lambda c d =>
      cases hd : d.name with
      | none => simpa only [Context.lambda, hd] using hv
      | some name =>
          simp only [Context.lambda, hd]
          exact even_withScopes (even_push hv (.selfName p) fun h => by cases h)
            (Scopes.grows_introduce ..).length
  | varInitializer | letInitializer => exact even_withScopes hv (Scopes.grows_declare ..).length
  | block => exact even_through (even_push hv (.block p) fun h => by cases h) _
  | onFalse => exact even_after hv _
  | loopBody => exact ⟨hv.length, hv.outermost⟩
  | @loopStep c condition body step =>
      exact even_withScopes hv (Resolve.grows_stmt _ _ body).length
  | @declared c d =>
      cases hd : d.name with
      | none => simpa only [Context.declared, hd] using hv
      | some name =>
          simp only [Context.declared, hd]
          exact even_withScopes hv (Scopes.grows_introduce ..).length
  | superclass => exact ⟨(Scopes.grows_introduce ..).length.trans hv.length, hv.outermost⟩
  | @methods c name e ms d =>
      have hl : (c.scopes.introduce name.lexeme true).length = c.sites.length :=
        (Scopes.grows_introduce ..).length.trans hv.length
      cases e with
      | none => exact ⟨congrArg (· + 1) hl,
          outermost_cons (.receiver p) (fun h => by cases h) hv.outermost⟩
      | some e =>
          have hsuper := outermost_cons (.superclass p) (fun h => by cases h) hv.outermost
          exact ⟨congrArg (· + 2) hl, outermost_cons (.receiver p) (fun h => by cases h) hsuper⟩
  | @members c name before st later =>
      have hp : (c.push (.members p)).Even := even_push hv (.members p) fun h => by cases h
      exact even_through (c := c.members p) ⟨hp.length, hp.outermost⟩ before
  | @body c kind keyword name params before st later =>
      refine even_through ⟨?_, outermost_cons (.call p) (fun h => by cases h) hv.outermost⟩ _
      exact (Scopes.grows_withParams ..).length.trans (congrArg (· + 1) hv.length)

/-- In every visit there are as many scopes as sites. -/
theorem visitAt_even {texts : List (List Stmt)} {p : Place} {v : Visit}
    (h : visitAt texts p = some v) : v.context.Even :=
  visitAt_induct (P := fun v => v.context.Even) (fun _ _ => ⟨rfl, [], rfl, List.not_mem_nil⟩)
    (fun _ _ _ _ _ hv hw => even_enters (Visit.enters_child hw) hv) h

/-! ## What a scope says in the end -/

/-- The scope of a construct when its end is reached.  That of the program has no
end, since later texts go on with the globals. -/
def Site.scope (texts : List (List Stmt)) : Site → Option StaticScope
  | .program => none
  | .block p =>
    match visitAt texts p with
    | some ⟨c, .stmt (.block body)⟩ => ((c.push (.block p)).through body).scopes.head?
    | _ => none
  | .call p =>
    match visitAt texts p with
    | some ⟨c, .function kind d⟩ => ((c.body p kind d.params).through d.body).scopes.head?
    | _ => none
  | .receiver _ => some (Scopes.implicit "this")
  | .superclass _ => some (Scopes.implicit "super")
  | .selfName p =>
    match visitAt texts p with
    | some ⟨c, .expr (.function d)⟩ => (c.lambda p d).scopes.head?
    | _ => none
  | .members p =>
    match visitAt texts p with
    | some ⟨c, .stmt (.moduleDecl _ body)⟩ => ((c.members p).through body).scopes.head?
    | _ => none

/-- What a scope says is what the scope of its construct says in the end. -/
def FitsSite (texts : List (List Stmt)) (site : Site) (scope : StaticScope) : Prop :=
  site ≠ .program → ∃ full, site.scope texts = some full ∧ Agrees scope full

/-- So it is for every scope. -/
def Fits (texts : List (List Stmt)) (sites : List Site) (σ : Scopes) : Prop :=
  List.Forall₂ (FitsSite texts) sites σ

/-- The scopes that a visit leaves. -/
def Visit.left (v : Visit) : Scopes :=
  match v.node with
  | .stmt st => (v.context.after st).scopes
  | _ => v.context.scopes

section
variable {texts : List (List Stmt)}

theorem Visit.grows_left (v : Visit) : v.context.scopes.Grows v.left := by
  obtain ⟨c, node⟩ := v
  cases node with
  | stmt st => exact Resolve.grows_stmt ..
  | text | expr | function => exact .refl _

/-- Earlier scopes say no more. -/
theorem Fits.mono {sites : List Site} {σ σ' : Scopes} (h : Fits texts sites σ')
    (hσ : σ.Grows σ') : Fits texts sites σ := by
  cases hσ with
  | nil => exact h
  | cons hs =>
      rcases h with _ | ⟨hsite, houter⟩
      refine .cons (fun hne => ?_) houter
      obtain ⟨full, hfull, hagrees⟩ := hsite hne
      exact ⟨full, hfull, hs.trans hagrees⟩

/-- The scope of a construct with statements, which end with `full`. -/
theorem Fits.inside {sites : List Site} {σ σ' : Scopes} {site : Site}
    (h : Fits texts sites σ) (hσ : Scopes.Grows ([] :: σ) σ')
    (hsite : site.scope texts = σ'.head?) : Fits texts (site :: sites) σ' := by
  cases hσ with
  | cons => exact .cons (fun _ => ⟨_, hsite, .refl _⟩) h

theorem Fits.implicit {sites : List Site} {σ : Scopes} {site : Site} {name : String}
    (h : Fits texts sites σ) (hsite : site.scope texts = some (Scopes.implicit name)) :
    Fits texts (site :: sites) (Scopes.implicit name :: σ) :=
  .cons (fun _ => ⟨_, hsite, .refl _⟩) h

/-- A statement among those of a construct that pushes a scope. -/
theorem Fits.statement {sites : List Site} {σ : Scopes} {c : Context} {site : Site}
    {before : List Stmt} {st : Stmt} (later : List Stmt) (h : Fits texts sites σ)
    (hc : Scopes.Grows ([] :: σ) c.scopes) (hsites : c.sites = site :: sites)
    (hsite : site.scope texts = (c.through (before ++ st :: later)).scopes.head?) :
    Fits texts (c.through before).sites ((c.through before).after st).scopes := by
  have hall := h.inside (hc.trans (c.grows_through (before ++ st :: later))) hsite
  rw [Context.sites_through, hsites]
  exact hall.mono (c.grows_through_cons before later st)

theorem fits_enters {p : Place} {v w : Visit} (hp : visitAt texts p = some v)
    (h : Enters p v w) (htext : ∀ body, v.node = .text body → v.context.sites = [.program])
    (hw : w.left.length = w.context.sites.length) (hv : Fits texts v.context.sites v.left) :
    Fits texts w.context.sites w.left := by
  have hc := hv.mono v.grows_left
  cases h with
  | operand => exact hc
  | @text c before st later =>
      have hsites : (c.through before).sites = [.program] :=
        (c.sites_through before).trans (htext _ rfl)
      rw [hsites] at hw ⊢
      obtain ⟨scope, hscope⟩ := List.length_eq_one_iff.mp hw
      rw [hscope]
      exact .cons (fun hne => absurd rfl hne) .nil
  | @lambda c d =>
      cases hd : d.name with
      | none => simpa only [Visit.left, Context.lambda, hd] using hc
      | some name =>
          have hσ := Scopes.grows_introduce ([] :: c.scopes) name.lexeme false
          have hsite : (Site.selfName p).scope texts =
              (Scopes.introduce ([] :: c.scopes) name.lexeme false).head? := by
            simp only [Site.scope, hp, Context.lambda, hd, Context.withScopes]
          simp only [Visit.left, Context.lambda, hd]
          exact hc.inside hσ hsite
  | varInitializer => exact hv.mono (Scopes.grows_define ..)
  | letInitializer => exact hv.mono (Scopes.grows_define ..)
  | @block c before st later =>
      exact Fits.statement (c := c.push (.block p)) later hc (.refl _) rfl
        (by simp only [Site.scope, hp])
  | onTrue => exact hv.mono (Resolve.grows_optionStmt ..)
  | onFalse => exact hv
  | loopBody => exact hv
  | loopStep => exact hv
  | @declared c d =>
      cases hd : d.name with
      | none =>
          simp only [Visit.left, Context.declared, hd]
          exact hc
      | some name =>
          simp only [Visit.left, Context.after, Resolve.stmt, hd] at hv
          simp only [Visit.left, Context.declared, hd]
          exact hv
  | superclass => exact hv
  | @methods c name e ms d =>
      cases e with
      | none => exact hv.implicit rfl
      | some e => exact (hv.implicit rfl).implicit rfl
  | @members c name before st later =>
      exact Fits.statement (c := c.members p) later hc (.refl _) rfl
        (by simp only [Site.scope, hp])
  | @body c kind keyword name params before st later =>
      exact Fits.statement (c := c.body p kind params) later hc (Scopes.grows_withParams ..) rfl
        (by simp only [Site.scope, hp, FunctionDecl.params, FunctionDecl.body])

/-- In every visit, what a scope says about a name is what it says in the end. -/
theorem visitAt_fits {p : Place} {v : Visit} (h : visitAt texts p = some v) :
    Fits texts v.context.sites v.left := by
  refine (visitAt_induct (P := fun v => Fits texts v.context.sites v.left ∧
    ∀ body, v.node = .text body → v.context.sites = [.program]) ?_ ?_ h).1
  · intro body _
    exact ⟨.cons (fun hne => absurd rfl hne) .nil, fun _ _ => rfl⟩
  · intro p v i w hp hv hw
    have henters := Visit.enters_child hw
    have heven := visitAt_even ((visitAt_cons hp i).trans hw)
    have hlength := w.grows_left.length.trans heven.length
    refine ⟨fits_enters hp henters hv.2 hlength hv.1, fun body hbody => ?_⟩
    cases henters <;> cases hbody

end

end Lox
