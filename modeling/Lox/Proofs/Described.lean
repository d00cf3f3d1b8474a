/-
# Scopes and the declarations around a place

When the resolver gets to a node, its scopes hold the declarations that start
before the node, each under the mark that the first declaration of the name has:
`visitAt_known`.  A name is unfinished while the variable is being initialized, and
what surrounds the node is what the constructs around it say.

The scopes of a statement do not hold what the statement declares, those of its
inside do, except for a module.  So the invariant speaks of a statement and of an
expression in different ways (`ScopesKnown`); it goes from a node to its children,
one construct after another.
-/
import Lox.Proofs.Around
import Lox.Proofs.Names

namespace Lox

/-! ## What statements declare -/

theorem Stmt.declares_eq (st : Stmt) : st.declares = st.declaration?.map Declaration.name := by
  cases st with
  | functionDecl d =>
      simp only [declares, declaration?, Option.map_map]
      exact Option.map_id'.symm
  | _ => rfl

theorem Stmt.declaration?_eq_none {st : Stmt} : st.declaration? = none ↔ st.declares = none := by
  rw [st.declares_eq, Option.map_eq_none_iff]

/-- A statement introduces what it declares, and nothing else. -/
theorem Resolve.scopes_stmt {st : Stmt} (h : WordedStmt st) (s : Surroundings) (σ : Scopes) :
    (stmt s σ st).2.1 =
      match st.declaration? with
      | some d => σ.introduce d.name.lexeme (!d.readOnly)
      | none => σ := by
  match st, h with
  | _, .print _ | _, .expression _ | _, .block _ | _, .returnWith _ | _, .breakLoop
  | _, .continueLoop | .varDecl _ _, .varDecl _ _ | .letDecl _ _, .letDecl _ _
  | .moduleDecl _ _, .moduleDecl _ _ | .classDecl _ none _, .classDecl _ _ _
  | .classDecl _ (some _) _, .classDecl _ _ _ => rfl
  | .functionDecl d, .functionDecl _ =>
      cases hd : d.name with
      | none => simp only [stmt, Stmt.declaration?, hd, Option.map_none]
      | some name =>
          simp only [stmt, Stmt.declaration?, hd, Option.map_some]
          rfl
  | .whileLoop _ body _, .whileLoop _ hbody hnone _ =>
      have hdeclares : body.declaration? = none := Stmt.declaration?_eq_none.mpr hnone
      have := scopes_stmt hbody { s with inLoop := true } σ
      rw [hdeclares] at this
      exact this
  | .branch _ onTrue none, .branch _ htrue hnone _ _ =>
      have hdeclares : onTrue.declaration? = none := Stmt.declaration?_eq_none.mpr hnone
      have := scopes_stmt htrue s σ
      rw [hdeclares] at this
      exact this
  | .branch _ onTrue (some onFalse), .branch _ htrue hnone hfalse hnone' =>
      have hdeclares : onTrue.declaration? = none := Stmt.declaration?_eq_none.mpr hnone
      have hdeclares' : onFalse.declaration? = none := Stmt.declaration?_eq_none.mpr (hnone' _ rfl)
      have htrue := scopes_stmt htrue s σ
      have hfalse := scopes_stmt (hfalse _ rfl) s σ
      rw [hdeclares] at htrue
      rw [hdeclares'] at hfalse
      simp only [stmt, optionStmt, Stmt.declaration?]
      rw [htrue]
      exact hfalse

/-! ## Scopes and declarations -/

theorem firstOf_append (as bs : List Declaration) (n : String) :
    firstOf (as ++ bs) n = (firstOf as n).or (firstOf bs n) :=
  List.find?_append

theorem firstOf_singleton (d : Declaration) (n : String) :
    firstOf [d] n = if n = d.name.lexeme then some d else none := by
  simp [firstOf, List.find?_singleton, eq_comm]

/-- A scope holds the names that are declared, each with the mark that its first
declaration has; the words `this` and `super` are no names. -/
def Describes (scope : StaticScope) (declared : List Declaration) : Prop :=
  ∀ n, n ≠ "this" → n ≠ "super" →
    (scope.get? n).map Binding.assignable = (firstOf declared n).map fun d => !d.readOnly

/-- The innermost scope has no name whose declaration goes on. -/
def Scopes.Complete (σ : Scopes) : Prop := ∀ n b, σ.here? n = some b → b.defined = true

namespace Scopes

/-- A name that is declared is there afterwards, unfinished if it is new. -/
theorem here?_declare {σ : Scopes} (h : σ ≠ []) (n m : String) (a : Bool) :
    (σ.declare n a).here? m = (σ.here? m).or (if m = n then some ⟨false, a⟩ else none) := by
  unfold declare
  split
  · rename_i hsome
    obtain ⟨b, hb⟩ := Option.isSome_iff_exists.mp hsome
    split
    · subst m
      rw [hb]
      rfl
    · rw [Option.or_none]
  · rename_i hnone
    have hn : σ.here? n = none := by simpa using hnone
    cases σ with
    | nil => exact absurd rfl h
    | cons scope outer =>
        show (Table.set scope n _).get? m = _
        rw [Table.get?_set]
        split
        · subst m
          rw [hn]
          rfl
        · rw [Option.or_none]
          rfl

theorem here?_define (σ : Scopes) (n m : String) :
    (σ.define n).here? m =
      (σ.here? m).map fun b => if m = n then { b with defined := true } else b := by
  unfold define
  split
  · rename_i b hb
    cases σ with
    | nil => cases hb
    | cons scope outer =>
        show (Table.set scope n _).get? m = _
        rw [Table.get?_set]
        split
        · subst m
          rw [hb]
          rfl
        · exact Option.map_id'.symm
  · rename_i hnone
    split
    · subst m
      rw [hnone]
      rfl
    · cases σ.here? m <;> rfl

end Scopes

section
variable {σ : Scopes} {here : List Declaration} {outer : List (List Declaration)}

theorem Scopes.Complete.introduce (h : σ.Complete) (hne : σ ≠ []) (n : String) (a : Bool) :
    (σ.introduce n a).Complete := by
  intro m b hb
  rw [Scopes.introduce, Scopes.here?_define, Scopes.here?_declare hne] at hb
  obtain ⟨b', hb', rfl⟩ := Option.map_eq_some_iff.mp hb
  split
  · rfl
  · rename_i hm
    rw [if_neg hm, Option.or_none] at hb'
    exact h m b' hb'

/-- The innermost scope is described by what it says. -/
theorem described_here (hσ : List.Forall₂ Describes σ (here :: outer)) {n : String}
    (ht : n ≠ "this") (hs : n ≠ "super") :
    (σ.here? n).map Binding.assignable = (firstOf here n).map fun d => !d.readOnly := by
  cases hσ with
  | cons h _ => exact h n ht hs

/-- What holds of the innermost scope, the others being left alone. -/
theorem described_of_here {σ' : Scopes} {here' : List Declaration}
    (hσ : List.Forall₂ Describes σ (here :: outer)) (htail : σ'.tail = σ.tail) (hne : σ' ≠ [])
    (h : ∀ n, n ≠ "this" → n ≠ "super" →
      (σ'.here? n).map Binding.assignable = (firstOf here' n).map fun d => !d.readOnly) :
    List.Forall₂ Describes σ' (here' :: outer) := by
  cases hσ with
  | cons _ houter =>
      cases σ' with
      | nil => exact absurd rfl hne
      | cons scope rest =>
          cases htail
          exact .cons h houter

theorem tail_declare (n : String) (a : Bool) : (σ.declare n a).tail = σ.tail := by
  unfold Scopes.declare
  split
  · rfl
  · cases σ <;> rfl

theorem tail_define (n : String) : (σ.define n).tail = σ.tail := by
  unfold Scopes.define
  split
  · cases σ <;> rfl
  · rfl

theorem described_declare (hσ : List.Forall₂ Describes σ (here :: outer)) (d : Declaration) :
    List.Forall₂ Describes (σ.declare d.name.lexeme (!d.readOnly)) ((here ++ [d]) :: outer) := by
  have hne : σ ≠ [] := by
    rintro rfl
    cases hσ
  refine described_of_here hσ (tail_declare _ _) ?_ fun n ht hs => ?_
  · intro hnil
    have := (Scopes.grows_declare σ d.name.lexeme (!d.readOnly)).length
    rw [hnil] at this
    exact hne (List.length_eq_zero_iff.mp this.symm)
  · have hhere := described_here hσ ht hs
    rw [Scopes.here?_declare hne, firstOf_append, firstOf_singleton]
    cases hb : σ.here? n with
    | some b =>
        rw [hb] at hhere
        cases hd : firstOf here n with
        | none => rw [hd] at hhere; cases hhere
        | some d' => rw [hd] at hhere; exact hhere
    | none =>
        rw [hb] at hhere
        cases hd : firstOf here n with
        | some d' => rw [hd] at hhere; cases hhere
        | none => simp only [Option.none_or]; split <;> rfl

theorem described_define (hσ : List.Forall₂ Describes σ (here :: outer)) (n : String) :
    List.Forall₂ Describes (σ.define n) (here :: outer) := by
  have hne : σ.define n ≠ [] := by
    intro hnil
    have := (Scopes.grows_define σ n).length
    rw [hnil] at this
    cases hσ
    cases this
  refine described_of_here hσ (tail_define n) hne fun m ht hs => ?_
  rw [Scopes.here?_define, Option.map_map, ← described_here hσ ht hs]
  cases σ.here? m with
  | none => rfl
  | some b =>
      simp only [Option.map_some, Function.comp_apply]
      split <;> rfl

theorem described_introduce (hσ : List.Forall₂ Describes σ (here :: outer)) (d : Declaration) :
    List.Forall₂ Describes (σ.introduce d.name.lexeme (!d.readOnly)) ((here ++ [d]) :: outer) :=
  described_define (described_declare hσ d) d.name.lexeme

theorem described_withParams {ps : List Token} (hσ : List.Forall₂ Describes σ (here :: outer)) :
    List.Forall₂ Describes (σ.withParams ps).1 ((here ++ ps.map (⟨·, .parameter⟩)) :: outer) := by
  induction ps generalizing σ here with
  | nil =>
      rw [List.map_nil, List.append_nil]
      exact hσ
  | cons p ps ih =>
      have := ih (described_introduce hσ ⟨p, .parameter⟩)
      rw [List.append_assoc] at this
      exact this

theorem complete_withParams {ps : List Token} (h : σ.Complete) (hne : σ ≠ []) :
    (σ.withParams ps).1.Complete := by
  induction ps generalizing σ with
  | nil => exact h
  | cons p ps ih => exact ih (h.introduce hne p.lexeme true) (Scopes.introduce_ne_nil hne _ _)

/-- Statements add what they declare. -/
theorem described_through {c : Context} {sts : List Stmt}
    (hsts : ∀ st ∈ sts, WordedStmt st) (hσ : List.Forall₂ Describes c.scopes (here :: outer))
    (hcomplete : c.scopes.Complete) :
    List.Forall₂ Describes (c.through sts).scopes
      ((here ++ sts.filterMap Stmt.declaration?) :: outer) ∧ (c.through sts).scopes.Complete := by
  induction sts generalizing c here with
  | nil =>
      rw [List.filterMap_nil, List.append_nil]
      exact ⟨hσ, hcomplete⟩
  | cons st sts ih =>
      obtain ⟨hst, hsts⟩ := List.forall_mem_cons.mp hsts
      have hne : c.scopes ≠ [] := by
        intro hnil
        rw [hnil] at hσ
        cases hσ
      have hafter : (c.after st).scopes = _ := Resolve.scopes_stmt hst c.surroundings c.scopes
      cases hd : st.declaration? with
      | none =>
          rw [hd] at hafter
          rw [List.filterMap_cons_none hd]
          exact ih (c := c.after st) hsts (hafter ▸ hσ) (hafter ▸ hcomplete)
      | some d =>
          rw [hd] at hafter
          dsimp only at hafter
          have := ih (c := c.after st) hsts (hafter ▸ described_introduce hσ d)
            (hafter ▸ hcomplete.introduce hne _ _)
          rw [List.append_assoc] at this
          rw [List.filterMap_cons_some hd]
          exact this

end

/-! ## What the resolver knows -/

theorem Context.surroundings_through (c : Context) (sts : List Stmt) :
    (c.through sts).surroundings = c.surroundings := by
  induction sts generalizing c with
  | nil => rfl
  | cons st sts ih => exact ih (c.after st)

/-- What is said of the scopes at a node: they hold what starts before the node, and
only a variable that is being initialized is unfinished.  At a statement its own
declaration is still missing. -/
def ScopesKnown (ways : List Way) (σ : Scopes) : Node → Prop
  | .text _ => List.Forall₂ Describes σ ([] :: scopesOf ways) ∧ σ.Complete
  | .expr _ => List.Forall₂ Describes σ (scopesOf ways) ∧
      ∀ n, ((σ.here? n).any fun b => !b.defined) = true ↔ initializing ways = some n
  | .stmt st => ∃ here outer, scopesOf ways = (here ++ st.declaresInside) :: outer ∧
      List.Forall₂ Describes σ (here :: outer) ∧ σ.Complete ∧
      (st.declaration? ≠ none → ∃ w, ways.head? = some w ∧ w.earlier = here)
  | .function _ _ => List.Forall₂ Describes σ (scopesOf ways)

theorem describes_nil : Describes [] [] := fun _ _ _ => rfl

/-- The scope of a keyword holds no name. -/
theorem describes_implicit {word : String} (h : word = "this" ∨ word = "super") :
    Describes (Scopes.implicit word) [] := by
  intro n ht hs
  have hne : word ≠ n := by
    rcases h with rfl | rfl
    · exact Ne.symm ht
    · exact Ne.symm hs
  simp [Scopes.implicit, Table.get?, hne, firstOf]

theorem Context.surroundings_lambda (c : Context) (p : Place) (d : FunctionDecl) :
    (c.lambda p d).surroundings = c.surroundings := by
  unfold lambda
  cases d.name <;> rfl

theorem Context.surroundings_declared (c : Context) (d : FunctionDecl) :
    (c.declared d).surroundings = c.surroundings := by
  unfold declared
  cases d.name <;> rfl

/-- What the resolver knows at a node, in terms of what is around the node. -/
structure Known (ways : List Way) (v : Visit) : Prop where
  function : v.context.surroundings.function = functionOf ways
  inLoop : v.context.surroundings.inLoop = loops ways
  scopes : ScopesKnown ways v.context.scopes v.node

theorem Scopes.Complete.unfinished {σ : Scopes} (h : σ.Complete) (n : String) :
    ((σ.here? n).any fun b => !b.defined) = false := by
  cases hb : σ.here? n with
  | none => rfl
  | some b => simp [h n b hb]

theorem scopesOf_cons (w : Way) (ways : List Way) :
    scopesOf (w :: ways) = w.crossed ++ scopesOf ways := rfl

section
variable {ways : List Way} {p : Place} {i : Nat} {w : Visit} {c : Context}

/-- A statement among those of a construct whose scope begins with `ahead`. -/
theorem known_statement {n : Node} {ahead : List Declaration} {body : List Stmt}
    (hmembers : n.members = some (ahead, body))
    (hcrossed : Way.crossed (n, i) = [Way.earlier (n, i) ++ Way.entered (n, i)])
    (hchild : n.child i = body.reverse[i]?.map .stmt)
    (hfunction : c.surroundings.function = functionOf ((n, i) :: ways))
    (hloop : c.surroundings.inLoop = loops ((n, i) :: ways))
    (hσ : List.Forall₂ Describes c.scopes (ahead :: scopesOf ways)) (hcomplete : c.scopes.Complete)
    (hbody : ∀ st ∈ body, WordedStmt st) (h : Visit.statement c body i = some w) :
    Known ((n, i) :: ways) w := by
  obtain ⟨before, st, later, rfl, rfl, rfl⟩ := Visit.statement_at h
  have hearlier : Way.earlier (n, later.length) = ahead ++ before.filterMap Stmt.declaration? := by
    have hlength : (before ++ st :: later).length - (later.length + 1) = before.length := by
      simp
    simp only [Way.earlier, hmembers, hlength, List.take_left]
  have hentered : Way.entered (n, later.length) = st.declaresInside := by
    simp only [Way.entered, hchild, getElem?_reverse_later, Option.map_some]
  obtain ⟨hthrough, hdone⟩ := described_through
    (fun st hst => hbody st (List.mem_append_left _ hst)) hσ hcomplete
  have hsurroundings := c.surroundings_through before
  refine ⟨hsurroundings ▸ hfunction, hsurroundings ▸ hloop, _, _, ?_, hthrough, hdone,
    fun _ => ⟨_, rfl, hearlier⟩⟩
  rw [scopesOf_cons, hcrossed, hearlier, hentered]
  rfl

/-- A statement that is the only one of a branch or a loop. -/
theorem known_inside {n : Node} {st : Stmt} {here : List Declaration}
    {outer : List (List Declaration)} (hnone : st.declares = none)
    (hfunction : c.surroundings.function = functionOf ((n, i) :: ways))
    (hloop : c.surroundings.inLoop = loops ((n, i) :: ways)) (hcrossed : Way.crossed (n, i) = [])
    (hscopes : scopesOf ways = (here ++ []) :: outer)
    (hσ : List.Forall₂ Describes c.scopes (here :: outer)) (hcomplete : c.scopes.Complete) :
    Known ((n, i) :: ways) ⟨c, .stmt st⟩ := by
  have hdeclaration : st.declaration? = none := Stmt.declaration?_eq_none.mpr hnone
  have hinside : st.declaresInside = [] := by
    cases st <;> first | rfl | (simp only [Stmt.declaresInside, hdeclaration]; rfl)
  refine ⟨hfunction, hloop, here, outer, ?_, hσ, hcomplete, fun h => absurd hdeclaration h⟩
  rw [scopesOf_cons, hcrossed, hinside]
  exact hscopes

theorem scopes_after_of_none {st : Stmt} (hst : WordedStmt st) (hnone : st.declares = none)
    (c : Context) : (c.after st).scopes = c.scopes := by
  have := Resolve.scopes_stmt hst c.surroundings c.scopes
  rw [Stmt.declaration?_eq_none.mpr hnone] at this
  exact this

theorem known_ofExpr {e : Expr} (hv : Known ways ⟨c, .expr e⟩) (hworded : WordedExpr e)
    (h : Visit.ofExpr p c e i = some w) : Known ((.expr e, i) :: ways) w := by
  obtain ⟨hfunction, hloop, hσ, hunfinished⟩ := hv
  by_cases hd : ∃ d, e = .function d
  · obtain ⟨d, rfl⟩ := hd
    rcases i with _ | i
    · cases h
      refine ⟨?_, ?_, ?_⟩
      · rw [c.surroundings_lambda]
        exact hfunction
      · rw [c.surroundings_lambda]
        exact hloop
      · show List.Forall₂ Describes (c.lambda p d).scopes
          ((d.name.toList.map fun name => [⟨name, .self⟩]) ++ scopesOf ways)
        cases hd : d.name with
        | none =>
            simp only [Context.lambda, hd]
            exact hσ
        | some name =>
            simp only [Context.lambda, hd]
            exact described_introduce (.cons describes_nil hσ) ⟨name, .self⟩
    · cases h
  · have hcrossed : Way.crossed (.expr e, i) = [] := by
      cases e <;> first | rfl | exact absurd ⟨_, rfl⟩ hd
    have hinit : initializing ((.expr e, i) :: ways) = initializing ways := by
      cases e <;> first | rfl | exact absurd ⟨_, rfl⟩ hd
    cases Visit.enters_ofExpr h with
    | lambda => exact absurd ⟨_, rfl⟩ hd
    | operand =>
        refine ⟨hfunction, hloop, ?_, fun n => ?_⟩
        · rw [scopesOf_cons, hcrossed]
          exact hσ
        · rw [hinit]
          exact hunfinished n

theorem initializing_of_first {name : Token} {here : List Declaration} {wy : Way}
    {σ : Scopes} (hname : name.Plain) {outer : List (List Declaration)}
    (hσ : List.Forall₂ Describes σ (here :: outer)) (hcomplete : σ.Complete)
    (hways : ways.head? = some wy) (hhere : wy.earlier = here) (a : Bool) (n : String) :
    (((σ.declare name.lexeme a).here? n).any fun b => !b.defined) = true ↔
      (match ways.head? with
        | some w => if (firstOf w.earlier name.lexeme).isSome then none else some name.lexeme
        | none => none) = some n := by
  have hne : σ ≠ [] := by
    rintro rfl
    cases hσ
  have hfirst := described_here hσ hname.1 hname.2
  rw [hways, Scopes.here?_declare hne]
  dsimp only
  rw [hhere]
  by_cases hn : n = name.lexeme
  · subst hn
    cases hb : σ.here? name.lexeme with
    | some b =>
        rw [hb] at hfirst
        cases hd : firstOf here name.lexeme with
        | none => rw [hd] at hfirst; cases hfirst
        | some d => simp [hcomplete _ b hb]
    | none =>
        rw [hb] at hfirst
        cases hd : firstOf here name.lexeme with
        | none => simp
        | some d => rw [hd] at hfirst; cases hfirst
  · rw [if_neg hn, Option.or_none, hcomplete.unfinished n]
    simp [Ne.symm hn]

theorem known_ofStmt {st : Stmt} (hv : Known ways ⟨c, .stmt st⟩) (hworded : WordedStmt st)
    (h : Visit.ofStmt p c st i = some w) : Known ((.stmt st, i) :: ways) w := by
  obtain ⟨hfunction, hloop, here, outer, hscopes, hσ, hcomplete, hearlier⟩ := hv
  have hown : st.declaresInside = [] → List.Forall₂ Describes c.scopes (scopesOf ways) := by
    intro hnil
    rw [hscopes, hnil, List.append_nil]
    exact hσ
  cases Visit.stmtChild_of_ofStmt h with
  | printed | expression | condition | loopCondition | returned =>
      refine ⟨hfunction, hloop, hown rfl, fun n => ?_⟩
      rw [hcomplete.unfinished n]
      simp [initializing]
  | @varInitializer name e =>
      cases hworded with
      | varDecl hname _ =>
          obtain ⟨wy, hways, hhere⟩ := hearlier nofun
          refine ⟨hfunction, hloop, ?_, initializing_of_first hname hσ hcomplete hways hhere true⟩
          rw [scopesOf_cons, hscopes]
          exact described_declare hσ ⟨name, .variable⟩
  | @letInitializer name e =>
      cases hworded with
      | letDecl hname _ =>
          obtain ⟨wy, hways, hhere⟩ := hearlier nofun
          refine ⟨hfunction, hloop, ?_, initializing_of_first hname hσ hcomplete hways hhere false⟩
          rw [scopesOf_cons, hscopes]
          exact described_declare hσ ⟨name, .constant⟩
  | block h =>
      cases hworded with
      | block hbody =>
          exact known_statement (c := c.push (.block p)) rfl rfl rfl hfunction hloop
            (.cons describes_nil (hown rfl)) (fun _ _ h => by cases h) hbody h
  | onTrue =>
      cases hworded with
      | branch _ _ hnone _ _ =>
          exact known_inside hnone hfunction hloop rfl hscopes hσ hcomplete
  | @onFalse _ onTrue st =>
      cases hworded with
      | branch _ htrue hnone _ hnone' =>
          have hafter := scopes_after_of_none htrue hnone c
          exact known_inside (c := c.after onTrue) (hnone' st rfl) hfunction hloop rfl hscopes
            (hafter ▸ hσ) (hafter ▸ hcomplete)
  | loopBody =>
      cases hworded with
      | whileLoop _ _ hnone _ =>
          exact known_inside (c := c.looping) hnone hfunction rfl rfl hscopes hσ hcomplete
  | loopStep =>
      cases hworded with
      | whileLoop _ hbody hnone _ =>
          have hafter := scopes_after_of_none hbody hnone c.looping
          refine ⟨hfunction, hloop, hafter ▸ hown rfl, fun n => ?_⟩
          dsimp only [Context.withScopes]
          rw [hafter]
          dsimp only [Context.looping]
          rw [hcomplete.unfinished n]
          simp [initializing]
  | @declared d =>
      refine ⟨?_, ?_, ?_⟩
      · rw [c.surroundings_declared]
        exact hfunction
      · rw [c.surroundings_declared]
        exact hloop
      · show List.Forall₂ Describes (c.declared d).scopes (scopesOf ways)
        rw [hscopes]
        cases hd : d.name with
        | none =>
            simp only [Context.declared, Stmt.declaresInside, Stmt.declaration?, hd,
              Option.map_none, Option.toList_none, List.append_nil]
            exact hσ
        | some name =>
            simp only [Context.declared, Stmt.declaresInside, Stmt.declaration?, hd,
              Option.map_some, Option.toList_some]
            exact described_introduce hσ ⟨name, .function⟩
  | @superclass name e ms =>
      refine ⟨hfunction, hloop, ?_, fun n => ?_⟩
      · rw [scopesOf_cons, hscopes]
        exact described_introduce hσ ⟨name, .class⟩
      · have hne : c.scopes ≠ [] := by
          intro hnil
          rw [hnil] at hσ
          cases hσ
        have hunfinished := (hcomplete.introduce hne name.lexeme true).unfinished n
        simp only [Context.superclass, hunfinished]
        simp [initializing]
  | @method name e ms _ _ h =>
      obtain ⟨i, rfl⟩ := Nat.exists_eq_succ_of_ne_zero (Nat.ne_of_gt (method_pos h))
      obtain ⟨d, -, rfl⟩ := Visit.method_eq h
      have hclass := described_introduce hσ ⟨name, .class⟩
      cases e with
      | none =>
          refine ⟨hfunction, hloop, ?_⟩
          show List.Forall₂ Describes _ ([] :: scopesOf ways)
          rw [hscopes]
          exact .cons (describes_implicit (.inl rfl)) hclass
      | some e =>
          refine ⟨hfunction, hloop, ?_⟩
          show List.Forall₂ Describes _ ([] :: [] :: scopesOf ways)
          rw [hscopes]
          exact .cons (describes_implicit (.inl rfl)) (.cons (describes_implicit (.inr rfl)) hclass)
  | member h =>
      cases hworded with
      | moduleDecl _ hbody =>
          exact known_statement (c := c.members p) rfl rfl rfl hfunction rfl
            (.cons describes_nil (hown rfl)) (fun _ _ h => by cases h) hbody h

/-- What is known at a node is known at its children. -/
theorem Known.child {v : Visit} (hv : Known ways v) (hworded : v.Worded)
    (h : v.child p i = some w) : Known ((v.node, i) :: ways) w := by
  obtain ⟨c, node⟩ := v
  cases node with
  | text body =>
      obtain ⟨hfunction, hloop, hσ, hcomplete⟩ := hv
      exact known_statement rfl rfl rfl hfunction hloop hσ hcomplete hworded h
  | expr e => exact known_ofExpr hv hworded h
  | stmt st => exact known_ofStmt hv hworded h
  | function kind d =>
      obtain ⟨-, -, hσ⟩ := hv
      cases hworded with
      | mk _ _ hbody =>
          exact known_statement (c := c.body p kind _) rfl rfl rfl rfl rfl
            (described_withParams (.cons describes_nil hσ))
            (complete_withParams nofun nofun) hbody h

end

section
variable {texts : List (List Stmt)} {p : Place} {v : Visit}

/-- What the resolver knows at a node is said by what is around the node. -/
theorem visitAt_known (hread : ∀ body ∈ texts, WasRead body) (h : visitAt texts p = some v) :
    Known (around texts p) v := by
  refine visitAt_inductAt (P := fun p v => Known (around texts p) v) ?_ ?_ h
  · intro r body _
    exact ⟨rfl, rfl, .cons describes_nil .nil, nofun⟩
  · intro p v i w hv hknown hchild
    rw [around_cons hv]
    exact hknown.child (visitAt_worded hread hv) hchild

end

end Lox
