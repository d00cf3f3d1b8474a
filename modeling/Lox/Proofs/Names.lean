/-
# Which names a scope holds

A declaration among statements adds its name, and nothing else, to the innermost
scope: `adds_stmt`, `here?_after`.  Without a violation the name was not there
before: `here?_of_declares`.  The scope of a call begins with the parameters, which
are then all different.
-/
import Lox.Proofs.Words

namespace Lox

namespace Scopes

/-- Nothing but the innermost scope is changed, and the names that it has more are
all `new`. -/
inductive Adds (new : String → Prop) : Scopes → Scopes → Prop
  | nil : Adds new [] []
  | cons {scope full outer} : (∀ n, Table.has full n = true → Table.has scope n = true ∨ new n) →
      Adds new (scope :: outer) (full :: outer)

variable {new : String → Prop}

theorem Adds.refl (σ : Scopes) : Adds new σ σ := by
  cases σ with
  | nil => exact .nil
  | cons scope outer => exact .cons fun _ => .inl

theorem Adds.trans {σ σ' σ'' : Scopes} (h : Adds new σ σ') (h' : Adds new σ' σ'') :
    Adds new σ σ'' := by
  cases h with
  | nil => exact h'
  | cons hs =>
      cases h' with
      | cons hs' => exact .cons fun n hn => (hs' n hn).elim (hs n) .inr

theorem Adds.imp {new' : String → Prop} (himp : ∀ n, new n → new' n) {σ σ' : Scopes}
    (h : Adds new σ σ') : Adds new' σ σ' := by
  cases h with
  | nil => exact .nil
  | cons hs => exact .cons fun n hn => (hs n hn).imp_right (himp n)

/-- Where a name that is there comes from. -/
theorem Adds.at {σ σ' : Scopes} (h : Adds new σ σ') {k : Nat} {full : StaticScope}
    (hk : σ'[k]? = some full) : ∃ scope, σ[k]? = some scope ∧
      ∀ n, Table.has full n = true → Table.has scope n = true ∨ k = 0 ∧ new n := by
  cases h with
  | nil => cases hk
  | @cons scope full' outer hs =>
      cases k with
      | zero =>
          cases hk
          exact ⟨scope, rfl, fun n hn => (hs n hn).imp_right (⟨rfl, ·⟩)⟩
      | succ k => exact ⟨full, hk, fun _ => .inl⟩

theorem has_set (scope : StaticScope) (n m : String) (b : Binding) :
    Table.has (scope.set n b) m = (decide (m = n) || Table.has scope m) := by
  unfold Table.has
  rw [Table.get?_set]
  split
  · simp_all
  · simp_all

theorem adds_mark (σ : Scopes) (n : String) (b : Binding) : Adds (· = n) σ (σ.mark n b) := by
  cases σ with
  | nil => exact .nil
  | cons scope outer =>
      refine .cons fun m hm => ?_
      rw [has_set, Bool.or_eq_true, decide_eq_true_eq] at hm
      exact hm.symm

theorem adds_declare (σ : Scopes) (n : String) (a : Bool) : Adds (· = n) σ (σ.declare n a) := by
  unfold declare
  split
  · exact .refl σ
  · exact adds_mark σ n _

theorem adds_define (σ : Scopes) (n : String) : Adds (· = n) σ (σ.define n) := by
  unfold define
  split
  · exact adds_mark σ n _
  · exact .refl σ

theorem adds_introduce (σ : Scopes) (n : String) (a : Bool) :
    Adds (· = n) σ (σ.introduce n a) :=
  (adds_declare σ n a).trans (adds_define _ n)

theorem adds_withParams (σ : Scopes) (ps : List Token) :
    Adds (fun n => ∃ p ∈ ps, p.lexeme = n) σ (σ.withParams ps).1 := by
  induction ps generalizing σ with
  | nil => exact .refl σ
  | cons p ps ih =>
      refine Adds.trans ?_ ((ih _).imp fun n ⟨q, hq, hn⟩ => ⟨q, List.mem_cons_of_mem p hq, hn⟩)
      refine (adds_introduce σ p.lexeme true).imp ?_
      rintro n rfl
      exact ⟨p, List.mem_cons_self, rfl⟩

/-! ## A name that is there -/

theorem isSome_here?_of_grows {σ σ' : Scopes} (h : σ.Grows σ') {n : String}
    (hn : (σ.here? n).isSome = true) : (σ'.here? n).isSome = true := by
  cases h with
  | nil => exact hn
  | cons hs =>
      obtain ⟨b, hb⟩ := Option.isSome_iff_exists.mp hn
      obtain ⟨b', hb', -⟩ := hs n b hb
      exact Option.isSome_iff_exists.mpr ⟨b', hb'⟩

theorem isSome_here?_declare {σ : Scopes} (h : σ ≠ []) (n : String) (a : Bool) :
    ((σ.declare n a).here? n).isSome = true := by
  unfold declare
  split
  · assumption
  · rw [here?_mark h]
    rfl

theorem isSome_here?_introduce {σ : Scopes} (h : σ ≠ []) (n : String) (a : Bool) :
    ((σ.introduce n a).here? n).isSome = true :=
  isSome_here?_of_grows (grows_define _ n) (isSome_here?_declare h n a)

theorem introduce_ne_nil {σ : Scopes} (h : σ ≠ []) (n : String) (a : Bool) :
    σ.introduce n a ≠ [] := by
  intro hnil
  have := (grows_introduce σ n a).length
  rw [hnil] at this
  exact h (List.length_eq_zero_iff.mp this.symm)

/-- A parameter is there. -/
theorem isSome_here?_withParams {σ : Scopes} (h : σ ≠ []) {ps : List Token} {p : Token}
    (hp : p ∈ ps) : ((σ.withParams ps).1.here? p.lexeme).isSome = true := by
  induction ps generalizing σ with
  | nil => cases hp
  | cons q ps ih =>
      rcases List.mem_cons.mp hp with rfl | hp
      · exact isSome_here?_of_grows (grows_withParams _ ps) (isSome_here?_introduce h p.lexeme true)
      · exact ih (introduce_ne_nil h q.lexeme true) hp

/-- Parameters without a violation are in none of the scope and all different. -/
theorem distinct_of_withParams {σ : Scopes} (h : σ ≠ []) {ps : List Token}
    (herrors : (σ.withParams ps).2.errors = []) :
    (∀ p ∈ ps, σ.here? p.lexeme = none) ∧ (ps.map Token.lexeme).Nodup := by
  induction ps generalizing σ with
  | nil => exact ⟨nofun, List.nodup_nil⟩
  | cons p ps ih =>
      simp only [withParams, Findings.errors_append, List.append_eq_nil_iff] at herrors
      have hp : σ.here? p.lexeme = none :=
        Option.not_isSome_iff_eq_none.mp (Bool.eq_false_iff.mp (Findings.errors_when herrors.1))
      obtain ⟨hnone, hnodup⟩ := ih (introduce_ne_nil h p.lexeme true) herrors.2
      have hmore : ∀ q ∈ ps, σ.here? q.lexeme = none ∧ q.lexeme ≠ p.lexeme := by
        intro q hq
        have hq' := hnone q hq
        refine ⟨?_, fun heq => ?_⟩
        · rw [← Option.not_isSome_iff_eq_none] at hq' ⊢
          exact fun hsome => hq' (isSome_here?_of_grows (grows_introduce ..) hsome)
        · rw [heq, ← Option.not_isSome_iff_eq_none] at hq'
          exact hq' (isSome_here?_introduce h p.lexeme true)
      refine ⟨List.forall_mem_cons.mpr ⟨hp, fun q hq => (hmore q hq).1⟩, ?_⟩
      refine List.nodup_cons.mpr ⟨fun hmem => ?_, hnodup⟩
      obtain ⟨q, hq, heq⟩ := List.mem_map.mp hmem
      exact (hmore q hq).2 heq

end Scopes

/-! ## Statements -/

/-- The statement adds the name `n` to the scope that it stands in. -/
def Stmt.Declares (st : Stmt) (n : String) : Prop := ∃ x, st.declares = some x ∧ x.lexeme = n

namespace Resolve

theorem adds_of_declares {st : Stmt} {x : Token} {σ σ' : Scopes} (hx : st.declares = some x)
    (h : σ.Adds (· = x.lexeme) σ') : σ.Adds st.Declares σ' :=
  h.imp fun _ hn => ⟨x, hx, hn.symm⟩

theorem adds_of_none {st : Stmt} {new : String → Prop} {σ σ' : Scopes}
    (hx : st.declares = none) (h : σ.Adds st.Declares σ') : σ.Adds new σ' :=
  h.imp fun _ ⟨_, hsome, _⟩ => nomatch hx.symm.trans hsome

/-- A statement adds no name but the one that it declares. -/
theorem adds_stmt {st : Stmt} (h : WordedStmt st) (s : Surroundings) (σ : Scopes) :
    σ.Adds st.Declares (stmt s σ st).2.1 := by
  match st, h with
  | _, .print _ | _, .expression _ | _, .block _ | _, .returnWith _ | _, .breakLoop
  | _, .continueLoop => exact .refl σ
  | .varDecl name _, .varDecl _ _ | .letDecl name _, .letDecl _ _ =>
      exact adds_of_declares rfl
        ((Scopes.adds_declare σ name.lexeme _).trans (Scopes.adds_define _ name.lexeme))
  | .moduleDecl name _, .moduleDecl _ _ =>
      exact adds_of_declares rfl (Scopes.adds_introduce σ name.lexeme false)
  | .classDecl name e _, .classDecl _ _ _ =>
      cases e <;> exact adds_of_declares rfl (Scopes.adds_introduce σ name.lexeme true)
  | .functionDecl d, .functionDecl _ =>
      cases hd : d.name with
      | none =>
          simp only [stmt, hd]
          exact .refl σ
      | some name =>
          simp only [stmt, hd]
          exact adds_of_declares hd (Scopes.adds_introduce σ name.lexeme true)
  | .whileLoop _ _ _, .whileLoop _ hbody hnone _ =>
      exact adds_of_none hnone (adds_stmt hbody _ σ)
  | .branch _ _ none, .branch _ htrue hnone _ _ => exact adds_of_none hnone (adds_stmt htrue s σ)
  | .branch _ onTrue (some _), .branch _ htrue hnone hfalse hnone' =>
      exact (adds_of_none hnone (adds_stmt htrue s σ)).trans
        (adds_of_none (hnone' _ rfl) (adds_stmt (hfalse _ rfl) s (stmt s σ onTrue).2.1))

end Resolve

namespace Context

theorem adds_after {c : Context} {st : Stmt} (h : WordedStmt st) :
    c.scopes.Adds st.Declares (c.after st).scopes :=
  Resolve.adds_stmt h c.surroundings c.scopes

/-- The name that a statement declares is there afterwards. -/
theorem here?_after {c : Context} (hc : c.scopes ≠ []) {st : Stmt} {x : Token}
    (hx : st.declares = some x) : ((c.after st).scopes.here? x.lexeme).isSome = true := by
  cases st with
  | varDecl name e | letDecl name e =>
      cases hx
      exact Scopes.isSome_here?_introduce hc x.lexeme _
  | moduleDecl name body =>
      cases hx
      exact Scopes.isSome_here?_introduce hc x.lexeme _
  | classDecl name e ms =>
      cases hx
      cases e <;> exact Scopes.isSome_here?_introduce hc x.lexeme _
  | functionDecl d =>
      replace hx : d.name = some x := hx
      simp only [after, withScopes, Resolve.stmt, hx]
      exact Scopes.isSome_here?_introduce hc x.lexeme _
  | _ => cases hx

/-- Without a violation it was not there before. -/
theorem here?_of_declares {c : Context} {st : Stmt} {x : Token} (hx : st.declares = some x)
    (herrors : Visit.errors ⟨c, .stmt st⟩ = []) : c.scopes.here? x.lexeme = none := by
  have hnone : (c.scopes.redeclared x).errors = [] → c.scopes.here? x.lexeme = none :=
    fun h => Option.not_isSome_iff_eq_none.mp (Bool.eq_false_iff.mp (Findings.errors_when h))
  cases st with
  | varDecl name e | letDecl name e =>
      cases hx
      simp only [Visit.errors, Resolve.stmt, Findings.errors_append,
        List.append_eq_nil_iff] at herrors
      exact hnone herrors.1
  | moduleDecl name body =>
      cases hx
      simp only [Visit.errors, Resolve.stmt, Findings.errors_append,
        List.append_eq_nil_iff] at herrors
      exact hnone herrors.2
  | classDecl name e ms =>
      cases hx
      cases e with
      | none =>
          simp only [Visit.errors, Resolve.stmt, Findings.errors_append,
            List.append_eq_nil_iff] at herrors
          exact hnone herrors.1
      | some e =>
          simp only [Visit.errors, Resolve.stmt, Findings.errors_append,
            List.append_eq_nil_iff] at herrors
          exact hnone herrors.1.1.1
  | functionDecl d =>
      replace hx : d.name = some x := hx
      simp only [Visit.errors, Resolve.stmt, hx, Findings.errors_append,
        List.append_eq_nil_iff] at herrors
      exact hnone herrors.1
  | _ => cases hx

end Context

end Lox
