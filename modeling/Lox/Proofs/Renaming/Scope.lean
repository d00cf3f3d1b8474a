/-
# Scopes with a renamed one

The scopes of the resolver in a program and in the renamed program: the renamed scope
holds other words, under the same marks, and the others hold the same names.  None holds
the new word in the first program.  So a name is found at the same distance under the
word that it has in the renamed program, which is another one exactly if the distance
leads to the renamed scope (`RenamedScopes.find?`).

Without a violation the names of one scope are all different.  So where a variable, a
constant or a parameter is renamed, nothing else has the old name: `Renaming.Sole`.
-/
import Lox.Proofs.Described
import Lox.Proofs.Renaming.Store
import Mathlib.Data.List.Nodup

namespace Lox

/-- Scopes, and those in which the one so many scopes out is renamed, if it is there. -/
inductive RenamedScopes (ρ : Renaming) : Option Nat → Scopes → Scopes → Prop
  | nil {k} : RenamedScopes ρ k [] []
  | cons {k scope scope' σ σ'} : scope.get? ρ.new = none →
      RenamedTable ρ (k = some 0) Eq scope scope' → RenamedScopes ρ (outer k) σ σ' →
      RenamedScopes ρ k (scope :: σ) (scope' :: σ')

/-! ## Tables -/

namespace RenamedTable

variable {ρ : Renaming} {here : Prop} {α : Type} {t t' : Table α} {n n' : String}

theorem get?_eq (h : RenamedTable ρ here Eq t t') (hn : ρ.Words here n n') :
    t'.get? n' = t.get? n := by
  have hrel := h.get? hn
  revert hrel
  generalize t.get? n = o, t'.get? n' = o'
  rintro (rfl | _) <;> rfl

/-- A name that is missing is missing, but perhaps the new one. -/
theorem get?_none {P : α → α → Prop} (h : RenamedTable ρ here P t t') (hnone : t.get? n = none)
    (hn : n ≠ ρ.new) : t'.get? n = none := by
  induction h with
  | nil => rfl
  | @cons x x' _ _ hx _ ih =>
      simp only [Table.get?] at hnone ⊢
      split at hnone
      · cases hnone
      · rename_i hne
        have hne' : x'.1 ≠ n := by
          by_cases hh : here
          · rw [(hx.1.renamed hh).1]
            unfold Renaming.word
            split
            · exact hn.symm
            · exact hne
          · rw [hx.1.kept hh]
            exact hne
        rw [if_neg hne', ih hnone]

theorem refl (hh : ¬ here) (t : Table α) : RenamedTable ρ here Eq t t :=
  List.forall₂_same.mpr fun x _ => ⟨.of_not hh x.1, rfl⟩

end RenamedTable

/-! ## Scopes -/

namespace RenamedScopes

variable {ρ : Renaming} {k : Option Nat} {σ σ' : Scopes} {n n' : String}

/-- A scope further inside that is no renamed one. -/
theorem push (h : RenamedScopes ρ k σ σ') (scope : StaticScope)
    (hscope : scope.get? ρ.new = none) :
    RenamedScopes ρ (inner k) (scope :: σ) (scope :: σ') :=
  .cons hscope (.refl (inner_ne_zero k) scope) (by rwa [outer_inner])

/-- A scope further inside that may be the renamed one. -/
theorem enter {i : Option Nat} (h : RenamedScopes ρ k σ σ') (hi : outer i = k) :
    RenamedScopes ρ i ([] :: σ) ([] :: σ') :=
  .cons rfl .nil (hi ▸ h)

/-- What the distance of a name says: the word for it, where the name is and where it
is not. -/
theorem used_cons {scope scope' : StaticScope} (habsent : scope.get? ρ.new = none)
    (htable : RenamedTable ρ (k = some 0) Eq scope scope') (hnew : n ≠ ρ.new)
    (hn : ρ.Words (Renaming.Reaches k ((Scopes.find? (scope :: σ) n).map (·.1))) n n') :
    scope'.get? n' = scope.get? n ∧ (scope.get? n = none →
      ρ.Words (Renaming.Reaches (outer k) ((σ.find? n).map (·.1))) n n') := by
  cases hb : scope.get? n with
  | some b =>
      have hzero : Renaming.Reaches k ((Scopes.find? (scope :: σ) n).map (·.1)) ↔ k = some 0 := by
        simp [Scopes.find?, hb, Renaming.Reaches, eq_comm]
      rw [propext hzero] at hn
      exact ⟨(htable.get?_eq hn).trans hb, fun h => by cases h⟩
  | none =>
      have hmore : Renaming.Reaches k ((Scopes.find? (scope :: σ) n).map (·.1)) ↔
          Renaming.Reaches (outer k) ((σ.find? n).map (·.1)) := by
        rcases k with _ | _ | k <;> cases hf : σ.find? n <;>
          simp [Scopes.find?, hb, hf, Renaming.Reaches, outer]
      rw [propext hmore] at hn
      refine ⟨?_, fun _ => hn⟩
      by_cases hh : Renaming.Reaches (outer k) ((σ.find? n).map (·.1))
      · -- the renamed scope is further outside, and the new word is not here
        have hk : k ≠ some 0 := by
          rintro rfl
          obtain ⟨hsome, hnone⟩ := hh
          rw [hnone] at hsome
          cases hsome
        have hword : scope.get? n' = none := by
          rw [(hn.renamed hh).1]
          unfold Renaming.word
          split
          · exact habsent
          · exact hb
        exact (htable.get?_eq (.of_not hk n')).trans hword
      · rw [hn.kept hh]
        exact htable.get?_none hb hnew

/-- A name is found where it was, under the word that it has. -/
theorem find? (h : RenamedScopes ρ k σ σ') (hnew : n ≠ ρ.new)
    (hn : ρ.Words (Renaming.Reaches k ((σ.find? n).map (·.1))) n n') :
    σ'.find? n' = σ.find? n := by
  induction h with
  | nil => rfl
  | cons habsent htable _ ih =>
      obtain ⟨hhere, hout⟩ := used_cons habsent htable hnew hn
      simp only [Scopes.find?, hhere]
      split
      · rfl
      · rw [ih (hout ‹_›)]

/-! ### Declarations -/

/-- What the innermost scope says of a name that is declared. -/
theorem here? (h : RenamedScopes ρ k σ σ') (hn : ρ.Words (k = some 0) n n') :
    σ'.here? n' = σ.here? n := by
  cases h with
  | nil => rfl
  | cons _ htable _ => exact htable.get?_eq hn

theorem mark (h : RenamedScopes ρ k σ σ') (hnew : n ≠ ρ.new) (hn : ρ.Words (k = some 0) n n')
    (b : Binding) : RenamedScopes ρ k (σ.mark n b) (σ'.mark n' b) := by
  cases h with
  | nil => exact .nil
  | cons habsent htable houter =>
      exact .cons ((Table.get?_set_of_ne _ b hnew.symm).trans habsent) (htable.set hn rfl) houter

theorem declare (h : RenamedScopes ρ k σ σ') (hnew : n ≠ ρ.new)
    (hn : ρ.Words (k = some 0) n n') (assignable : Bool) :
    RenamedScopes ρ k (σ.declare n assignable) (σ'.declare n' assignable) := by
  unfold Scopes.declare
  rw [h.here? hn]
  split
  · exact h
  · exact h.mark hnew hn _

theorem define (h : RenamedScopes ρ k σ σ') (hnew : n ≠ ρ.new) (hn : ρ.Words (k = some 0) n n') :
    RenamedScopes ρ k (σ.define n) (σ'.define n') := by
  unfold Scopes.define
  rw [h.here? hn]
  split
  · exact h.mark hnew hn _
  · exact h

theorem introduce (h : RenamedScopes ρ k σ σ') (hnew : n ≠ ρ.new)
    (hn : ρ.Words (k = some 0) n n') (assignable : Bool) :
    RenamedScopes ρ k (σ.introduce n assignable) (σ'.introduce n' assignable) :=
  (h.declare hnew hn assignable).define hnew hn

/-- What is no redeclaration stays none. -/
theorem redeclared (h : RenamedScopes ρ k σ σ') {x x' : Token} (hx : ρ.Names (k = some 0) x x')
    (herrors : (σ.redeclared x).errors = []) : σ'.redeclared x' = σ.redeclared x := by
  unfold Scopes.redeclared at herrors ⊢
  rw [h.here? hx.words, Findings.errors_when herrors]
  rfl

theorem withParams (h : RenamedScopes ρ k σ σ') {ps ps' : List Token}
    (hps : List.Forall₂ (ρ.Names (k = some 0)) ps ps') (hnew : ∀ p ∈ ps, p.lexeme ≠ ρ.new)
    (herrors : (σ.withParams ps).2.errors = []) :
    RenamedScopes ρ k (σ.withParams ps).1 (σ'.withParams ps').1 ∧
      (σ'.withParams ps').2 = (σ.withParams ps).2 := by
  induction hps generalizing σ σ' with
  | nil => exact ⟨h, rfl⟩
  | cons hp _ ih =>
      simp only [Scopes.withParams, Findings.errors_append, List.append_eq_nil_iff] at herrors ⊢
      obtain ⟨hp', hps'⟩ := List.forall_mem_cons.mp hnew
      obtain ⟨hscopes, hfound⟩ := ih (h.introduce hp' hp.words true) hps' herrors.2
      rw [hfound, h.redeclared hp herrors.1]
      exact ⟨hscopes, rfl⟩

/-! ### Uses -/

/-- The depth of a use is the distance of its name. -/
theorem refer_fst (σ : Scopes) (x : Token) (a : Bool) :
    (σ.refer x none a).1 = (σ.find? x.lexeme).map (·.1) := by
  unfold Scopes.refer
  cases σ.find? x.lexeme <;> rfl

/-- A use gets the depth that it had. -/
theorem refer (h : RenamedScopes ρ k σ σ') {x x' : Token} {a : Bool} (hnew : x.lexeme ≠ ρ.new)
    (hx : ρ.Names (Renaming.Reaches k (σ.refer x none a).1) x x')
    (herrors : (σ.refer x none a).2.errors = []) : σ'.refer x' none a = σ.refer x none a := by
  rw [refer_fst] at hx
  unfold Scopes.refer at herrors ⊢
  rw [h.find? hnew hx.words]
  split
  · rename_i hfind
    rw [hfind] at herrors
    rw [Findings.errors_when herrors]
    rfl
  · rfl

/-- What the innermost scope says of a name that is used. -/
theorem here?_refer (h : RenamedScopes ρ k σ σ') {x x' : Token} {a : Bool}
    (hnew : x.lexeme ≠ ρ.new) (hx : ρ.Names (Renaming.Reaches k (σ.refer x none a).1) x x') :
    σ'.here? x'.lexeme = σ.here? x.lexeme := by
  rw [refer_fst] at hx
  cases h with
  | nil => rfl
  | cons habsent htable _ => exact (used_cons habsent htable hnew hx.words).1

end RenamedScopes

/-! ## Declarations of one scope -/

/-- Without a violation statements declare names that are all different, and none that
the scope holds. -/
theorem distinct_of_stmts {s : Surroundings} {σ : Scopes} (hσ : σ ≠ []) {body : List Stmt}
    (h : (Resolve.stmts s σ body).2.2.errors = []) :
    (∀ d ∈ body.filterMap Stmt.declaration?, σ.here? d.name.lexeme = none) ∧
      ((body.filterMap Stmt.declaration?).map (·.name.lexeme)).Nodup := by
  induction body generalizing σ with
  | nil => exact ⟨nofun, List.nodup_nil⟩
  | cons st body ih =>
      simp only [Resolve.stmts, Findings.errors_append, List.append_eq_nil_iff] at h
      have hgrows := Resolve.grows_stmt s σ st
      have hσ₁ : (Resolve.stmt s σ st).2.1 ≠ [] := fun hnil =>
        hσ (List.length_eq_zero_iff.mp (hgrows.length.symm.trans (hnil ▸ rfl)))
      obtain ⟨hnone, hnodup⟩ := ih hσ₁ h.2
      have hbefore : ∀ n, (Resolve.stmt s σ st).2.1.here? n = none → σ.here? n = none := by
        intro n hn
        rw [← Option.not_isSome_iff_eq_none] at hn ⊢
        exact fun hsome => hn (Scopes.isSome_here?_of_grows hgrows hsome)
      cases hd : st.declaration? with
      | none =>
          rw [List.filterMap_cons_none hd]
          exact ⟨fun d hmem => hbefore _ (hnone d hmem), hnodup⟩
      | some d =>
          have hdeclares : st.declares = some d.name := by rw [st.declares_eq, hd, Option.map_some]
          have hfirst : σ.here? d.name.lexeme = none :=
            Context.here?_of_declares (c := ⟨s, [], σ⟩) hdeclares h.1
          have hthere : ((Resolve.stmt s σ st).2.1.here? d.name.lexeme).isSome = true :=
            Context.here?_after (c := ⟨s, [], σ⟩) hσ hdeclares
          rw [List.filterMap_cons_some hd, List.map_cons, List.nodup_cons]
          refine ⟨List.forall_mem_cons.mpr ⟨hfirst, fun e he => hbefore _ (hnone e he)⟩, ?_, hnodup⟩
          intro hmem
          obtain ⟨e, he, heq⟩ := List.mem_map.mp hmem
          rw [← heq, hnone e he] at hthere
          cases hthere

/-- So it is of a function and its parameters. -/
theorem distinct_of_function {s : Surroundings} {σ : Scopes} {ps : List Token} {body : List Stmt}
    (hps : (Scopes.withParams ([] :: σ) ps).2.errors = [])
    (hbody : (Resolve.stmts s (Scopes.withParams ([] :: σ) ps).1 body).2.2.errors = []) :
    ((ps.map (Declaration.mk · .parameter) ++ body.filterMap Stmt.declaration?).map
      (·.name.lexeme)).Nodup := by
  have hne : (Scopes.withParams ([] :: σ) ps).1 ≠ [] := by
    intro hnil
    have hlength := (Scopes.grows_withParams ([] :: σ) ps).length
    rw [hnil] at hlength
    cases hlength
  obtain ⟨hnone, hnodup⟩ := distinct_of_stmts hne hbody
  obtain ⟨-, hnodup'⟩ := Scopes.distinct_of_withParams (List.cons_ne_nil [] σ) hps
  rw [List.map_append, List.map_map, List.nodup_append]
  refine ⟨hnodup', hnodup, ?_⟩
  rintro n hn _ hm rfl
  obtain ⟨p, hp, rfl⟩ := List.mem_map.mp hn
  obtain ⟨d, hd, heq⟩ := List.mem_map.mp hm
  have hthere := Scopes.isSome_here?_withParams (List.cons_ne_nil [] σ) hp
  have hmissing := hnone d hd
  rw [heq] at hmissing
  exact Option.not_isSome_iff_eq_none.mpr hmissing hthere

/-- What the resolver makes of a statement declares the same. -/
theorem Resolve.declaration?_stmt (s : Surroundings) (σ : Scopes) (st : Stmt) :
    (stmt s σ st).1.declaration? = st.declaration? := by
  cases st with
  | functionDecl d =>
      have hname := name_function s .function (stmt s σ (.functionDecl d)).2.1 d
      exact congrArg (Option.map (Declaration.mk · .function)) hname
  | classDecl x e ms => cases e <;> rfl
  | _ => rfl

theorem Resolve.declarations_stmts (s : Surroundings) (σ : Scopes) (body : List Stmt) :
    (stmts s σ body).1.filterMap Stmt.declaration? = body.filterMap Stmt.declaration? := by
  induction body generalizing σ with
  | nil => rfl
  | cons st body ih =>
      simp only [stmts, List.filterMap_cons, declaration?_stmt, ih]

namespace Renaming

variable {ρ : Renaming} {k : Option Nat}

/-- In the renamed scope, what has the old name is renamed. -/
def Sole (ρ : Renaming) (k : Option Nat) (st : Stmt) : Prop :=
  k = some 0 → ∀ d ∈ st.declaration?, d.name.lexeme = ρ.old → ρ.concerns d = true

/-- A name that is not renamed is not the old one. -/
theorem Sole.names {st : Stmt} (h : ρ.Sole k st) {d : Declaration} (hd : st.declaration? = some d)
    (hform : ρ.concerns d = false) (hnew : d.name.lexeme ≠ ρ.new) :
    ρ.Names (k = some 0) d.name d.name := by
  refine ⟨fun hk => ⟨(token_of_ne fun hold => ?_).symm, hnew⟩, fun _ => rfl⟩
  rw [h hk d hd hold] at hform
  cases hform

theorem sole_of_none {st : Stmt} (h : st.declares = none) : ρ.Sole k st := by
  intro _ d hd
  rw [Stmt.declaration?_eq_none.mpr h] at hd
  cases hd

theorem names_declared {x : Token} (hnew : x.lexeme ≠ ρ.new) :
    ρ.Names (k = some 0) x (ρ.declared k x) :=
  ⟨fun hk => ⟨if_pos hk, hnew⟩, fun hk => if_neg hk⟩

theorem names_used {x : Token} (hnew : x.lexeme ≠ ρ.new) (d : Option Nat) :
    ρ.Names (Reaches k d) x (ρ.used k d x) :=
  ⟨fun hk => ⟨if_pos hk, hnew⟩, fun hk => if_neg hk⟩

theorem outer_enter (declared : List Declaration) (a : Aim) :
    outer (ρ.enter declared a).distance = a.distance := by
  match a with
  | .below [] =>
      rw [enter]
      split <;> rfl
  | .below (_ :: _) | .around _ | .elsewhere => rfl

/-- If a scope is the renamed one, something in it is renamed. -/
theorem concerns_of_enter {declared : List Declaration} {a : Aim}
    (h : (ρ.enter declared a).distance = some 0) : ∃ d ∈ declared, ρ.concerns d = true := by
  match a with
  | .below [] =>
      rw [enter] at h
      split at h
      · exact List.any_eq_true.mp ‹_›
      · cases h
  | .below (_ :: _) | .elsewhere => cases h
  | .around _ => cases h

/-- If the names of a scope are all different, what has the old name in the renamed scope
is renamed. -/
theorem sole_enter {declared : List Declaration}
    (hnodup : (declared.map (·.name.lexeme)).Nodup) {a : Aim} {st : Stmt}
    (hst : ∀ d ∈ st.declaration?, d ∈ declared) : ρ.Sole (ρ.enter declared a).distance st := by
  intro hk d hd hold
  obtain ⟨e, he, hconcerns⟩ := concerns_of_enter hk
  have hold' : e.name.lexeme = ρ.old := (of_decide_eq_true hconcerns).1
  have heq : d = e := List.inj_on_of_nodup_map hnodup (hst d hd) he (hold.trans hold'.symm)
  exact heq ▸ hconcerns

end Renaming

end Lox
