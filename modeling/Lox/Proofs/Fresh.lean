/-
# Programs come without depths

A program that was read from a text has no depths: reading leaves them to the
resolver.  So whatever the resolver visits in it is fresh.
-/
import Lox.Proofs.Parse
import Lox.Proofs.Scan
import Lox.Proofs.Visit
import Lox.Session

namespace Lox

/-- The likeness of programs without depths. -/
def Likeness.bare : Likeness where
  token t t' := t' = t ∧ (t.kind = .kwSuper → t.lexeme = "super")
  name _ _ := True
  depth _ d _ := d = none

theorem ofTexts_bare : Likeness.bare.OfTexts where
  kind h := congrArg Token.kind h.1
  lexeme h := congrArg Token.lexeme h.1
  name _ _ := trivial
  super h := h.2
  depth _ := rfl

/-- What is visited is part of a program without depths. -/
def Visit.Bare (v : Visit) : Prop :=
  match v.node with
  | .text body => ∃ m body', LikeStmts .bare m body body'
  | .expr e => ∃ m e', LikeExpr .bare m e e'
  | .stmt st => ∃ m st', LikeStmt .bare m st st'
  | .function _ d => ∃ m d', LikeDecl .bare m d d'

namespace Visit

theorem Bare.fresh {v : Visit} (h : v.Bare) : v.Fresh := by
  obtain ⟨c, node⟩ := v
  cases node with
  | text | stmt | function => trivial
  | expr e =>
      obtain ⟨m, e', he⟩ := h
      cases he with
      | «variable» _ hd | assign _ _ hd | receiver _ hd | superMethod _ _ _ hd => exact hd
      | _ => trivial

theorem bare_operand {c : Context} {es : List Expr} {i : Nat} {w : Visit}
    (h : operand c es i = some w) {m : Option Nat} {es' : List Expr}
    (hes : LikeExprs .bare m es es') : w.Bare := by
  induction es generalizing es' with
  | nil => cases h
  | cons e es ih =>
      cases hes with
      | cons he hes =>
          simp only [operand] at h
          split at h
          · cases h
            exact ⟨m, _, he⟩
          · exact ih h hes

theorem bare_method {c : Context} {ds : List FunctionDecl} {i : Nat} {w : Visit}
    (h : method c ds i = some w) {m : Option Nat} {ds' : List FunctionDecl}
    (hds : LikeDecls .bare m ds ds') : w.Bare := by
  induction ds generalizing ds' with
  | nil => cases h
  | cons d ds ih =>
      cases hds with
      | cons hd hds =>
          simp only [method] at h
          split at h
          · cases h
            exact ⟨m, _, hd⟩
          · exact ih h hds

theorem bare_statement {c : Context} {sts : List Stmt} {i : Nat} {w : Visit}
    (h : statement c sts i = some w) {m : Option Nat} {sts' : List Stmt}
    (hsts : LikeStmts .bare m sts sts') : w.Bare := by
  induction sts generalizing c sts' with
  | nil => cases h
  | cons st sts ih =>
      cases hsts with
      | cons hst hsts =>
          simp only [statement] at h
          split at h
          · cases h
            exact ⟨m, _, hst⟩
          · exact ih h hsts

theorem bare_optionExpr {e : Option Expr} {c : Context} {w : Visit}
    (h : e.map (⟨c, .expr ·⟩) = some w) {m : Option Nat} {e' : Option Expr}
    (he : LikeOptionExpr .bare m e e') : w.Bare := by
  cases he with
  | none => cases h
  | some he =>
      cases h
      exact ⟨m, _, he⟩

theorem bare_ofExpr {p : Place} {c : Context} {e : Expr} {i : Nat} {w : Visit}
    (h : ofExpr p c e i = some w) (he : Bare ⟨c, .expr e⟩) : w.Bare := by
  obtain ⟨m, e', he⟩ := he
  cases exprChild_of_ofExpr h with
  | argument h =>
      cases he with
      | call _ _ hes => exact bare_operand h hes
  | element h =>
      cases he with
      | array _ _ hes => exact bare_operand h hes
  | size =>
      cases he with
      | array _ hsize _ => exact bare_optionExpr rfl hsize
  | _ =>
      cases he
      exact ⟨_, _, by assumption⟩

theorem bare_ofStmt {p : Place} {c : Context} {st : Stmt} {i : Nat} {w : Visit}
    (h : ofStmt p c st i = some w) (hst : Bare ⟨c, .stmt st⟩) : w.Bare := by
  obtain ⟨m, st', hst⟩ := hst
  cases stmtChild_of_ofStmt h with
  | varInitializer =>
      cases hst with
      | varDecl _ he => exact bare_optionExpr rfl he
  | block h =>
      cases hst with
      | block hbody => exact bare_statement h hbody
  | onFalse =>
      cases hst with
      | branch _ _ hb =>
          cases hb with
          | some hb => exact ⟨m, _, hb⟩
  | loopStep =>
      cases hst with
      | whileLoop _ _ hs => exact bare_optionExpr rfl hs
  | superclass =>
      cases hst with
      | classDecl _ he _ => exact bare_optionExpr rfl he
  | method h =>
      cases hst with
      | classDecl _ _ hms => exact bare_method h hms
  | returned =>
      cases hst with
      | returnWith _ he => exact bare_optionExpr rfl he
  | member h =>
      cases hst with
      | moduleDecl _ hbody => exact bare_statement h hbody
  | _ =>
      cases hst
      exact ⟨_, _, by assumption⟩

/-- A child is part of the same program. -/
theorem bare_child {p : Place} {v w : Visit} {i : Nat} (h : v.child p i = some w)
    (hv : v.Bare) : w.Bare := by
  obtain ⟨c, node⟩ := v
  cases node with
  | text body =>
      obtain ⟨m, body', hbody⟩ := hv
      exact bare_statement h hbody
  | expr e => exact bare_ofExpr h hv
  | stmt st => exact bare_ofStmt h hv
  | function kind d =>
      obtain ⟨m, d', hd⟩ := hv
      cases hd with
      | mk _ _ _ hbody => exact bare_statement h hbody

end Visit

/-- The program was read from a text. -/
def WasRead (body : List Stmt) : Prop := ∃ source, (Session.read source).2 = .ok body

theorem bare_parse {tokens : List Token} {body : List Stmt}
    (htokens : ∀ t ∈ tokens, t.kind = .kwSuper → t.lexeme = "super")
    (h : parse tokens = .ok body) : ∃ m body', LikeStmts .bare m body body' := by
  have htake : ∀ t ∈ tokens.takeWhile (·.kind ≠ .eof), Likeness.bare.token t t :=
    fun t ht => ⟨rfl, htokens t ((List.takeWhile_sublist _).mem ht)⟩
  unfold parse at h
  rw [List.span_eq_takeWhile_dropWhile] at h
  dsimp only at h
  generalize tokens.takeWhile (·.kind ≠ .eof) = ts at h htake
  generalize tokens.dropWhile (·.kind ≠ .eof) = rest at h
  split at h
  · rename_i hnoted
    cases h
    have hsame : List.Forall₂ Likeness.bare.token ts ts := List.forall₂_same.mpr htake
    obtain ⟨-, body', hbody, -⟩ := Parser.follows_program ofTexts_bare []
      (rest.headD ⟨.eof, "", .start⟩) (Nat.lt_succ_self ts.length)
      ⟨ts, hsame, (List.append_nil ts).symm⟩ rfl hnoted
    exact ⟨none, body', hbody none⟩
  · cases h

theorem WasRead.bare {body : List Stmt} (h : WasRead body) :
    ∃ m body', LikeStmts .bare m body body' := by
  obtain ⟨source, h⟩ := h
  unfold Session.read at h
  split at h
  · cases h
  · rename_i tokens hscan
    split at h
    · cases h
    · rename_i hparse
      cases h
      refine bare_parse (fun t ht => ?_) hparse
      obtain ⟨-, rfl⟩ := Token.scan_eq_ok hscan
      rcases List.mem_append.mp ht with ht | ht
      · exact fun hk => (Segment.written_ofChars ht).keyword "super" (hk ▸ by decide)
      · cases List.mem_singleton.mp ht
        exact nofun

/-- Whatever is visited in programs that were read has no depth. -/
theorem visitAt_fresh {texts : List (List Stmt)} (hread : ∀ body ∈ texts, WasRead body)
    {p : Place} {v : Visit} (h : visitAt texts p = some v) : v.Fresh :=
  Visit.Bare.fresh (visitAt_induct (P := Visit.Bare) (fun body hb => (hread body hb).bare)
    (fun _ _ _ _ _ hv hw => Visit.bare_child hw hv) h)

end Lox
