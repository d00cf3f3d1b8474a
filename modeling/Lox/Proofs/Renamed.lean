/-
# Renaming a local is invisible

A program that the resolver accepts, with a variable, a constant or a parameter of a block
or a function renamed: the declaration and all that the resolver finds at the depth that
leads to it.  If the new word stands nowhere in the text as an identifier, the resolver
accepts the renamed program too and sets the same depths, and every run of it ends like
one of the program, with the same output and the same globals.

    renaming     what leads to the scope, and nothing else    `Renaming.Binding`
    resolving    the resolved programs differ by the name     `Renaming.Resolve`
    running      what differs so moves alike                  `Renaming.Step`

Uses of the old name that lead elsewhere, to another scope or to the globals, stay as
they are: had one been renamed, or one of the scope been missed, its depth would be
another one.
-/
import Lox.Proofs.Renaming.Place
import Lox.Proofs.Renaming.Reached
import Lox.Proofs.Renaming.Resolve

namespace Lox

/-- What the resolver makes of the renamed program is the resolved program renamed, with
as much found; the two belong together. -/
theorem resolve_renamed {ρ : Renaming} {source : String} {body : List Stmt}
    (hread : (Session.read source).2 = .ok body) (haccepted : Accepted body)
    (hnew : Unmentioned ρ.new source) (way : List Nat) :
    Resolve.program (ρ.program way body) =
      (ρ.stmts id (.below way) (Resolve.program body).1, (Resolve.program body).2) ∧
    RenamedStmts ρ none (Resolve.program body).1
      (ρ.stmts id (.below way) (Resolve.program body).1) := by
  have hscopes : RenamedScopes ρ none [[]] [[]] := .cons rfl .nil .nil
  obtain ⟨σ, heq, -, h⟩ := renamed_stmts .program (a := .below way) rfl hscopes body
    (WasRead.worded ⟨source, hread⟩) (unused_of_read hread hnew) (fun _ _ => nofun) haccepted
  refine ⟨?_, h⟩
  unfold Renaming.program
  simp only [Resolve.program, heq]

/-- Renaming a local is invisible.  The way leads to the block or the function that
declares it. -/
theorem renaming_is_invisible {ρ : Renaming} {sources : List String} {s : State}
    (hreached : Session.Reached sources s) {source : String} {body : List Stmt}
    (hread : (Session.read source).2 = .ok body) (haccepted : Accepted body)
    (hnew : Unmentioned ρ.new source) (way : List Nat) :
    Accepted (ρ.program way body) ∧
    (∀ p, depthAt [(Resolve.program (ρ.program way body)).1] p =
      depthAt [(Resolve.program body).1] p) ∧
    ∀ moves, RenamedEnding ρ (State.interpret moves (Resolve.program body).1 s)
      (State.interpret moves (Resolve.program (ρ.program way body)).1 s) := by
  obtain ⟨heq, hprograms⟩ := resolve_renamed hread haccepted hnew way
  obtain ⟨B, hs⟩ := hreached.renamed ρ
  rw [Accepted, heq]
  exact ⟨haccepted, depthAt_renamed ρ (.below way) _, State.renamed_interpret hs hprograms⟩

/-! ### One text -/

/-- The program of `for (var a = "x"; a; a = nil) print a; print a;`, written with
another word for the name of the loop. -/
def looping (n : String) : List Stmt :=
  let name (column : Nat) : Token := ⟨.identifier, n, ⟨1, column⟩⟩
  [.block [.varDecl (name 10) (some (.literal (.string "x"))),
      .whileLoop (.variable (name 19) none) (.print (.variable (name 37) none))
        (some (.assign (name 22) (.literal .nil) none))],
    .print (.variable (Session.nameAt "a" 46) none)]

theorem read_looping :
    (Session.read "for (var a = \"x\"; a; a = nil) print a; print a;").2 = .ok (looping "a") := by
  with_unfolding_all rfl

theorem unmentioned_looping :
    Unmentioned "b" "for (var a = \"x\"; a; a = nil) print a; print a;" := by
  have hwords : (Token.scan "for (var a = \"x\"; a; a = nil) print a; print a;").toOption.map
      (·.map Token.lexeme) = some ["for", "(", "var", "a", "=", "x", ";", "a", ";", "a", "=",
        "nil", ")", "print", "a", ";", "print", "a", ";", ""] := by
    decide +kernel
  intro tokens hscan t ht _ heq
  rw [hscan] at hwords
  have hmem : "b" ∈ tokens.map Token.lexeme := heq ▸ List.mem_map_of_mem ht
  rw [show tokens.map Token.lexeme = _ from Option.some.inj hwords] at hmem
  revert hmem
  decide

/-- Another word for `a`. -/
def Renaming.ofA : Renaming := ⟨"a", "b", by decide, by decide⟩

/-- The variable of the loop is renamed, and the `a` behind the loop is not. -/
theorem program_looping : Renaming.ofA.program [1] (looping "a") = looping "b" :=
  rfl

/-- The variable of a loop gets another name.  Behind the loop its old name is not
defined, before and after. -/
theorem renaming_is_invisible_looping :
    Accepted (looping "a") ∧ Unmentioned Renaming.ofA.new
      "for (var a = \"x\"; a; a = nil) print a; print a;" ∧
    Accepted (looping "b") ∧
    (∀ p, depthAt [(Resolve.program (looping "b")).1] p =
      depthAt [(Resolve.program (looping "a")).1] p) ∧
    ∀ moves, RenamedEnding Renaming.ofA
      (State.interpret moves (Resolve.program (looping "a")).1 (.initial none 0))
      (State.interpret moves (Resolve.program (looping "b")).1 (.initial none 0)) := by
  have haccepted : Accepted (looping "a") := rfl
  have hnew : Unmentioned Renaming.ofA.new
      "for (var a = \"x\"; a; a = nil) print a; print a;" := unmentioned_looping
  refine ⟨haccepted, hnew, ?_⟩
  have h := renaming_is_invisible (.first none 0) read_looping haccepted hnew [1]
  rwa [program_looping] at h

end Lox
