/-
# Names are found where the resolver found them

A name with a depth is looked up in the environment of the scope in which the resolver
found it.  The name is there, with one exception: the use stands inside the initializer
of the `var` or the `let` that declares it, or inside the superclass of its class, and
the declaration has not come to its end.  That is so wherever the use is run from, a
function that was made in another text included: `Session.reference_found`.
-/
import Lox.Proofs.Lexical
import Lox.Proofs.Ready.Step

namespace Lox

/-- What is at `p`, in the context `c`, is inside the initializer, or the superclass, of
the declaration that adds the name to the scope `d` steps outwards. -/
def InDeclaration (texts : List (List Stmt)) (p : Place) (c : Context) (name : Token)
    (d : Nat) : Prop :=
  ∃ q c' st x, (0 :: q) <:+ p ∧ visitAt texts q = some ⟨c', .stmt st⟩ ∧ st.awaits = some x ∧
    x.lexeme = name.lexeme ∧ c'.sites = c.sites.drop d ∧ c'.scopes.here? name.lexeme = none

theorem Stmt.declares_of_awaits {st : Stmt} {x : Token} (h : st.awaits = some x) :
    st.declares = some x := by
  cases st with
  | varDecl name e =>
      cases e with
      | none => cases h
      | some e => exact h
  | letDecl name e => exact h
  | classDecl name e ms =>
      cases e with
      | none => cases h
      | some e => exact h
  | _ => cases h

section
variable {texts : List (List Stmt)} {s : Store} {p : Place} {c : Context} {env : EnvironmentId}
  {name : Token} {d : Nat} {b : Binding}

theorem inDeclaration_of_awaited (accepted : ∀ body ∈ texts, Accepted body)
    (h : Awaited texts p (c.sites.drop d) name.lexeme) : InDeclaration texts p c name d := by
  obtain ⟨q, c', st, x, hq, hv, hx, hname, hsites⟩ := h
  refine ⟨q, c', st, x, hq, hv, hx, hname, hsites, ?_⟩
  rw [← hname]
  exact Context.here?_of_declares (Stmt.declares_of_awaits hx) (visitAt_errors accepted hv)

/-- Where the resolver found a name, there is an environment, which holds it or awaits
it. -/
theorem Ready.finds (h : Ready texts s (Excused none) p c.sites c.scopes env)
    (accepted : ∀ body ∈ texts, Accepted body) (hlinked : s.Linked)
    (hlength : (s.chain env).length = c.scopes.length)
    (hfind : c.scopes.find? name.lexeme = some (d, b)) :
    ∃ f, s.ancestor? env d = some f ∧
      (s.Supplies f name.lexeme ∨ InDeclaration texts p c name d) := by
  obtain ⟨scope, hscope, hb⟩ := Scopes.getElem?_of_find? hfind
  have hd : d < (s.chain env).length := hlength ▸ Scopes.lt_length_of_find? hfind
  have hf : (s.chain env)[d]? = some (s.chain env)[d] := List.getElem?_eq_getElem hd
  refine ⟨(s.chain env)[d], (Store.ancestor?_eq_getElem? hlinked env d).trans hf, ?_⟩
  have hname : Table.has scope name.lexeme = true := by
    unfold Table.has
    rw [hb]
    rfl
  rcases h.names d _ scope name.lexeme hf hscope hname with hsupplied | hawaited | hexcused
  · exact .inl hsupplied
  · exact .inr (inDeclaration_of_awaited accepted hawaited)
  · exact absurd hexcused not_excused_none

end

/-! ## Looking up and assigning -/

namespace Machine

variable {m : Machine} {env f : EnvironmentId} {d : Nat} {name : Token}

/-- Looking up a name finds what it stands for where its depth leads to, or fails. -/
theorem step_variable (h : m.control = .evaluate (.variable name (some d)) env)
    (hf : m.state.store.ancestor? env d = some f) :
    (∃ v, m.state.store.getLocal? f name.lexeme = some v ∧ m.step.control = .value v) ∨
      m.state.store.binds f name.lexeme = false ∧
        m.step.control = .unwind (.failure (Store.undefined name)) := by
  obtain ⟨control, stack, s⟩ := m
  cases h
  simp only [step, evaluate, lookUp, Store.accessAt, Store.scopeAt, hf]
  cases hv : s.store.getLocal? f name.lexeme with
  | some v => exact .inl ⟨v, rfl, rfl⟩
  | none => exact .inr ⟨by simp only [Store.binds, hv, Option.isSome_none], rfl⟩

/-- Assigning to a name changes it where its depth leads to, or fails. -/
theorem step_assign {v : Value} {stack : List Frame} (h : m.control = .value v)
    (hframe : m.stack = .assign name (some d) env :: stack)
    (hf : m.state.store.ancestor? env d = some f) :
    (m.state.store.binds f name.lexeme = true ∧ m.step.control = .value v ∧
        m.step.state.store = m.state.store.put f name.lexeme v) ∨
      m.state.store.binds f name.lexeme = false ∧
        m.step.control = .unwind (.failure (Store.undefined name)) := by
  obtain ⟨control, stack, s⟩ := m
  cases h
  cases hframe
  simp only [step, resume, change, Store.assignAt, Store.scopeAt, hf, Store.assignLocal?]
  cases hb : s.store.binds f name.lexeme with
  | true => exact .inl ⟨rfl, rfl, rfl⟩
  | false => exact .inr ⟨rfl, rfl⟩

end Machine

namespace Session

variable {limit : Option Nat} {now : ClockReading} {texts : List (List Stmt)} {t : Trail}
  {m : Machine}

/-- At every moment of every session a name with a depth has the environment that the
depth leads to.  If the environment holds it, looking it up yields what it stands for,
and assigning to it changes that.  If not, the use is inside the initializer, or inside
the superclass, of the very declaration that the resolver bound it to, and fails. -/
theorem reference_found (h : Moment limit now texts t m) :
    (∀ name d env, m.control = .evaluate (.variable name (some d)) env →
      ∃ c e b f, visitAt texts t.here = some ⟨c, .expr e⟩ ∧ c.expr e = .variable name (some d) ∧
        c.scopes.find? name.lexeme = some (d, b) ∧ m.state.store.ancestor? env d = some f ∧
        ((∃ v, m.state.store.getLocal? f name.lexeme = some v ∧ m.step.control = .value v) ∨
          m.step.control = .unwind (.failure (Store.undefined name)) ∧
            InDeclaration texts t.here c name d)) ∧
    (∀ v name d env stack, m.control = .value v → m.stack = .assign name (some d) env :: stack →
      ∃ c v₀ b f, visitAt texts (t.frames.headD []) = some ⟨c, .expr (.assign name v₀ none)⟩ ∧
        c.scopes.find? name.lexeme = some (d, b) ∧ m.state.store.ancestor? env d = some f ∧
        ((m.state.store.binds f name.lexeme = true ∧ m.step.control = .value v ∧
            m.step.state.store = m.state.store.put f name.lexeme v) ∨
          m.step.control = .unwind (.failure (Store.undefined name)) ∧
            InDeclaration texts (t.frames.headD []) c name d)) := by
  have haccepted := h.sound.accepted
  have hlinked := h.coherent.store.linked
  have hsettled := h.settled
  -- what is not there is not supplied
  have hmissing : ∀ {f n}, m.state.store.binds f n = false → ¬ m.state.store.Supplies f n :=
    fun hb hsupplied => Bool.eq_false_iff.mp hb hsupplied.binds
  refine ⟨fun name d env he => ?_, fun v name d env stack hv hframe => ?_⟩
  · obtain ⟨c, e, hvisit, hexpr, hstep⟩ := h.expr_inStep he
    have hreference : (c.expr e).reference = some (name, some d) := by
      rw [hexpr]
      rfl
    obtain ⟨b, hfind⟩ := Context.find?_of_reference (h.fresh _ _ hvisit) hreference
    have hready : ExprReady texts m.state.store t.here env := by
      have hcontrol := hsettled.control
      rw [he] at hcontrol
      exact hcontrol
    obtain ⟨f, hf, hfound⟩ :=
      (hready.ready hvisit).finds haccepted hlinked hstep.length hfind
    refine ⟨c, e, b, f, hvisit, hexpr, hfind, hf, ?_⟩
    exact (Machine.step_variable he hf).imp_right fun ⟨hb, hfails⟩ =>
      ⟨hfails, hfound.resolve_left (hmissing hb)⟩
  · obtain ⟨c, v₀, hvisit, hdepth, hstep⟩ := h.assign_inStep hframe
    obtain ⟨b, hfind⟩ := Scopes.find?_of_refer hdepth
    have hready : ExprReady texts m.state.store (t.frames.headD []) env := by
      have hstack := hsettled.stack
      rw [hframe] at hstack
      cases hp : t.frames with
      | nil =>
          rw [hp] at hvisit
          cases hvisit
      | cons p ps =>
          rw [hp] at hstack
          exact hstack.1
    obtain ⟨f, hf, hfound⟩ :=
      (hready.ready hvisit).finds haccepted hlinked hstep.length hfind
    refine ⟨c, v₀, b, f, hvisit, hfind, hf, ?_⟩
    exact (Machine.step_assign hv hframe hf).imp_right fun ⟨hb, hfails⟩ =>
      ⟨hfails, hfound.resolve_left (hmissing hb)⟩

/-! ### One text -/

/-- The program of `class A < (A) {}`. -/
def heir : List Stmt :=
  [.classDecl (nameAt "A" 7) (some (.grouping (.variable (nameAt "A" 12) none))) []]

theorem read_heir : (read "class A < (A) {}").2 = .ok heir := by
  with_unfolding_all rfl

/-- A class looks itself up as its own superclass.  It is not there yet: the lookup is
inside the superclass of the declaration, and fails. -/
theorem reference_found_heir :
    ∃ t m c, Moment none 0 [heir] t m ∧
      m.control = .evaluate (.variable (nameAt "A" 12) (some 0)) State.globals ∧
      m.step.control = .unwind (.failure (Store.undefined (nameAt "A" 12))) ∧
      InDeclaration [heir] t.here c (nameAt "A" 12) 0 := by
  have hfirst : Moment none 0 [heir] _ _ := Moment.first.next_of_accepted rfl read_heir rfl
  have hmoment := hfirst.move.move.move
  obtain ⟨c, e, b, f, -, -, -, hf, hfound⟩ :=
    (reference_found hmoment).1 (nameAt "A" 12) 0 State.globals rfl
  cases hf
  rcases hfound with ⟨v, hv, -⟩ | ⟨hfails, hinside⟩
  · cases hv
  · exact ⟨_, _, c, hmoment, rfl, hfails, hinside⟩

end Session

end Lox
