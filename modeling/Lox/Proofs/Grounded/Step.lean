/-
# A move keeps what is grounded

One lemma for each function of the machine, in the order of `Lox.Machine`.  Whatever
program a machine runs, resolved or not, a move keeps it grounded:
`Machine.Grounded.step`.  The property `P` of classes is asked of the class that the move
makes; `Machine.declared` says which one that is, and from which methods it was declared.
-/
import Lox.Proofs.Grounded
import Lox.Proofs.Kept
import Lox.Proofs.Ready.Step

namespace Lox

/-- A class that was made, and the methods that it was declared with, in their order. -/
structure ClassEntry where
  made : Class
  methods : List FunctionDecl

/-- The declaration of the method `n`, the last one if there are several. -/
def ClassEntry.declaration? (x : ClassEntry) (n : String) : Option FunctionDecl :=
  x.methods.reverse.find? (·.lexeme? == some n)

namespace Machine

/-- The class that the next move makes, if it makes one. -/
def declared : Machine → List ClassEntry
  | ⟨.execute (.classDecl name none ms) env, _, s⟩ => [⟨s.store.classOf name none ms env, ms⟩]
  | ⟨.value (.callable (.class above)), .superclass name _ ms env :: _, s⟩ =>
    [⟨(s.store.childWith env superName (.callable (.class above))).2.classOf name (some above) ms
      s.store.environments.size, ms⟩]
  | _ => []

/-- The machine is grounded, and its store has made more than `s`. -/
structure Onward (P : Class → Prop) (s : Store) (m : Machine) : Prop where
  grows : s.Grows m.state.store
  grounded : m.Grounded P

section
variable {P : Class → Prop} {stack : List Frame} {s t : State}
  (hk : ∀ frame ∈ stack, frame.Grounded s.store P)
include hk

/-- The stack stays as it is. -/
theorem onward_to {control : Control} (hs : s.store.Onward P t.store)
    (hc : control.Grounded t.store P) : Onward P s.store ⟨control, stack, t⟩ :=
  ⟨hs.grows, hc, fun frame hframe => (hk frame hframe).mono hs.grows fun _ h => h, hs.sound⟩

/-- The stack has one frame more. -/
theorem onward_push {control : Control} {frame : Frame} (hs : s.store.Onward P t.store)
    (hc : control.Grounded t.store P) (hf : frame.Grounded t.store P) :
    Onward P s.store ⟨control, frame :: stack, t⟩ := by
  refine ⟨hs.grows, hc, List.forall_mem_cons.mpr ⟨hf, ?_⟩, hs.sound⟩
  intro frame' hframe'
  exact (hk frame' hframe').mono hs.grows fun _ h => h

theorem onward_doneWith {r : Except RuntimeError Store} (hs : s.store.Onward P t.store)
    (hr : ∀ store, r = .ok store → t.store.Onward P store) :
    Onward P s.store (doneWith r stack t) := by
  cases r with
  | ok store =>
      have hnext := hr store rfl
      exact onward_to (t := { t with store := store }) hk (hs.trans hnext) trivial
  | error e => exact onward_to hk hs trivial

theorem onward_yieldWith {v : Value} {r : Except RuntimeError Store}
    (hs : s.store.Onward P t.store) (hv : v.Grounded t.store P)
    (hr : ∀ store, r = .ok store → t.store.Onward P store) :
    Onward P s.store (yieldWith v r stack t) := by
  cases r with
  | ok store =>
      have hnext := hr store rfl
      exact onward_to (t := { t with store := store }) hk (hs.trans hnext)
        (hv.mono hnext.grows fun _ h => h)
  | error e => exact onward_to hk hs trivial

theorem onward_yield {r : Except RuntimeError Value} (hs : s.store.Onward P t.store)
    (hr : ∀ v, r = .ok v → v.Grounded t.store P) : Onward P s.store (yield r stack t) := by
  cases r with
  | ok v => exact onward_to hk hs (hr v rfl)
  | error e => exact onward_to hk hs trivial

variable (hs : s.store.Sound P)
include hs

theorem onward_fail (e : RuntimeError) : Onward P s.store (fail e stack s) :=
  onward_to hk hs.refl trivial

theorem onward_value {v : Value} (hv : v.Grounded s.store P) :
    Onward P s.store ⟨.value v, stack, s⟩ :=
  onward_to hk hs.refl hv

theorem onward_done : Onward P s.store ⟨.done, stack, s⟩ := onward_to hk hs.refl trivial

/-- An operand is looked at. -/
theorem onward_await {e : Expr} {env : EnvironmentId} {frame : Frame}
    (henv : env < s.store.environments.size) (hf : frame.Grounded s.store P) :
    Onward P s.store ⟨.evaluate e env, frame :: stack, s⟩ :=
  onward_push hk hs.refl henv hf

/-- The body of a call runs in a new environment inside that of the function. -/
theorem onward_enter {f : Closure} (hf : f.Grounded s.store) {arguments : List Value}
    (hvs : ∀ v ∈ arguments, v.Grounded s.store P) :
    Onward P s.store (enter f arguments stack s) := by
  have hscope := hs.child hf.environment
  have hbound := hscope.sound.bindArguments s.store.environments.size
    (fun v hv => (hvs v hv).mono hscope.grows fun _ h => h) f.declaration.params
  have hnext := hscope.trans hbound
  have hnew := Nat.lt_of_lt_of_le (s.store.lt_newEnvironment _) hbound.grows.environments
  have hbody : ∀ frame ∈ Frame.functionBody f :: stack, frame.Grounded s.store P :=
    List.forall_mem_cons.mpr ⟨hf, hk⟩
  unfold enter
  dsimp only
  split
  · rename_i store hb
    replace hnext : s.store.Onward P (store, (none : Option RuntimeError)).1 := hb ▸ hnext
    replace hnew : _ < (store, (none : Option RuntimeError)).1.environments.size := hb ▸ hnew
    exact onward_push (t := { s with store := store }) hbody hnext trivial hnew
  · rename_i store e hb
    replace hnext : s.store.Onward P (store, some e).1 := hb ▸ hnext
    exact onward_to (t := { s with store := store }) hk hnext trivial

theorem onward_construct {c : Class} (hc : c.Grounded s.store P) {arguments : List Value}
    (hvs : ∀ v ∈ arguments, v.Grounded s.store P) :
    Onward P s.store (construct c arguments stack s) := by
  obtain ⟨hmade, hi⟩ := hs.newInstance hc
  unfold construct
  dsimp only
  split
  · rename_i init hinit
    obtain ⟨hbound, hf⟩ := hmade.sound.bindMethod ((hc.method hinit).mono hmade.grows) hi
    have hnext := hmade.trans hbound
    have hframes : ∀ frame ∈ Frame.constructed (s.store.newInstance c).1 :: stack, frame.Grounded
        ((s.store.newInstance c).2.bindMethod init (s.store.newInstance c).1).2 P := by
      refine List.forall_mem_cons.mpr ⟨?_, ?_⟩
      · exact hi.mono hbound.grows fun _ h => h
      · intro frame hframe
        exact (hk frame hframe).mono hnext.grows fun _ h => h
    have hentered := onward_enter (s := { s with store := _ }) hframes hnext.sound hf
      fun v hv => (hvs v hv).mono hnext.grows fun _ h => h
    exact ⟨hnext.grows.trans hentered.grows, hentered.grounded⟩
  · exact onward_to (t := { s with store := _ }) hk hmade hi

theorem onward_invoke {c : Callable} (hc : (Value.callable c).Grounded s.store P)
    {arguments : List Value} (hvs : ∀ v ∈ arguments, v.Grounded s.store P) :
    Onward P s.store (invoke c arguments stack s) := by
  cases c with
  | function f => exact onward_enter (s := s.note _) hk hs hc hvs
  | «class» c => exact onward_construct (s := s.note _) hk hs hc hvs
  | native n =>
      refine onward_yield (t := (s.note (.called (.native n) arguments.length)).tick) hk hs.refl ?_
      intro v hv
      exact (scalar_native hv).grounded

theorem onward_apply {callee : Value} (hc : callee.Grounded s.store P) {arguments : List Value}
    (hvs : ∀ v ∈ arguments, v.Grounded s.store P) (paren : Token) :
    Onward P s.store (apply callee arguments paren stack s) := by
  unfold apply
  split
  · split
    · exact onward_fail hk hs _
    · split
      · exact onward_fail hk hs _
      · have hcall : ∀ frame ∈ Frame.activeCall paren :: stack, frame.Grounded s.store P :=
          List.forall_mem_cons.mpr ⟨trivial, hk⟩
        exact onward_invoke (s := { s with callDepth := s.callDepth + 1 }) hcall hs hc hvs
  · exact onward_fail hk hs _

theorem onward_applyNext {callee : Value} (hc : callee.Grounded s.store P) {earlier : List Value}
    (hvs : ∀ v ∈ earlier, v.Grounded s.store P) (paren : Token) (later : List Expr)
    {env : EnvironmentId} (henv : env < s.store.environments.size) :
    Onward P s.store (applyNext callee earlier paren later env stack s) := by
  cases later with
  | cons e es => exact onward_await hk hs henv ⟨⟨hc, hvs⟩, henv⟩
  | nil =>
      refine onward_apply hk hs hc ?_ paren
      intro v hv
      exact hvs v (List.mem_reverse.mp hv)

theorem onward_arrayNext (bracket : Token) (size : Option Nat) {earlier : List Value}
    (hvs : ∀ v ∈ earlier, v.Grounded s.store P) (later : List Expr) {env : EnvironmentId}
    (henv : env < s.store.environments.size) :
    Onward P s.store (arrayNext bracket size earlier later env stack s) := by
  cases later with
  | cons e es => exact onward_await hk hs henv ⟨hvs, henv⟩
  | nil =>
      have hgiven := usual_arrayElements size earlier.reverse bracket
      unfold arrayNext
      dsimp only
      split
      · rename_i elements helements
        rw [helements] at hgiven
        have hgrounded : ∀ (i : Nat) v, elements[i]? = some v → v.Grounded s.store P := by
          intro i v hv
          rcases hgiven i v hv with hmem | rfl
          · exact hvs v (List.mem_reverse.mp hmem)
          · trivial
        obtain ⟨hnext, ha⟩ := hs.newArray hgrounded
        exact onward_to (t := { s with store := _ }) hk hnext ha
      · exact onward_fail hk hs _

theorem onward_lambda (d : FunctionDecl) {env : EnvironmentId}
    (henv : env < s.store.environments.size) : Onward P s.store (lambda d env stack s) := by
  unfold lambda
  split
  · rename_i name _
    have hscope := hs.child henv
    have hmade := hscope.trans hscope.sound.newIdentity
    have hf := Store.Sound.grounded_newClosure (s := (s.store.child env).2)
      (s.store.lt_newEnvironment _) d false
    exact onward_yieldWith (t := { s with store := _ }) hk hmade hf fun store hr =>
      hmade.sound.defineReadOnly (v := .callable (.function _)) hf hr
  · exact onward_to (t := { s with store := _ }) hk hs.newIdentity
      (Store.Sound.grounded_newClosure henv d false)

theorem onward_evaluate (e : Expr) {env : EnvironmentId}
    (henv : env < s.store.environments.size) : Onward P s.store (evaluate e env stack s) := by
  cases e with
  | literal v => exact onward_value hk hs (by cases v <;> trivial)
  | grouping e => exact onward_to hk hs.refl henv
  | «variable» name depth | receiver name depth =>
      exact onward_yield hk hs.refl fun v hv => hs.only.lookUp hv
  | superMethod keyword name depth =>
      simp only [evaluate]
      split
      · rename_i k i hfound
        obtain ⟨d, c, -, hclass, hreceiver, hk'⟩ := superMethod_eq_ok hfound
        have hc : c.Grounded s.store P := hs.only.accessAt hclass
        obtain ⟨hnext, hf⟩ := hs.bindMethod (hc.method hk') (hs.only.accessAt hreceiver)
        exact onward_to (t := { s with store := _ }) hk hnext hf
      · exact onward_fail hk hs _
  | function d => exact onward_lambda hk hs d henv
  | array bracket size es =>
      cases size with
      | none => exact onward_arrayNext hk hs bracket none (List.forall_mem_nil _) es henv
      | some e => exact onward_await hk hs henv henv
  | unary | get => exact onward_await hk hs henv trivial
  | _ => exact onward_await hk hs henv henv

/-! ### Statements -/

theorem onward_loop (condition : Expr) (body : Stmt) (step : Option Expr) {env : EnvironmentId}
    (henv : env < s.store.environments.size) :
    Onward P s.store (loop condition body step env stack s) :=
  onward_await hk hs henv henv

theorem onward_loopNext (condition : Expr) (body : Stmt) (step : Option Expr)
    {env : EnvironmentId} (henv : env < s.store.environments.size) :
    Onward P s.store (loopNext condition body step env stack s) := by
  cases step with
  | some e => exact onward_await hk hs henv henv
  | none => exact onward_loop hk hs condition body none henv

omit hs in
/-- What is left of the declaration of a class once the scope of its methods is there. -/
theorem onward_finishClass {name : Token} {superclass : Option Class} {ms : List FunctionDecl}
    {env scope : EnvironmentId} {store : Store} (hstore : s.store.Onward P store)
    (habove : ∀ above, superclass = some above → above.Grounded store P)
    (hscope : scope < store.environments.size)
    (hP : P (store.classOf name superclass ms scope)) :
    Onward P s.store (finishClass name superclass ms env scope store stack s) := by
  obtain ⟨hnext, hclass⟩ := hstore.sound.classOf name habove ms hscope hP
  refine onward_doneWith (t := State.note { s with store := _ } _) hk (hstore.trans hnext) ?_
  intro z hr
  exact hnext.sound.define (v := .callable (.class _)) hclass hr

theorem onward_defineClass {name : Token} {superclass : Option Class} {ms : List FunctionDecl}
    {env : EnvironmentId} (henv : env < s.store.environments.size)
    (habove : ∀ above, superclass = some above → above.Grounded s.store P)
    (hP : P (match superclass with
      | some above => (s.store.childWith env superName (.callable (.class above))).2.classOf name
          (some above) ms s.store.environments.size
      | none => s.store.classOf name none ms env)) :
    Onward P s.store (defineClass name superclass ms env stack s) := by
  cases superclass with
  | none => exact onward_finishClass hk hs.refl habove henv hP
  | some above =>
      have hold := habove above rfl
      have hscope := hs.childWith (v := .callable (.class above)) henv superName hold
      refine onward_finishClass hk hscope ?_ (s.store.lt_newEnvironment _) hP
      rintro _ ⟨⟩
      exact hold.mono hscope.grows fun _ h => h

theorem onward_printValue (v : Value) : Onward P s.store (printValue v stack s) := by
  unfold printValue
  split
  · exact onward_to (t := { s with output := _ }) hk hs.refl trivial
  · exact onward_to (t := { s with output := _ }) hk hs.refl trivial

theorem onward_execute (st : Stmt) {env : EnvironmentId}
    (henv : env < s.store.environments.size)
    (hP : ∀ x ∈ declared ⟨.execute st env, stack, s⟩, P x.made) :
    Onward P s.store (execute st env stack s) := by
  cases st with
  | print | expression => exact onward_await hk hs henv trivial
  | letDecl | branch => exact onward_await hk hs henv henv
  | whileLoop condition body step => exact onward_loop hk hs condition body step henv
  | varDecl name e =>
      cases e with
      | some e => exact onward_await hk hs henv henv
      | none =>
          refine onward_doneWith hk hs.refl ?_
          intro store hr
          exact hs.define (v := .nil) trivial hr
  | block body =>
      exact onward_push (t := { s with store := _ }) hk (hs.child henv) trivial
        (s.store.lt_newEnvironment _)
  | functionDecl d =>
      have hmade : s.store.Onward P (s.store.newClosure d env false).2 := hs.newIdentity
      have hf := Store.Sound.grounded_newClosure henv d false
      simp only [execute]
      split
      · refine onward_doneWith (t := { s with store := _ }) hk hmade ?_
        intro store hr
        exact hmade.sound.define (v := .callable (.function _)) hf hr
      · exact onward_to (t := { s with store := _ }) hk hmade trivial
  | classDecl name e ms =>
      cases e with
      | some e => exact onward_await hk hs henv henv
      | none =>
          have hmade : P (s.store.classOf name none ms env) :=
            hP ⟨s.store.classOf name none ms env, ms⟩ List.mem_cons_self
          have habove : ∀ above, (none : Option Class) = some above →
              above.Grounded s.store P := by
            intro above h
            cases h
          show Onward P s.store (defineClass name none ms env stack s)
          exact onward_defineClass hk hs henv habove hmade
  | returnWith keyword e =>
      cases e with
      | some e => exact onward_await hk hs henv trivial
      | none => exact onward_to hk hs.refl trivial
  | breakLoop | continueLoop => exact onward_to hk hs.refl trivial
  | moduleDecl name body =>
      have hscope := hs.child henv
      have hnew : s.store.environments.size < (s.store.child env).2.environments.size :=
        s.store.lt_newEnvironment _
      have hmodule : ∀ frame ∈ Frame.moduleBody name s.store.environments.size env :: stack,
          frame.Grounded (s.store.child env).2 P := by
        refine List.forall_mem_cons.mpr ⟨⟨hnew, Nat.lt_trans henv hnew⟩, ?_⟩
        intro frame hframe
        exact (hk frame hframe).mono hscope.grows fun _ h => h
      have hframe : (Frame.sequence body s.store.environments.size).Grounded
          (s.store.child env).2 P := hnew
      have hbody : Onward P (s.store.child env).2 ⟨.done,
          .sequence body s.store.environments.size :: .moduleBody name s.store.environments.size env
            :: stack, { s with store := (s.store.child env).2 }⟩ :=
        onward_push (s := { s with store := (s.store.child env).2 }) hmodule hscope.sound.refl
          trivial hframe
      exact ⟨hscope.grows.trans hbody.grows, hbody.grounded⟩

/-! ### Frames -/

theorem onward_get {v : Value} (hv : v.Grounded s.store P) (name : Token) :
    Onward P s.store (resume v (.get name) stack s) := by
  simp only [resume]
  split
  · split
    · rename_i u store hget
      obtain ⟨hnext, hu⟩ := hs.get hv hget
      exact onward_to (t := { s with store := store }) hk hnext hu
    · exact onward_fail hk hs _
  · split
    · exact onward_value hk hs (hs.only.bindings ‹_›)
    · exact onward_fail hk hs _
  · exact onward_fail hk hs _

theorem onward_setObject {v : Value} (hv : v.Grounded s.store P) (name : Token) (e : Expr)
    {env : EnvironmentId} (henv : env < s.store.environments.size) :
    Onward P s.store (resume v (.setObject name e env) stack s) := by
  simp only [resume]
  split
  · exact onward_await hk hs henv hv
  · exact onward_await hk hs henv hv
  · exact onward_fail hk hs _

theorem onward_setMember {v : Value} (hv : v.Grounded s.store P) (m : Module) (name : Token) :
    Onward P s.store (resume v (.setMember m name) stack s) := by
  simp only [resume]
  split
  · exact onward_fail hk hs _
  · split
    · rename_i store hstore
      obtain ⟨-, rfl⟩ := Store.assignLocal?_eq_some.mp hstore
      have hnext := hs.put hv m.environment name.lexeme
      exact onward_to (t := { s with store := _ }) hk hnext (hv.mono hnext.grows fun _ h => h)
    · exact onward_fail hk hs _

theorem onward_index {v : Value} (a : ArrayId) (bracket : Token) :
    Onward P s.store (resume v (.index a bracket) stack s) := by
  simp only [resume]
  split
  · split
    · exact onward_value hk hs (hs.only.arrays ‹_›)
    · exact onward_fail hk hs _
  · exact onward_fail hk hs _

theorem onward_setIndex {v : Value} (hv : v.Grounded s.store P) (a : ArrayId) (i : Nat)
    (bracket : Token) : Onward P s.store (resume v (.setIndex a i bracket) stack s) := by
  simp only [resume]
  split
  · have hnext := hs.setElement? hv ‹_›
    exact onward_to (t := { s with store := _ }) hk hnext (hv.mono hnext.grows fun _ h => h)
  · exact onward_fail hk hs _

theorem onward_superclass {v : Value} (hv : v.Grounded s.store P) (name site : Token)
    (ms : List FunctionDecl) {env : EnvironmentId} (henv : env < s.store.environments.size)
    (hP : ∀ x ∈ declared ⟨.value v, .superclass name site ms env :: stack, s⟩, P x.made) :
    Onward P s.store (resume v (.superclass name site ms env) stack s) := by
  simp only [resume]
  split
  · rename_i above
    refine onward_defineClass hk hs henv ?_ (hP _ List.mem_cons_self)
    rintro _ ⟨⟩
    exact hv
  · exact onward_fail hk hs _

theorem onward_resume {v : Value} (hv : v.Grounded s.store P) {frame : Frame}
    (hframe : frame.Grounded s.store P)
    (hP : ∀ x ∈ declared ⟨.value v, frame :: stack, s⟩, P x.made) :
    Onward P s.store (resume v frame stack s) := by
  cases frame with
  | unary =>
      refine onward_yield hk hs.refl ?_
      intro u hr
      exact (scalar_applyUnary hr).grounded
  | binary =>
      refine onward_yield hk hs.refl ?_
      intro u hr
      exact (scalar_applyBinary hr).grounded
  | binaryRight => exact onward_await hk hs hframe hv
  | logical =>
      simp only [resume]
      split
      · exact onward_value hk hs hv
      · exact onward_to hk hs.refl hframe
  | assign name depth env =>
      refine onward_yieldWith hk hs.refl hv ?_
      intro store hr
      obtain ⟨e, -, -, rfl⟩ := change_eq_ok hr
      exact hs.put hv e _
  | callee paren es env => exact onward_applyNext hk hs hv (List.forall_mem_nil _) paren es hframe
  | argument function earlier paren later env =>
      exact onward_applyNext hk hs hframe.1.1 (List.forall_mem_cons.mpr ⟨hv, hframe.1.2⟩) paren
        later hframe.2
  | get name => exact onward_get hk hs hv name
  | setObject name e env => exact onward_setObject hk hs hv name e hframe
  | setField i name =>
      have hnext := hs.setField hv i name.lexeme
      exact onward_to (t := { s with store := _ }) hk hnext (hv.mono hnext.grows fun _ h => h)
  | setMember m name => exact onward_setMember hk hs hv m name
  | arraySize bracket es env =>
      simp only [resume]
      split
      · exact onward_arrayNext hk hs bracket _ (List.forall_mem_nil _) es hframe
      · exact onward_fail hk hs _
  | arrayElement bracket size earlier later env =>
      exact onward_arrayNext hk hs bracket size (List.forall_mem_cons.mpr ⟨hv, hframe.1⟩) later
        hframe.2
  | indexObject =>
      simp only [resume]
      split
      · rename_i ha
        exact onward_await hk hs hframe (grounded_asArray hv ha)
      · exact onward_fail hk hs _
  | index a bracket => exact onward_index hk hs a bracket
  | setIndexObject =>
      simp only [resume]
      split
      · rename_i ha
        exact onward_await hk hs hframe ⟨grounded_asArray hv ha, hframe⟩
      · exact onward_fail hk hs _
  | setIndexAt =>
      simp only [resume]
      split
      · exact onward_await hk hs hframe.2 hframe.1
      · exact onward_fail hk hs _
  | setIndex a i bracket => exact onward_setIndex hk hs hv a i bracket
  | print => exact onward_printValue hk hs v
  | discard => exact onward_done hk hs
  | varDecl =>
      refine onward_doneWith hk hs.refl ?_
      intro store hr
      exact hs.define hv hr
  | letDecl =>
      refine onward_doneWith hk hs.refl ?_
      intro store hr
      exact hs.defineReadOnly hv hr
  | branch onTrue onFalse env =>
      simp only [resume]
      split
      · exact onward_to hk hs.refl hframe
      · split
        · exact onward_to hk hs.refl hframe
        · exact onward_done hk hs
  | loopTest =>
      simp only [resume]
      split
      · exact onward_push hk hs.refl hframe hframe
      · exact onward_done hk hs
  | loopStep condition body step env => exact onward_loop hk hs condition body step hframe
  | superclass name site ms env => exact onward_superclass hk hs hv name site ms hframe hP
  | constructed i => exact onward_value hk hs hframe
  | returnWith => exact onward_to hk hs.refl hv
  | activeCall => exact onward_to (t := { s with callDepth := _ }) hk hs.refl hv
  | sequence | loopBody | moduleBody | functionBody => exact onward_value hk hs hv

theorem onward_proceed {frame : Frame} (hframe : frame.Grounded s.store P) :
    Onward P s.store (proceed frame stack s) := by
  cases frame with
  | sequence later env =>
      cases later with
      | nil => exact onward_done hk hs
      | cons st later => exact onward_push hk hs.refl hframe hframe
  | loopBody condition body step env => exact onward_loopNext hk hs condition body step hframe
  | moduleBody name members env =>
      refine onward_doneWith (t := s.note _) hk hs.refl ?_
      intro store hr
      exact hs.defineReadOnly (v := .module ⟨name.lexeme, members⟩) hframe.1 hr
  | functionBody f =>
      refine onward_yield hk hs.refl ?_
      intro v hr
      exact hs.only.result (u := .nil) trivial hr
  | _ => exact onward_done hk hs

theorem onward_unwind {signal : Signal} {frame : Frame} (hframe : frame.Grounded s.store P)
    (hsignal : (Control.unwind signal).Grounded s.store P) :
    Onward P s.store (unwind signal frame stack s) := by
  cases frame with
  | loopBody condition body step env =>
      cases signal with
      | continuing => exact onward_loopNext hk hs condition body step hframe
      | breaking => exact onward_done hk hs
      | failure | returning => exact onward_to hk hs.refl hsignal
  | functionBody f =>
      cases signal with
      | returning v =>
          refine onward_yield hk hs.refl ?_
          intro u hr
          exact hs.only.result hsignal hr
      | _ => exact onward_to hk hs.refl hsignal
  | activeCall paren =>
      cases signal with
      | failure e => exact onward_to (t := { s with callDepth := _ }) hk hs.refl trivial
      | _ => exact onward_to (t := { s with callDepth := _ }) hk hs.refl hsignal
  | _ => exact onward_to hk hs.refl hsignal

end

/-- A move keeps the machine grounded, if the class that it makes has the property. -/
theorem Grounded.step {P : Class → Prop} {m : Machine} (h : m.Grounded P)
    (hP : ∀ x ∈ m.declared, P x.made) : Onward P m.state.store m.step := by
  obtain ⟨control, stack, s⟩ := m
  obtain ⟨hc, hk, hs⟩ := h
  cases control with
  | evaluate e env => exact onward_evaluate hk hs e hc
  | execute st env => exact onward_execute hk hs st hc hP
  | value v =>
      cases stack with
      | nil => exact ⟨.refl _, hc, hk, hs⟩
      | cons frame stack =>
          obtain ⟨hframe, hk⟩ := List.forall_mem_cons.mp hk
          exact onward_resume hk hs hc hframe hP
  | done =>
      cases stack with
      | nil => exact ⟨.refl _, hc, hk, hs⟩
      | cons frame stack =>
          obtain ⟨hframe, hk⟩ := List.forall_mem_cons.mp hk
          exact onward_proceed hk hs hframe
  | unwind signal =>
      cases stack with
      | nil => exact ⟨.refl _, hc, hk, hs⟩
      | cons frame stack =>
          obtain ⟨hframe, hk⟩ := List.forall_mem_cons.mp hk
          exact onward_unwind hk hs hframe hc

/-! ### The class that a move makes -/

/-- The machine may be asked for a weaker property. -/
theorem Grounded.mono {P P' : Class → Prop} (hP : ∀ c, P c → P' c) {m : Machine}
    (h : m.Grounded P) : m.Grounded P' where
  control := h.control.mono (.refl _) hP
  stack := fun frame hframe => (h.stack frame hframe).mono (.refl _) hP
  store :=
    { linked := h.store.linked
      rooted := h.store.rooted
      globals := h.store.globals
      only := h.store.only.imp fun _ hv => hv.mono (.refl _) hP }

/-- A class is made where its declaration ends. -/
theorem finishClass_of_mem_declared {m : Machine} {x : ClassEntry} (hx : x ∈ m.declared) :
    ∃ name superclass ms env scope store stack,
      m.step = finishClass name superclass ms env scope store stack m.state ∧
      x = ⟨store.classOf name superclass ms scope, ms⟩ := by
  unfold declared at hx
  split at hx
  · exact ⟨_, _, _, _, _, _, _, defineClass_none .., List.mem_singleton.mp hx⟩
  · exact ⟨_, _, _, _, _, _, _, defineClass_some .., List.mem_singleton.mp hx⟩
  · cases hx

/-- What a move makes is noted. -/
theorem events_of_mem_declared {m : Machine} {x : ClassEntry} (hx : x ∈ m.declared) :
    m.step.state.events = .classDefined x.made :: m.state.events := by
  obtain ⟨name, superclass, ms, env, scope, store, stack, hstep, rfl⟩ :=
    finishClass_of_mem_declared hx
  rw [hstep]
  exact events_finishClass ..

/-- What is the case of the class that a move makes: nothing has its number yet, its methods
are those of the declaration, and it is grounded where the move ends. -/
structure Makes (P : Class → Prop) (m : Machine) (x : ClassEntry) : Prop where
  fresh : m.state.store.identities ≤ x.made.identity
  methods : ∀ n, (x.made.methods.get? n).map Closure.declaration = x.declaration? n
  grounded : x.made.Grounded m.step.state.store P

theorem makes_finishClass {P : Class → Prop} {m : Machine} {name : Token}
    {superclass : Option Class} {ms : List FunctionDecl} {env scope : EnvironmentId} {store : Store}
    {stack : List Frame}
    (hstep : m.step = finishClass name superclass ms env scope store stack m.state)
    (hstore : m.state.store.Onward P store)
    (habove : ∀ above, superclass = some above → above.Grounded store P)
    (hscope : scope < store.environments.size)
    (hP : P (store.classOf name superclass ms scope)) :
    Makes P m ⟨store.classOf name superclass ms scope, ms⟩ := by
  have hempty : ∀ n k, Table.get? ([] : Table Closure) n = some k → k.Grounded store := nofun
  obtain ⟨hmethods, -⟩ := hstore.sound.makeMethods hscope hempty ms
  obtain ⟨hnext, hclass⟩ := hstore.sound.classOf name habove ms hscope hP
  have hdone : ∀ r (s : State), (∀ z, r = .ok z → s.store.Onward P z) →
      s.store.Grows (doneWith r stack s).state.store := by
    intro r s hr
    cases r with
    | ok z => exact (hr z rfl).grows
    | error e => exact .refl _
  refine ⟨?_, ?_, ?_⟩
  · exact Nat.le_trans hstore.grows.identities hmethods.grows.identities
  · intro n
    refine (declaration_makeMethods store scope [] ms n).trans ?_
    exact Option.or_none
  · rw [hstep]
    refine hclass.mono (hdone _ _ ?_) fun _ hc => hc
    intro z hr
    exact hnext.sound.define (v := .callable (.class _)) hclass hr

theorem Grounded.makes {P : Class → Prop} {m : Machine} (h : m.Grounded P)
    (hP : ∀ x ∈ m.declared, P x.made) {x : ClassEntry} (hx : x ∈ m.declared) : Makes P m x := by
  have hmade := hP x hx
  unfold declared at hx
  split at hx
  · rename_i name ms env stack s
    cases List.mem_singleton.mp hx
    exact makes_finishClass (defineClass_none ..) h.store.refl nofun h.control hmade
  · rename_i above name site ms env stack s
    cases List.mem_singleton.mp hx
    obtain ⟨henv, -⟩ := List.forall_mem_cons.mp h.stack
    have hscope := h.store.childWith (v := .callable (.class above)) henv superName h.control
    refine makes_finishClass (defineClass_some ..) hscope ?_ (Store.lt_newEnvironment ..) hmade
    rintro _ ⟨⟩
    exact Class.Grounded.mono hscope.grows (fun _ hc => hc) h.control
  · cases hx

end Machine

end Lox
