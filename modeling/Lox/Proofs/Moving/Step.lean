/-
# Moves keep machines together, one against a few

One lemma for each function of the machine, in the order of `Lox.Machine`.  Nearly all
say that one move of each machine leaves them together.  At a loop whose step was moved the
second machine has the block around the body to enter and to leave: it makes up to three
moves against one, `Follows`.  `moved_step` puts the lemmas together.
-/
import Lox.Proofs.Moving.Machine
import Mathlib.Data.Nat.Init

namespace Lox

open Machine

/-! ## Catching up -/

/-- After some moves of its own the second machine belongs to the first one, and until then
its state belongs to `s`, which the first one was in. -/
def Follows (s : State) (m m' : Machine) : Prop :=
  ∃ n, MovedMachine m (run n m') ∧ ∀ k < n, ∃ T, MovedState T s (run k m').state

theorem MovedMachine.follows {m m' : Machine} (h : MovedMachine m m') (s : State) :
    Follows s m m' :=
  ⟨0, h, nofun⟩

/-- One more move of the second machine. -/
theorem Follows.later {T : Twins} {s : State} {m m' : Machine}
    (hs : MovedState T s m'.state) (h : Follows s m m'.step) : Follows s m m' := by
  obtain ⟨n, hm, hbetween⟩ := h
  refine ⟨n + 1, ?_, fun k hk => ?_⟩
  · rw [run_succ]
    exact hm
  · cases k with
    | zero => exact ⟨T, hs⟩
    | succ k =>
        rw [run_succ]
        exact hbetween k (Nat.lt_of_succ_lt_succ hk)

section
variable {T : Twins} {stack stack' : List Frame} {s s' : State} (hs : MovedState T s s')
include hs

/-! ## Moves that leave the stack below alone -/

theorem moved_fail {a : Wait} (hstack : MovedStack T a stack stack') (e : RuntimeError) :
    MovedMachine (fail e stack s) (fail e stack' s') :=
  ⟨T, a, .failure e, hstack, hs⟩

theorem moved_value (hstack : MovedStack T .value stack stack') {v v' : Value}
    (hv : MovedValue T v v') : MovedMachine ⟨.value v, stack, s⟩ ⟨.value v', stack', s'⟩ :=
  ⟨T, .value, .value hv, hstack, hs⟩

theorem moved_done {l : InnerLoop} (hstack : MovedStack T (.done l) stack stack') :
    MovedMachine ⟨.done, stack, s⟩ ⟨.done, stack', s'⟩ :=
  ⟨T, .done l, .done, hstack, hs⟩

theorem moved_yield (hstack : MovedStack T .value stack stack') {r r' : Except RuntimeError Value}
    (hr : SameResult (MovedValue T) r r') :
    MovedMachine (yield r stack s) (yield r' stack' s') := by
  cases hr with
  | ok hv => exact moved_value hs hstack hv
  | error e => exact moved_fail hs hstack e

theorem moved_yieldWith (hstack : MovedStack T .value stack stack') {v v' : Value}
    (hv : MovedValue T v v') {r r' : Except RuntimeError Store}
    (hr : SameResult (MovedStore T) r r') :
    MovedMachine (yieldWith v r stack s) (yieldWith v' r' stack' s') := by
  cases hr with
  | ok hu => exact moved_value (hs.withStore hu) hstack hv
  | error e => exact moved_fail hs hstack e

theorem moved_doneWith {l : InnerLoop} (hstack : MovedStack T (.done l) stack stack')
    {r r' : Except RuntimeError Store} (hr : SameResult (MovedStore T) r r') :
    MovedMachine (doneWith r stack s) (doneWith r' stack' s') := by
  cases hr with
  | ok hu => exact moved_done (hs.withStore hu) hstack
  | error e => exact moved_fail hs hstack e

/-! ## Calls -/

omit hs in
theorem moved_bindArguments {u u' : Store} (hu : MovedStore T u u') {env env' : EnvironmentId}
    {Δ : List Layer} (henv : T env env' (.own :: Δ)) (ps : List Token) {vs vs' : List Value}
    (hvs : List.Forall₂ (MovedValue T) vs vs') :
    MovedStore T (bindArguments u env ps vs).1 (bindArguments u' env' ps vs').1 ∧
      (bindArguments u' env' ps vs').2 = (bindArguments u env ps vs).2 := by
  induction ps generalizing u u' vs vs' with
  | nil =>
      simp only [bindArguments, and_true]
      exact hu
  | cons p ps ih =>
      cases hvs with
      | nil =>
          simp only [bindArguments, and_true]
          exact hu
      | cons hv hvs =>
          have hd := hu.define henv p hv
          simp only [bindArguments]
          revert hd
          generalize u.define env p _ = r, u'.define env' p _ = r'
          rintro (hu' | e)
          · exact ih hu' hvs
          · exact ⟨hu, rfl⟩

section
variable (hstack : MovedStack T .value stack stack')
include hstack

theorem moved_enter {f f' : Closure} (hf : MovedClosure T id f f') {vs vs' : List Value}
    (hvs : List.Forall₂ (MovedValue T) vs vs') :
    MovedMachine (enter f vs stack s) (enter f' vs' stack' s') := by
  obtain ⟨Δ, hΔ, hd, -⟩ := hf.declaration
  obtain ⟨T', hT, henv, hu⟩ := hs.store.child hΔ
  have hb := moved_bindArguments hu henv f.declaration.params (moved_values_mono hT hvs)
  unfold enter
  dsimp only
  rw [hd.params]
  revert hb
  generalize bindArguments _ _ f.declaration.params vs = r,
    bindArguments _ _ f.declaration.params vs' = r'
  obtain ⟨u, o⟩ := r
  obtain ⟨u', o'⟩ := r'
  rintro ⟨hu, rfl⟩
  cases o' with
  | some e => exact moved_fail (hs.withStore hu) (hstack.mono hT) e
  | none =>
      exact moved_done (hs.withStore hu) (.cons (.sequence henv hd.body)
        (.cons (.functionBody (hf.mono hT)) (hstack.mono hT)))

theorem moved_construct {c c' : Class} (hc : MovedClass T c c') {vs vs' : List Value}
    (hvs : List.Forall₂ (MovedValue T) vs vs') :
    MovedMachine (construct c vs stack s) (construct c' vs' stack' s') := by
  obtain ⟨hi, hu⟩ := hs.store.newInstance hc
  have hm := hc.findMethod? FunctionDecl.initializerName
  unfold construct
  revert hm
  generalize c.findMethod? _ = o, c'.findMethod? _ = o'
  rintro (hm | _)
  · obtain ⟨T', hT, hf, hu⟩ := hu.bindMethod hm hi
    exact moved_enter (hs.withStore hu) (.cons (.constructed (hi.mono hT)) (hstack.mono hT)) hf
      (moved_values_mono hT hvs)
  · exact moved_value (hs.withStore hu) hstack (.instance hi)

omit hstack in
/-- Native functions have the same results. -/
theorem moved_native (n : Native) {vs vs' : List Value}
    (hvs : List.Forall₂ (MovedValue T) vs vs') :
    SameResult (MovedValue T) ((n.apply s.now s.store vs).mapError .unplaced)
      ((n.apply s'.now s'.store vs').mapError .unplaced) := by
  cases n with
  | clock =>
      simp only [Native.apply, hs.now]
      cases s.now with
      | seconds x => exact .ok (.number x)
      | wrong what => exact .error _
  | len =>
      cases hvs with
      | nil => exact .error _
      | cons hv _ =>
          cases hv with
          | array a =>
              simp only [Native.apply, Store.lengthOf, hs.store.length]
              exact .ok (.number _)
          | string t => exact .ok (.number _)
          | _ => exact .error _

theorem moved_invoke {c c' : Callable} (hc : MovedCallable T c c') {vs vs' : List Value}
    (hvs : List.Forall₂ (MovedValue T) vs vs') :
    MovedMachine (invoke c vs stack s) (invoke c' vs' stack' s') := by
  cases hc with
  | function hf => exact moved_enter (hs.note _ _) hstack hf hvs
  | «class» hc => exact moved_construct (hs.note _ _) hstack hc hvs
  | native n => exact moved_yield (hs.note _ _).tick hstack (moved_native hs n hvs)

theorem moved_apply {v v' : Value} (hv : MovedValue T v v') {vs vs' : List Value}
    (hvs : List.Forall₂ (MovedValue T) vs vs') (paren : Token) :
    MovedMachine (apply v vs paren stack s) (apply v' vs' paren stack' s') := by
  cases hv with
  | callable hc =>
      unfold apply
      simp only [hc.arity, ← hvs.length_eq, hs.callDepth]
      split
      · exact moved_fail hs hstack _
      · split
        · exact moved_fail hs hstack _
        · exact moved_invoke (hs.withCallDepth _) (.cons (.activeCall paren) hstack) hc hvs
  | _ => exact moved_fail hs hstack _

theorem moved_applyNext {v v' : Value} (hv : MovedValue T v v') {vs vs' : List Value}
    (hvs : List.Forall₂ (MovedValue T) vs vs') (paren : Token) {Δ : List Layer}
    {env env' : EnvironmentId} (henv : T env env' Δ) {es es' : List Expr}
    (hes : MovedExprs Δ es es') :
    MovedMachine (applyNext v vs paren es env stack s)
      (applyNext v' vs' paren es' env' stack' s') := by
  cases hes with
  | nil => exact moved_apply hs hstack hv (List.rel_reverse hvs) paren
  | cons he hes =>
      exact ⟨T, .value, .evaluate henv he, .cons (.argument hv hvs henv hes) hstack, hs⟩

omit hs hstack in
theorem moved_result {f f' : Closure} (hf : MovedClosure T id f f') {v v' : Value}
    (hv : MovedValue T v v') {u u' : Store} (hu : MovedStore T u u') :
    SameResult (MovedValue T) (result f v u) (result f' v' u') := by
  obtain ⟨Δ, hΔ, hd, hscope⟩ := hf.declaration
  unfold result
  rw [hf.isInitializer, hd.keyword]
  split
  · exact hu.accessAt hΔ (hscope ‹_›) _
  · exact .ok hv

/-! ## Expressions -/

theorem moved_arrayNext (bracket : Token) (size : Option Nat) {vs vs' : List Value}
    (hvs : List.Forall₂ (MovedValue T) vs vs') {Δ : List Layer} {env env' : EnvironmentId}
    (henv : T env env' Δ) {es es' : List Expr} (hes : MovedExprs Δ es es') :
    MovedMachine (arrayNext bracket size vs es env stack s)
      (arrayNext bracket size vs' es' env' stack' s') := by
  cases hes with
  | cons he hes =>
      exact ⟨T, .value, .evaluate henv he, .cons (.arrayElement size hvs henv hes) hstack, hs⟩
  | nil =>
      have ha := moved_arrayElements size (List.rel_reverse hvs) bracket
      unfold arrayNext
      dsimp only
      revert ha
      generalize arrayElements size vs.reverse bracket = r,
        arrayElements size vs'.reverse bracket = r'
      rintro (ha | e)
      · obtain ⟨hid, hu⟩ := hs.store.newArray ha
        dsimp only
        rw [hid]
        exact moved_value (hs.withStore hu) hstack (.array _)
      · exact moved_fail hs hstack e

theorem moved_lambda {Δ : List Layer} {env env' : EnvironmentId} (henv : T env env' Δ)
    {d d' : FunctionDecl} (hd : MovedDecl (d.layers Δ) d d') :
    MovedMachine (lambda d env stack s) (lambda d' env' stack' s') := by
  unfold lambda
  rw [hd.name]
  cases hname : d.name with
  | none =>
      simp only [FunctionDecl.layers, hname] at hd
      obtain ⟨hf, hu⟩ := hs.store.newClosure (b := false) id henv hd nofun
      exact moved_value (hs.withStore hu) hstack (.callable (.function hf))
  | some x =>
      simp only [FunctionDecl.layers, hname] at hd
      obtain ⟨T', hT, hscope, hu⟩ := hs.store.child henv
      obtain ⟨hf, hu⟩ := hu.newClosure (b := false) id hscope hd nofun
      have hv : MovedValue T' _ _ := .callable (.function hf)
      exact moved_yieldWith (hs.withStore hu) (hstack.mono hT) hv (hu.defineReadOnly hscope x hv)

omit hs hstack in
theorem moved_superclassAt {u u' : Store} (hu : MovedStore T u u') {Δ : List Layer}
    {env env' : EnvironmentId} (henv : T env env' Δ) {d d' : Nat} (hd : Leads Δ d d')
    (x : Token) :
    SameResult (MovedClass T) (superclassAt u x d env) (superclassAt u' x d' env') := by
  have hv := hu.accessAt henv hd x
  unfold superclassAt
  revert hv
  generalize u.accessAt env d x = r, u'.accessAt env' d' x = r'
  rintro (hv | e)
  · cases hv with
    | callable hc =>
        cases hc with
        | «class» hc => exact .ok hc
        | _ => exact .error _
    | _ => exact .error _
  · exact .error e

omit hs hstack in
theorem moved_receiverAt {u u' : Store} (hu : MovedStore T u u') {Δ : List Layer}
    {env env' : EnvironmentId} (henv : T env env' Δ) {d d' : Nat}
    (hd : Leads Δ (d - 1) (d' - 1)) (x : Token) :
    SameResult (MovedInstance T) (receiverAt u x d env) (receiverAt u' x d' env') := by
  have hv := hu.accessAt henv hd (.implicitAt Store.receiverName x)
  unfold receiverAt
  revert hv
  generalize u.accessAt env (d - 1) _ = r, u'.accessAt env' (d' - 1) _ = r'
  rintro (hv | e)
  · cases hv with
    | «instance» hi => exact .ok hi
    | _ => exact .error _
  · exact .error e

omit hs hstack in
theorem moved_superMethod {u u' : Store} (hu : MovedStore T u u') {Δ : List Layer}
    {env env' : EnvironmentId} (henv : T env env' Δ) {d d' : Option Nat}
    (hd : Option.Rel (fun d d' => Leads Δ d d' ∧ Leads Δ (d - 1) (d' - 1)) d d') (x y : Token) :
    SameResult (fun m m' => MovedMethod T m.1 m'.1 ∧ MovedInstance T m.2 m'.2)
      (superMethod u x y d env) (superMethod u' x y d' env') := by
  cases hd with
  | none => exact .error _
  | @some d d' hd =>
      have hc := moved_superclassAt hu henv hd.1 x
      have hi := moved_receiverAt hu henv hd.2 x
      unfold superMethod
      dsimp only
      revert hc hi
      generalize superclassAt u x d env = r, superclassAt u' x d' env' = r',
        receiverAt u x d env = i, receiverAt u' x d' env' = i'
      rintro (hc | e) (hi | e')
      · have hm := hc.findMethod? y.lexeme
        dsimp only
        revert hm
        generalize Class.findMethod? _ _ = o, Class.findMethod? _ _ = o'
        rintro (hm | _)
        · exact .ok ⟨hm, hi⟩
        · exact .error _
      · exact .error e'
      · exact .error e
      · exact .error e

theorem moved_evaluate {Δ : List Layer} {env env' : EnvironmentId} (henv : T env env' Δ)
    {e e' : Expr} (he : MovedExpr Δ e e') :
    MovedMachine (evaluate e env stack s) (evaluate e' env' stack' s') := by
  cases he with
  | literal v =>
      cases v with
      | nil => exact moved_value hs hstack .nil
      | boolean b => exact moved_value hs hstack (.boolean b)
      | number x => exact moved_value hs hstack (.number x)
      | string t => exact moved_value hs hstack (.string t)
  | grouping he => exact ⟨T, .value, .evaluate henv he, hstack, hs⟩
  | unary he => exact ⟨T, .value, .evaluate henv he, .cons (.unary _) hstack, hs⟩
  | binary hl hr =>
      exact ⟨T, .value, .evaluate henv hl, .cons (.binaryRight henv hr) hstack, hs⟩
  | logical hl hr => exact ⟨T, .value, .evaluate henv hl, .cons (.logical henv hr) hstack, hs⟩
  | «variable» hd => exact moved_yield hs hstack (hs.store.lookUp henv hd _)
  | assign hd hv => exact ⟨T, .value, .evaluate henv hv, .cons (.assign henv hd) hstack, hs⟩
  | call hf hes => exact ⟨T, .value, .evaluate henv hf, .cons (.callee henv hes) hstack, hs⟩
  | get ho => exact ⟨T, .value, .evaluate henv ho, .cons (.get _) hstack, hs⟩
  | set ho hv => exact ⟨T, .value, .evaluate henv ho, .cons (.setObject henv hv) hstack, hs⟩
  | receiver hd => exact moved_yield hs hstack (hs.store.lookUp henv hd _)
  | @superMethod _ x y d d' hd =>
      have hr := moved_superMethod hs.store henv hd x y
      unfold evaluate
      dsimp only
      revert hr
      generalize superMethod s.store x y d env = r, superMethod s'.store x y d' env' = r'
      rintro (⟨hf, hi⟩ | e)
      · obtain ⟨T', hT, hf, hu⟩ := hs.store.bindMethod hf hi
        exact moved_value (hs.withStore hu) (hstack.mono hT) (.callable (.function hf))
      · exact moved_fail hs hstack e
  | function hd => exact moved_lambda hs hstack henv hd
  | array hsize hes =>
      cases hsize with
      | none => exact moved_arrayNext hs hstack _ none .nil henv hes
      | some he => exact ⟨T, .value, .evaluate henv he, .cons (.arraySize henv hes) hstack, hs⟩
  | index ho hi =>
      exact ⟨T, .value, .evaluate henv ho, .cons (.indexObject henv hi) hstack, hs⟩
  | setIndex ho hi he =>
      exact ⟨T, .value, .evaluate henv ho, .cons (.setIndexObject henv hi he) hstack, hs⟩

end

/-! ## Statements -/

section
variable {l : InnerLoop} (hstack : MovedStack T (.done l) stack stack')
include hstack

/-- Both machines test the condition of a loop, whether its step was moved or not. -/
theorem moved_loop {Δ : List Layer} {env env' : EnvironmentId} (henv : T env env' Δ)
    {c c' : Expr} {b b' : Stmt} {e e' : Option Expr}
    (hloop : MovedStmt Δ l (.whileLoop c b e) (.whileLoop c' b' e')) :
    MovedMachine (loop c b e env stack s) (loop c' b' e' env' stack' s') := by
  have hc : MovedExpr Δ c c' := by
    cases hloop with
    | whileLoop hc _ _ => exact hc
    | movedLoop hc _ _ => exact hc
  exact ⟨T, .value, .evaluate henv hc, .cons (.loopTest henv hloop) hstack, hs⟩

theorem moved_loopNext {Δ : List Layer} {env env' : EnvironmentId} (henv : T env env' Δ)
    {c c' : Expr} (hc : MovedExpr Δ c c') {b b' : Stmt} (hb : MovedStmt Δ .kept b b')
    {e e' : Option Expr} (he : MovedOptionExpr Δ e e') :
    MovedMachine (loopNext c b e env stack s) (loopNext c' b' e' env' stack' s') := by
  cases he with
  | none => exact moved_loop hs hstack henv (.whileLoop hc hb .none)
  | some he =>
      exact ⟨T, .value, .evaluate henv he, .cons (.loopStep henv hc hb (.some he)) hstack, hs⟩

omit hs hstack in
theorem moved_makeMethods {u u' : Store} (hu : MovedStore T u u') {Δ : List Layer}
    {env env' : EnvironmentId} (henv : T env env' (.own :: Δ)) {t t' : Table Closure}
    (ht : LikeTable (MovedMethod T) t t') {ds ds' : List FunctionDecl}
    (hds : MovedDecls (.own :: .own :: Δ) ds ds') :
    LikeTable (MovedMethod T) (makeMethods u env t ds).1 (makeMethods u' env' t' ds').1 ∧
      MovedStore T (makeMethods u env t ds).2 (makeMethods u' env' t' ds').2 := by
  induction ds generalizing ds' u u' t t' with
  | nil =>
      cases hds
      exact ⟨ht, hu⟩
  | cons d ds ih =>
      cases hds with
      | @cons _ _ d' _ _ hd hds =>
          have hinit : d'.isInitializer = d.isInitializer := by
            simp only [FunctionDecl.isInitializer, FunctionDecl.lexeme?, hd.name]
          simp only [makeMethods, hd.name, hinit]
          cases d.name with
          | none => exact ih hu ht hds
          | some x =>
              obtain ⟨hf, hu⟩ := hu.newClosure (b := d.isInitializer) (.own :: ·) henv hd
                fun _ => .here
              exact ih hu (ht.set x.lexeme hf) hds

omit hs in
theorem moved_finishClass {T₀ : Twins} (hs : MovedState T₀ s s') {env env' : EnvironmentId}
    {Δ₀ : List Layer} (henv : T env env' (.own :: Δ₀)) (x : Token) {c c' : Option Class}
    (hc : Option.Rel (MovedClass T) c c') {Δ : List Layer} {scope scope' : EnvironmentId}
    (hscope : T scope scope' (.own :: Δ)) {ms ms' : List FunctionDecl}
    (hms : MovedDecls (.own :: .own :: Δ) ms ms') {u u' : Store} (hu : MovedStore T u u') :
    MovedMachine (finishClass x c ms env scope u stack s)
      (finishClass x c' ms' env' scope' u' stack' s') := by
  obtain ⟨ht, hu⟩ := moved_makeMethods hu hscope .nil hms
  have hid : (makeMethods u' scope' [] ms').2.newIdentity.1 =
      (makeMethods u scope [] ms).2.newIdentity.1 := hu.identities
  have hclass : ∀ i, MovedClass T (.mk i x c (makeMethods u scope [] ms).1)
      (.mk i x c' (makeMethods u' scope' [] ms').1) := by
    intro i
    cases hc with
    | none => exact .base ht
    | some hc => exact .derived hc ht
  unfold finishClass
  dsimp only
  rw [hid]
  exact moved_doneWith ((hs.withStore hu.newIdentity).note _ _) hstack
    (hu.newIdentity.define henv x (.callable (.class (hclass _))))

/-- The methods of a class with a superclass have one scope more around them. -/
theorem moved_defineClass {Δ : List Layer} {env env' : EnvironmentId}
    (henv : T env env' (.own :: Δ)) (x : Token) {c c' : Option Class}
    (hc : Option.Rel (MovedClass T) c c') {ms ms' : List FunctionDecl}
    (hms : MovedDecls (c.elim (.own :: .own :: Δ) fun _ => .own :: .own :: .own :: Δ) ms ms') :
    MovedMachine (defineClass x c ms env stack s) (defineClass x c' ms' env' stack' s') := by
  cases hc with
  | none => exact moved_finishClass hstack hs henv x .none henv hms hs.store
  | some hc =>
      have hv : MovedValue T _ _ := .callable (.class hc)
      obtain ⟨T', hT, hscope, hu⟩ := hs.store.childWith henv superName hv
      rw [defineClass_some, defineClass_some]
      exact moved_finishClass (hstack.mono hT) hs (hT _ _ _ henv) x (.some (hc.mono hT)) hscope
        hms hu

theorem moved_printValue {v v' : Value} (hv : MovedValue T v v') :
    MovedMachine (printValue v stack s) (printValue v' stack' s') := by
  unfold printValue
  rw [hs.store.pieces hv, hs.output]
  split
  · exact moved_done (hs.withOutput _) hstack
  · exact moved_fail (hs.withOutput _) hstack _

omit hs hstack in
/-- A superclass that is a name is blamed at that name. -/
theorem MovedExpr.name? {Δ : List Layer} {e e' : Expr} (he : MovedExpr Δ e e') :
    e'.name? = e.name? := by
  cases he <;> rfl

theorem moved_execute {Δ : List Layer} {env env' : EnvironmentId} (henv : T env env' Δ)
    {st st' : Stmt} (hst : MovedStmt Δ l st st') :
    MovedMachine (execute st env stack s) (execute st' env' stack' s') := by
  cases hst with
  | print he => exact ⟨T, .value, .evaluate henv he, .cons .print hstack, hs⟩
  | expression he => exact ⟨T, .value, .evaluate henv he, .cons .discard hstack, hs⟩
  | varDecl he =>
      cases he with
      | none => exact moved_doneWith hs hstack (hs.store.define henv _ .nil)
      | some he => exact ⟨T, .value, .evaluate henv he, .cons (.varDecl henv) hstack, hs⟩
  | letDecl he => exact ⟨T, .value, .evaluate henv he, .cons (.letDecl henv) hstack, hs⟩
  | block hbody =>
      obtain ⟨T', hT, hinner, hu⟩ := hs.store.child henv
      exact moved_done (hs.withStore hu) (.cons (.sequence hinner hbody) (hstack.mono hT))
  | branch he ha hb =>
      exact ⟨T, .value, .evaluate henv he, .cons (.branch henv ha hb) hstack, hs⟩
  | whileLoop hc hb he => exact moved_loop hs hstack henv (.whileLoop hc hb he)
  | movedLoop hc hb he => exact moved_loop hs hstack henv (.movedLoop hc hb he)
  | functionDecl hd =>
      obtain ⟨hf, hu⟩ := hs.store.newClosure (b := false) id henv hd nofun
      simp only [execute, hd.name]
      split
      · exact moved_doneWith (hs.withStore hu) hstack
          (hu.define henv _ (.callable (.function hf)))
      · exact moved_done (hs.withStore hu) hstack
  | unnamed hname hd =>
      obtain ⟨-, hu⟩ := hs.store.newClosure (b := false) id henv hd nofun
      simp only [execute, hd.name, hname]
      exact moved_done (hs.withStore hu) hstack
  | classDecl he hms =>
      cases he with
      | none => exact moved_defineClass hs hstack henv _ .none hms
      | some he =>
          simp only [execute, he.name?]
          exact ⟨T, .value, .evaluate henv he, .cons (.superclass henv hms) hstack, hs⟩
  | returnWith he =>
      cases he with
      | none => exact ⟨T, _, .returning .nil, hstack, hs⟩
      | some he => exact ⟨T, .value, .evaluate henv he, .cons .returnWith hstack, hs⟩
  | breakLoop hl => exact ⟨T, _, .breaking hl, hstack, hs⟩
  | continueLoop => exact ⟨T, _, .continuing, hstack, hs⟩
  | moduleDecl hbody =>
      obtain ⟨T', hT, hmembers, hu⟩ := hs.store.child henv
      exact moved_done (hs.withStore hu) (.cons (.sequence hmembers hbody)
        (.cons (.moduleBody hmembers (hT _ _ _ henv)) (hstack.mono hT)))

end

/-! ## Values and frames -/

section
variable (hstack : MovedStack T .value stack stack')
include hstack

theorem moved_get (x : Token) {v v' : Value} (hv : MovedValue T v v') :
    MovedMachine (Machine.resume v (.get x) stack s) (Machine.resume v' (.get x) stack' s') := by
  cases hv with
  | «instance» hi =>
      have hp := hs.store.property? hi x.lexeme
      simp only [Machine.resume, Store.get]
      revert hp
      generalize s.store.property? _ _ = o, s'.store.property? _ _ = o'
      rintro (hp | _)
      · obtain ⟨T', hT, hv, hu⟩ := hs.store.valueOf hi hp
        exact moved_value (hs.withStore hu) (hstack.mono hT) hv
      · exact moved_fail hs hstack _
  | module hm =>
      obtain ⟨Δ, hmembers⟩ := hm.environment
      have hv := hs.store.getLocal? hmembers x.lexeme
      simp only [Machine.resume]
      revert hv
      generalize s.store.getLocal? _ _ = v, s'.store.getLocal? _ _ = v'
      rintro (hv | _)
      · exact moved_value hs hstack hv
      · exact moved_fail hs hstack _
  | _ => exact moved_fail hs hstack _

theorem moved_setMember {m m' : Module} (hm : MovedModule T m m') (x : Token) {v v' : Value}
    (hv : MovedValue T v v') :
    MovedMachine (Machine.resume v (.setMember m x) stack s)
      (Machine.resume v' (.setMember m' x) stack' s') := by
  obtain ⟨Δ, hmembers⟩ := hm.environment
  have hu := hs.store.assignLocal? hmembers x.lexeme hv
  simp only [Machine.resume, hs.store.isReadOnly hmembers]
  split
  · exact moved_fail hs hstack _
  · revert hu
    generalize s.store.assignLocal? _ _ v = u, s'.store.assignLocal? _ _ v' = u'
    rintro (hu | _)
    · exact moved_value (hs.withStore hu) hstack hv
    · exact moved_fail hs hstack _

theorem moved_index (a : ArrayId) (bracket : Token) {v v' : Value} (hv : MovedValue T v v') :
    MovedMachine (Machine.resume v (.index a bracket) stack s)
      (Machine.resume v' (.index a bracket) stack' s') := by
  simp only [Machine.resume, hs.store.length, hv.akin.asIndex]
  split
  · rename_i i _
    have hv := hs.store.element? a i
    revert hv
    generalize s.store.element? a i = v, s'.store.element? a i = v'
    rintro (hv | _)
    · exact moved_value hs hstack hv
    · exact moved_fail hs hstack _
  · exact moved_fail hs hstack _

theorem moved_setIndex (a : ArrayId) (i : Nat) (bracket : Token) {v v' : Value}
    (hv : MovedValue T v v') :
    MovedMachine (Machine.resume v (.setIndex a i bracket) stack s)
      (Machine.resume v' (.setIndex a i bracket) stack' s') := by
  have hu := hs.store.setElement? a i hv
  simp only [Machine.resume, hs.store.length]
  revert hu
  generalize s.store.setElement? a i v = u, s'.store.setElement? a i v' = u'
  rintro (hu | _)
  · exact moved_value (hs.withStore hu) hstack hv
  · exact moved_fail hs hstack _

end

/-- The test of a loop is done with.  If the step was moved, the second machine has the
block around the body to enter. -/
theorem moved_loopTest {l : InnerLoop} (hstack : MovedStack T (.done l) stack stack')
    {Δ : List Layer} {env env' : EnvironmentId} (henv : T env env' Δ) {c c' : Expr}
    {b b' : Stmt} {e e' : Option Expr}
    (hloop : MovedStmt Δ l (.whileLoop c b e) (.whileLoop c' b' e')) {v v' : Value}
    (hv : MovedValue T v v') :
    Follows s (Machine.resume v (.loopTest c b e env) stack s)
      (Machine.resume v' (.loopTest c' b' e' env') stack' s') := by
  simp only [Machine.resume, hv.akin.isTruthy]
  split
  · cases hloop with
    | whileLoop hc hb he =>
        exact MovedMachine.follows
          ⟨T, _, .execute henv hb, .cons (.loopBody henv hc hb he) hstack, hs⟩ s
    | movedLoop hc hb he =>
        obtain ⟨T', hT, hinner, hu⟩ := hs.store.addedChild henv
        have hs' : MovedState T' s { s' with store := (s'.store.child env').2 } :=
          ⟨hu, hs.callDepth, hs.output, hs.clock, hs.ticks⟩
        refine .later hs (.later hs' (MovedMachine.follows ?_ s))
        exact ⟨T', _, .execute hinner hb,
          .movedBody (hT _ _ _ henv) hinner hc hb he (hstack.mono hT), hs'⟩
  · exact (moved_done hs hstack).follows s

/-- Frames that belong together make the same of a value, but at the test of a loop. -/
theorem moved_resume_kept {b : Wait} {frame frame' : Frame}
    (hf : MovedFrame T .value b frame frame') (hstack : MovedStack T b stack stack')
    (htest : ¬ ∃ c b e env, frame = .loopTest c b e env) {v v' : Value}
    (hv : MovedValue T v v') :
    MovedMachine (Machine.resume v frame stack s) (Machine.resume v' frame' stack' s') := by
  cases hf with
  | loopTest _ _ => exact absurd ⟨_, _, _, _, rfl⟩ htest
  | unary op => exact moved_yield hs hstack (moved_applyUnary op hv)
  | binaryRight henv he =>
      exact ⟨T, .value, .evaluate henv he, .cons (.binary _ hv) hstack, hs⟩
  | binary op hu =>
      exact moved_yield hs hstack (moved_applyBinary op hu hv (hs.store.equals hu hv))
  | logical henv he =>
      simp only [Machine.resume, hv.akin.decidedBy]
      split
      · exact moved_value hs hstack hv
      · exact ⟨T, .value, .evaluate henv he, hstack, hs⟩
  | assign henv hd => exact moved_yieldWith hs hstack hv (hs.store.change henv hd _ hv)
  | callee henv hes => exact moved_applyNext hs hstack hv .nil _ henv hes
  | argument hc hvs henv hes => exact moved_applyNext hs hstack hc (.cons hv hvs) _ henv hes
  | get x => exact moved_get hs hstack x hv
  | setObject henv he =>
      cases hv with
      | «instance» hi =>
          exact ⟨T, .value, .evaluate henv he, .cons (.setField _ hi) hstack, hs⟩
      | module hm => exact ⟨T, .value, .evaluate henv he, .cons (.setMember _ hm) hstack, hs⟩
      | _ => exact moved_fail hs hstack _
  | setField x hi =>
      exact moved_value (hs.withStore (hs.store.setField hi.id _ hv)) hstack hv
  | setMember x hm => exact moved_setMember hs hstack hm x hv
  | arraySize henv hes =>
      simp only [Machine.resume, hv.akin.arraySize]
      split
      · exact moved_arrayNext hs hstack _ _ .nil henv hes
      · exact moved_fail hs hstack _
  | arrayElement size hvs henv hes =>
      exact moved_arrayNext hs hstack _ size (.cons hv hvs) henv hes
  | indexObject henv hi =>
      simp only [Machine.resume, hv.akin.asArray]
      split
      · exact ⟨T, .value, .evaluate henv hi, .cons (.index _ _) hstack, hs⟩
      · exact moved_fail hs hstack _
  | index a bracket => exact moved_index hs hstack a bracket hv
  | setIndexObject henv hi he =>
      simp only [Machine.resume, hv.akin.asArray]
      split
      · exact ⟨T, .value, .evaluate henv hi, .cons (.setIndexAt _ henv he) hstack, hs⟩
      · exact moved_fail hs hstack _
  | setIndexAt a henv he =>
      simp only [Machine.resume, hs.store.length, hv.akin.asIndex]
      split
      · exact ⟨T, .value, .evaluate henv he, .cons (.setIndex a _ _) hstack, hs⟩
      · exact moved_fail hs hstack _
  | setIndex a i bracket => exact moved_setIndex hs hstack a i bracket hv
  | print => exact moved_printValue hs hstack hv
  | discard => exact moved_done hs hstack
  | varDecl henv => exact moved_doneWith hs hstack (hs.store.define henv _ hv)
  | letDecl henv => exact moved_doneWith hs hstack (hs.store.defineReadOnly henv _ hv)
  | branch henv ha hb =>
      simp only [Machine.resume, hv.akin.isTruthy]
      split
      · exact ⟨T, _, .execute henv ha, hstack, hs⟩
      · cases hb with
        | none => exact moved_done hs hstack
        | some hb => exact ⟨T, _, .execute henv hb, hstack, hs⟩
  | loopStep henv hc hb he => exact moved_loop hs hstack henv (.whileLoop hc hb he)
  | superclass henv hms =>
      cases hv with
      | callable hc =>
          cases hc with
          | «class» hc => exact moved_defineClass hs hstack henv _ (.some hc) hms
          | _ => exact moved_fail hs hstack _
      | _ => exact moved_fail hs hstack _
  | returnWith => exact ⟨T, _, .returning hv, hstack, hs⟩
  | constructed hi => exact moved_value hs hstack (.instance hi)
  | activeCall _ =>
      simp only [Machine.resume, hs.callDepth]
      exact moved_value (hs.withCallDepth _) hstack hv

/-- Frames that belong together catch the same signals. -/
theorem moved_unwind_kept {a b : Wait} {frame frame' : Frame}
    (hf : MovedFrame T a b frame frame') (hstack : MovedStack T b stack stack')
    {g g' : Signal} (hg : MovedControl T a (.unwind g) (.unwind g')) :
    MovedMachine (unwind g frame stack s) (unwind g' frame' stack' s') := by
  cases hg with
  | failure e =>
      cases hf with
      | activeCall paren =>
          simp only [unwind, hs.callDepth]
          exact moved_fail (hs.withCallDepth _) hstack _
      | _ => exact moved_fail hs hstack e
  | returning hv =>
      cases hf with
      | functionBody hf => exact moved_yield hs hstack (moved_result hf hv hs.store)
      | _ => exact ⟨T, _, .returning hv, hstack, hs⟩
  | breaking hl =>
      cases hf with
      | sequence _ _ => exact ⟨T, _, .breaking hl, hstack, hs⟩
      | loopBody _ _ _ _ => exact moved_done hs hstack
      | moduleBody _ _ | functionBody _ => exact absurd rfl hl
  | continuing =>
      cases hf with
      | sequence _ _ => exact ⟨T, _, .continuing, hstack, hs⟩
      | loopBody henv hc hb he => exact moved_loopNext hs hstack henv hc hb he

/-- Values that belong together are handed to stacks that do. -/
theorem moved_resume {frame frame' : Frame}
    (hstack : MovedStack T .value (frame :: stack) (frame' :: stack')) {v v' : Value}
    (hv : MovedValue T v v') :
    Follows s (Machine.resume v frame stack s) (Machine.resume v' frame' stack' s') := by
  cases hstack with
  | movedStep henv hc hb he hstack =>
      -- out of the block around the body, and back to the test
      refine .later hs (.later hs (MovedMachine.follows ?_ s))
      exact moved_loop hs hstack henv (.movedLoop hc hb he)
  | cons hf hstack =>
      by_cases htest : ∃ c b e env, frame = .loopTest c b e env
      · obtain ⟨c, b, e, env, rfl⟩ := htest
        cases hf with
        | loopTest henv hloop => exact moved_loopTest hs hstack henv hloop hv
      · exact (moved_resume_kept hs hf hstack htest hv).follows s

/-- Frames that belong together go on after a statement. -/
theorem moved_proceed {l : InnerLoop} {frame frame' : Frame}
    (hstack : MovedStack T (.done l) (frame :: stack) (frame' :: stack')) :
    Follows s (proceed frame stack s) (proceed frame' stack' s') := by
  cases hstack with
  | movedBody henv hinner hc hb he hstack =>
      -- the second machine comes to the step as to one more statement
      refine .later hs (MovedMachine.follows ?_ s)
      exact ⟨T, .value, .evaluate hinner he, .movedStep henv hc hb he hstack, hs⟩
  | cons hf hstack =>
      refine MovedMachine.follows ?_ s
      cases hf with
      | sequence henv hsts =>
          cases hsts with
          | nil => exact moved_done hs hstack
          | cons hst hsts =>
              exact ⟨T, _, .execute henv hst, .cons (.sequence henv hsts) hstack, hs⟩
      | loopBody henv hc hb he => exact moved_loopNext hs hstack henv hc hb he
      | moduleBody hmembers henv =>
          exact moved_doneWith (hs.note _ _) hstack
            (hs.store.defineReadOnly henv _ (.module ⟨rfl, _, hmembers⟩))
      | functionBody hf => exact moved_yield hs hstack (moved_result hf .nil hs.store)

/-- Signals that belong together are offered to stacks that do. -/
theorem moved_unwind {a : Wait} {frame frame' : Frame}
    (hstack : MovedStack T a (frame :: stack) (frame' :: stack')) {g g' : Signal}
    (hg : MovedControl T a (.unwind g) (.unwind g')) :
    Follows s (unwind g frame stack s) (unwind g' frame' stack' s') := by
  cases hstack with
  | movedBody henv hinner hc hb he hstack =>
      refine .later hs (MovedMachine.follows ?_ s)
      cases hg with
      | failure e => exact moved_fail hs hstack e
      | returning hv => exact ⟨T, _, .returning hv, hstack, hs⟩
      | breaking _ => exact moved_done hs hstack
  | movedStep henv hc hb he hstack =>
      cases hg with
      | failure e => exact .later hs (.later hs ((moved_fail hs hstack e).follows s))
  | cons hf hstack => exact (moved_unwind_kept hs hf hstack hg).follows s

end

/-! ## Moves and runs -/

/-- A signal is offered to the top frame, if there is one. -/
theorem moved_signal {T : Twins} {a : Wait} {g g' : Signal}
    (hg : MovedControl T a (.unwind g) (.unwind g')) {stack stack' : List Frame}
    (hstack : MovedStack T a stack stack') {s s' : State} (hs : MovedState T s s') :
    Follows s (step ⟨.unwind g, stack, s⟩) (step ⟨.unwind g', stack', s'⟩) := by
  cases stack with
  | nil =>
      cases hstack
      exact MovedMachine.follows ⟨T, a, hg, .nil a, hs⟩ s
  | cons frame stack =>
      cases stack' with
      | nil => cases hstack
      | cons frame' stack' => exact moved_unwind hs hstack hg

theorem moved_step {m m' : Machine} (h : MovedMachine m m') :
    Follows m.state m.step m'.step := by
  obtain ⟨control, stack, s⟩ := m
  obtain ⟨control', stack', s'⟩ := m'
  obtain ⟨T, a, hcontrol, hstack, hs⟩ := h
  dsimp only at hcontrol hstack hs
  cases hcontrol with
  | evaluate henv he => exact (moved_evaluate hs hstack henv he).follows s
  | execute henv hst => exact (moved_execute hs hstack henv hst).follows s
  | value hv =>
      cases stack with
      | nil =>
          cases hstack
          exact (moved_value hs (.nil _) hv).follows s
      | cons frame stack =>
          cases stack' with
          | nil => cases hstack
          | cons frame' stack' => exact moved_resume hs hstack hv
  | @done l =>
      cases stack with
      | nil =>
          cases hstack
          exact (moved_done (l := l) hs (.nil _)).follows s
      | cons frame stack =>
          cases stack' with
          | nil => cases hstack
          | cons frame' stack' => exact moved_proceed hs hstack
  | failure e => exact moved_signal (.failure e) hstack hs
  | returning hv => exact moved_signal (.returning hv) hstack hs
  | breaking hl => exact moved_signal (.breaking hl) hstack hs
  | continuing => exact moved_signal .continuing hstack hs

/-- After any number of moves of the first machine the second one can come to belong to it,
and has made as many moves or more. -/
theorem moved_run {m m' : Machine} (h : MovedMachine m m') (n : Nat) :
    ∃ k, n ≤ k ∧ MovedMachine (run n m) (run k m') := by
  induction n with
  | zero => exact ⟨0, Nat.le_refl 0, h⟩
  | succ n ih =>
      obtain ⟨k, hk, hm⟩ := ih
      obtain ⟨j, hj, -⟩ := moved_step hm
      refine ⟨k + (j + 1), by omega, ?_⟩
      rw [run_succ_right, run_add, run_succ]
      exact hj

/-- Wherever the second machine is, the first one can come to a state that its state
belongs to; and the machines belong together if the second one has come to its end. -/
theorem moved_run_back {m m' : Machine} (h : MovedMachine m m') (k : Nat) :
    ∃ n, (∃ T, MovedState T (run n m).state (run k m').state) ∧
      ((run k m').hasHalted = true → MovedMachine (run n m) (run k m')) ∧
      ((run k m').hasHalted = false → (run n m).hasHalted = false) := by
  induction k using Nat.strong_induction_on generalizing m m' with
  | _ k ih =>
  have hstate : ∀ {u u' : Machine}, MovedMachine u u' → ∃ T, MovedState T u.state u'.state := by
    rintro u u' ⟨T, _, -, -, hs⟩
    exact ⟨T, hs⟩
  cases k with
  | zero =>
      refine ⟨0, hstate h, fun _ => h, fun hgoes => ?_⟩
      exact h.hasHalted.symm.trans hgoes
  | succ k =>
      obtain ⟨j, hj, hbetween⟩ := moved_step h
      rw [run_succ]
      rcases Nat.lt_or_ge k j with hlt | hge
      · -- on the way to where the machines belong together again
        cases hhalted : (run k m'.step).hasHalted with
        | true =>
            rw [run_of_le hhalted (Nat.le_of_lt hlt)] at hj
            refine ⟨1, ?_⟩
            rw [run_succ, run_zero]
            exact ⟨hstate hj, fun _ => hj, nofun⟩
        | false =>
            refine ⟨0, hbetween k hlt, nofun, fun _ => ?_⟩
            cases hm : m.hasHalted with
            | false => exact hm
            | true =>
                have hm' := h.hasHalted.trans hm
                rw [step_of_hasHalted hm', run_of_hasHalted hm', hm'] at hhalted
                cases hhalted
      · obtain ⟨i, rfl⟩ := Nat.exists_eq_add_of_le hge
        obtain ⟨n, hn⟩ := ih i (by omega) hj
        rw [run_add]
        exact ⟨n + 1, by rwa [run_succ]⟩

end Lox
