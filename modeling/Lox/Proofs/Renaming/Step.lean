/-
# Moves keep machines together

One lemma for each function of the machine, in the order of `Lox.Machine`.
`renamed_step` puts them together, and `renamed_run` goes on for as many moves as are
made: two machines that belong together make the same moves whatever they do.
-/
import Lox.Proofs.Renaming.Machine

namespace Lox

open Machine

section
variable {ρ : Renaming} {B : Bearings} {stack stack' : List Frame}
  (hstack : List.Forall₂ (RenamedFrame ρ B) stack stack') {s s' : State}
  (hs : RenamedState ρ B s s')
include hstack hs

/-! ## Moves that leave the stack below alone -/

theorem renamed_value {v v' : Value} (hv : RenamedValue ρ B v v') :
    RenamedMachine ρ ⟨.value v, stack, s⟩ ⟨.value v', stack', s'⟩ :=
  ⟨B, .value hv, hstack, hs⟩

theorem renamed_done : RenamedMachine ρ ⟨.done, stack, s⟩ ⟨.done, stack', s'⟩ :=
  ⟨B, .done, hstack, hs⟩

theorem renamed_fail {e e' : RuntimeError} (he : RenamedError ρ e e') :
    RenamedMachine ρ (fail e stack s) (fail e' stack' s') :=
  ⟨B, .unwind (.failure he), hstack, hs⟩

theorem renamed_yield {r r' : Except RuntimeError Value}
    (hr : RenamedResult ρ (RenamedValue ρ B) r r') :
    RenamedMachine ρ (yield r stack s) (yield r' stack' s') := by
  cases hr with
  | ok hv => exact renamed_value hstack hs hv
  | error he => exact renamed_fail hstack hs he

theorem renamed_yieldWith {v v' : Value} (hv : RenamedValue ρ B v v')
    {r r' : Except RuntimeError Store} (hr : RenamedResult ρ (RenamedStore ρ B) r r') :
    RenamedMachine ρ (yieldWith v r stack s) (yieldWith v' r' stack' s') := by
  cases hr with
  | ok hu => exact renamed_value hstack (hs.withStore hu) hv
  | error he => exact renamed_fail hstack hs he

theorem renamed_doneWith {r r' : Except RuntimeError Store}
    (hr : RenamedResult ρ (RenamedStore ρ B) r r') :
    RenamedMachine ρ (doneWith r stack s) (doneWith r' stack' s') := by
  cases hr with
  | ok hu => exact renamed_done hstack (hs.withStore hu)
  | error he => exact renamed_fail hstack hs he

/-! ## Names that are declared -/

omit hstack hs in
/-- A name that is declared so many scopes inside of the renamed one is one of the
environment there. -/
theorem names_here {u : Store} (h : Charted B u) {env : EnvironmentId} {k : Option Nat}
    (hk : B env k) {x x' : Token} (hx : ρ.Names (k = some 0) x x') :
    ρ.Names (B env (some 0)) x x' := by
  rwa [h.here hk]

/-! ## Calls -/

omit hstack hs in
theorem renamed_bindArguments {u u' : Store} (hu : RenamedStore ρ B u u') {env : EnvironmentId}
    {ps ps' : List Token} (hps : List.Forall₂ (ρ.Names (B env (some 0))) ps ps')
    {vs vs' : List Value} (hvs : List.Forall₂ (RenamedValue ρ B) vs vs') :
    RenamedStore ρ B (bindArguments u env ps vs).1 (bindArguments u' env ps' vs').1 ∧
      Option.Rel (RenamedError ρ) (bindArguments u env ps vs).2
        (bindArguments u' env ps' vs').2 := by
  induction hps generalizing u u' vs vs' with
  | nil =>
      simp only [bindArguments]
      exact ⟨hu, .none⟩
  | cons hp _ ih =>
      cases hvs with
      | nil =>
          simp only [bindArguments]
          exact ⟨hu, .none⟩
      | cons hv hvs =>
          have hd := hu.define hp hv
          simp only [bindArguments]
          revert hd
          generalize u.define env _ _ = r, u'.define env _ _ = r'
          rintro (hu | he)
          · exact ih hu hvs
          · exact ⟨hu, .some he⟩

/-- The environment of a call has the bearings of the function's scope. -/
theorem renamed_enter {f f' : Closure} (hf : RenamedClosure ρ B id f f') {vs vs' : List Value}
    (hvs : List.Forall₂ (RenamedValue ρ B) vs vs') :
    RenamedMachine ρ (enter f vs stack s) (enter f' vs' stack' s') := by
  obtain ⟨identity, ⟨keyword, name, ps, body⟩, e, b⟩ := f
  obtain ⟨identity', d', e', b'⟩ := f'
  obtain ⟨k, hk, hd⟩ := hf.declaration
  obtain rfl : e' = e := hf.environment
  generalize hd₀ : id k = k₀ at hd
  cases hd with
  | @mk _ i _ _ _ ps' _ body' hi hps hbody =>
      subst hd₀
      obtain ⟨B', hB, henv, hin, hu⟩ := hs.store.child (hi.symm ▸ hk : B e' (outer i))
      have hb := renamed_bindArguments hu (hps.imp fun _ _ => names_here hu.charted hin)
        (renamed_values_mono hB hvs)
      simp only [enter, FunctionDecl.params, FunctionDecl.body]
      rw [henv]
      revert hb
      generalize bindArguments _ _ ps vs = r, bindArguments _ _ ps' vs' = r'
      obtain ⟨u, o⟩ := r
      obtain ⟨u', o'⟩ := r'
      rintro ⟨hu, he | _⟩
      · exact renamed_fail (renamed_stack_mono hB hstack) (hs.withStore hu) he
      · exact renamed_done (.cons (.sequence hin hbody)
          (.cons (.functionBody (hf.mono hB)) (renamed_stack_mono hB hstack))) (hs.withStore hu)

theorem renamed_construct {c c' : Class} (hc : RenamedClass ρ B c c') {vs vs' : List Value}
    (hvs : List.Forall₂ (RenamedValue ρ B) vs vs') :
    RenamedMachine ρ (construct c vs stack s) (construct c' vs' stack' s') := by
  obtain ⟨hi, hu⟩ := hs.store.newInstance hc
  have hm := hc.findMethod? FunctionDecl.initializerName
  unfold construct
  revert hm
  generalize c.findMethod? _ = o, c'.findMethod? _ = o'
  rintro (hm | _)
  · obtain ⟨B', hB, hf, hu⟩ := hu.bindMethod hm hi
    exact renamed_enter (.cons (.constructed (hi.mono hB)) (renamed_stack_mono hB hstack))
      (hs.withStore hu) hf (renamed_values_mono hB hvs)
  · exact renamed_value hstack (hs.withStore hu) (.instance hi)

omit hstack in
/-- Native functions have the same results. -/
theorem renamed_native (n : Native) {vs vs' : List Value}
    (hvs : List.Forall₂ (RenamedValue ρ B) vs vs') :
    RenamedResult ρ (RenamedValue ρ B) ((n.apply s.now s.store vs).mapError .unplaced)
      ((n.apply s'.now s'.store vs').mapError .unplaced) := by
  cases n with
  | clock =>
      simp only [Native.apply, hs.now]
      cases s.now with
      | seconds x => exact .ok (.number x)
      | wrong what => exact .error (.same _)
  | len =>
      cases hvs with
      | nil => exact .error (.same _)
      | cons hv _ =>
          cases hv with
          | array a =>
              simp only [Native.apply, Store.lengthOf, hs.store.length]
              exact .ok (.number _)
          | string t => exact .ok (.number _)
          | _ => exact .error (.same _)

theorem renamed_invoke {c c' : Callable} (hc : RenamedCallable ρ B c c') {vs vs' : List Value}
    (hvs : List.Forall₂ (RenamedValue ρ B) vs vs') :
    RenamedMachine ρ (invoke c vs stack s) (invoke c' vs' stack' s') := by
  cases hc with
  | function hf => exact renamed_enter hstack (hs.note _ _) hf hvs
  | «class» hc => exact renamed_construct hstack (hs.note _ _) hc hvs
  | native n => exact renamed_yield hstack (hs.note _ _).tick (renamed_native hs n hvs)

theorem renamed_apply {v v' : Value} (hv : RenamedValue ρ B v v') {vs vs' : List Value}
    (hvs : List.Forall₂ (RenamedValue ρ B) vs vs') (paren : Token) :
    RenamedMachine ρ (apply v vs paren stack s) (apply v' vs' paren stack' s') := by
  cases hv with
  | callable hc =>
      unfold apply
      simp only [hc.arity, ← hvs.length_eq, hs.callDepth]
      split
      · exact renamed_fail hstack hs (.same _)
      · split
        · exact renamed_fail hstack hs (.same _)
        · exact renamed_invoke (.cons (.activeCall paren) hstack) (hs.withCallDepth _) hc hvs
  | _ => exact renamed_fail hstack hs (.same _)

theorem renamed_applyNext {v v' : Value} (hv : RenamedValue ρ B v v') {vs vs' : List Value}
    (hvs : List.Forall₂ (RenamedValue ρ B) vs vs') (paren : Token) {k : Option Nat}
    {env : EnvironmentId} (hk : B env k) {es es' : List Expr} (hes : RenamedExprs ρ k es es') :
    RenamedMachine ρ (applyNext v vs paren es env stack s)
      (applyNext v' vs' paren es' env stack' s') := by
  cases hes with
  | nil => exact renamed_apply hstack hs hv (List.rel_reverse hvs) paren
  | cons he hes => exact ⟨B, .evaluate hk he, .cons (.argument hv hvs hk hes) hstack, hs⟩

omit hstack hs in
/-- The word `this` is never renamed. -/
theorem names_receiver {here : Prop} (site : Token) :
    ρ.Names here (.implicitAt Store.receiverName site) (.implicitAt Store.receiverName site) := by
  have hthis : TokenKind.ofWord Store.receiverName ≠ .identifier := by decide
  exact .reserved hthis

omit hstack hs in
theorem renamed_result {f f' : Closure} (hf : RenamedClosure ρ B id f f') {v v' : Value}
    (hv : RenamedValue ρ B v v') {u u' : Store} (hu : RenamedStore ρ B u u') :
    RenamedResult ρ (RenamedValue ρ B) (result f v u) (result f' v' u') := by
  obtain ⟨k, hk, hd⟩ := hf.declaration
  unfold result
  rw [hf.isInitializer, hf.environment, hd.keyword]
  split
  · exact hu.accessAt hk (names_receiver _)
  · exact .ok hv

/-! ## Expressions -/

theorem renamed_arrayNext (bracket : Token) (size : Option Nat) {vs vs' : List Value}
    (hvs : List.Forall₂ (RenamedValue ρ B) vs vs') {k : Option Nat} {env : EnvironmentId}
    (hk : B env k) {es es' : List Expr} (hes : RenamedExprs ρ k es es') :
    RenamedMachine ρ (arrayNext bracket size vs es env stack s)
      (arrayNext bracket size vs' es' env stack' s') := by
  cases hes with
  | cons he hes => exact ⟨B, .evaluate hk he, .cons (.arrayElement size hvs hk hes) hstack, hs⟩
  | nil =>
      have ha := renamed_arrayElements size (List.rel_reverse hvs) bracket
      unfold arrayNext
      dsimp only
      revert ha
      generalize arrayElements size vs.reverse bracket = r,
        arrayElements size vs'.reverse bracket = r'
      rintro (ha | he)
      · obtain ⟨hid, hu⟩ := hs.store.newArray ha
        dsimp only
        rw [hid]
        exact renamed_value hstack (hs.withStore hu) (.array _)
      · exact renamed_fail hstack hs he

theorem renamed_lambda {k : Option Nat} {env : EnvironmentId} (hk : B env k)
    {d d' : FunctionDecl} (hd : RenamedDecl ρ (d.around k) d d') :
    RenamedMachine ρ (lambda d env stack s) (lambda d' env stack' s') := by
  unfold lambda
  rw [hd.name]
  cases hname : d.name with
  | none =>
      simp only [FunctionDecl.around, hname] at hd
      obtain ⟨hf, hu⟩ := hs.store.newClosure id hk hd false
      exact renamed_value hstack (hs.withStore hu) (.callable (.function hf))
  | some x =>
      simp only [FunctionDecl.around, hname] at hd
      have hi : B env (outer (inner k)) := (outer_inner k).symm ▸ hk
      obtain ⟨B', hB, henv, hin, hu⟩ := hs.store.child hi
      obtain ⟨hf, hu⟩ := hu.newClosure id hin hd false
      have hx : ρ.Names (inner k = some 0) x x :=
        ⟨fun hh => absurd hh (inner_ne_zero k), fun _ => rfl⟩
      have hv : RenamedValue ρ B' _ _ := .callable (.function hf)
      dsimp only
      rw [henv]
      exact renamed_yieldWith (renamed_stack_mono hB hstack) (hs.withStore hu) hv
        (hu.defineReadOnly (names_here hu.charted hin hx) hv)

omit hstack hs in
theorem renamed_superclassAt {u u' : Store} (hu : RenamedStore ρ B u u') {k : Option Nat}
    {env : EnvironmentId} (hk : B env k) {d : Nat} {x : Token}
    (hx : ρ.Names (Renaming.Reaches k (some d)) x x) :
    RenamedResult ρ (RenamedClass ρ B) (superclassAt u x d env) (superclassAt u' x d env) := by
  have hv := hu.accessAt hk hx
  unfold superclassAt
  revert hv
  generalize u.accessAt env d x = r, u'.accessAt env d x = r'
  rintro (hv | he)
  · cases hv with
    | callable hc =>
        cases hc with
        | «class» hc => exact .ok hc
        | _ => exact .error (.same _)
    | _ => exact .error (.same _)
  · exact .error he

omit hstack hs in
theorem renamed_receiverAt {u u' : Store} (hu : RenamedStore ρ B u u') {k : Option Nat}
    {env : EnvironmentId} (hk : B env k) (d : Nat) (x : Token) :
    RenamedResult ρ (RenamedInstance ρ B) (receiverAt u x d env) (receiverAt u' x d env) := by
  have hv := hu.accessAt (d := d - 1) hk (names_receiver x)
  unfold receiverAt
  revert hv
  generalize u.accessAt env (d - 1) _ = r, u'.accessAt env (d - 1) _ = r'
  rintro (hv | he)
  · cases hv with
    | «instance» hi => exact .ok hi
    | _ => exact .error (.same _)
  · exact .error he

omit hstack hs in
theorem renamed_superMethod {u u' : Store} (hu : RenamedStore ρ B u u') {k d : Option Nat}
    {env : EnvironmentId} (hk : B env k) {x : Token} (hx : ρ.Names (Renaming.Reaches k d) x x)
    (y : Token) :
    RenamedResult ρ (fun m m' => RenamedClosure ρ B inner m.1 m'.1 ∧ RenamedInstance ρ B m.2 m'.2)
      (superMethod u x y d env) (superMethod u' x y d env) := by
  cases d with
  | none => exact .error (.same _)
  | some d =>
      have hc := renamed_superclassAt hu hk hx
      have hi := renamed_receiverAt hu hk d x
      unfold superMethod
      dsimp only
      revert hc hi
      generalize superclassAt u x d env = r, superclassAt u' x d env = r',
        receiverAt u x d env = i, receiverAt u' x d env = i'
      rintro (hc | he) (hi | he')
      · have hm := hc.findMethod? y.lexeme
        dsimp only
        revert hm
        generalize Class.findMethod? _ _ = o, Class.findMethod? _ _ = o'
        rintro (hm | _)
        · exact .ok ⟨hm, hi⟩
        · exact .error (.same _)
      · exact .error he'
      · exact .error he
      · exact .error he

theorem renamed_evaluate {k : Option Nat} {env : EnvironmentId} (hk : B env k) {e e' : Expr}
    (he : RenamedExpr ρ k e e') :
    RenamedMachine ρ (evaluate e env stack s) (evaluate e' env stack' s') := by
  cases he with
  | literal v =>
      cases v with
      | nil => exact renamed_value hstack hs .nil
      | boolean b => exact renamed_value hstack hs (.boolean b)
      | number x => exact renamed_value hstack hs (.number x)
      | string t => exact renamed_value hstack hs (.string t)
  | grouping he => exact ⟨B, .evaluate hk he, hstack, hs⟩
  | unary he => exact ⟨B, .evaluate hk he, .cons (.unary _) hstack, hs⟩
  | binary hl hr => exact ⟨B, .evaluate hk hl, .cons (.binaryRight hk hr) hstack, hs⟩
  | logical hl hr => exact ⟨B, .evaluate hk hl, .cons (.logical hk hr) hstack, hs⟩
  | «variable» hx => exact renamed_yield hstack hs (hs.store.lookUp hk hx)
  | assign hx hv => exact ⟨B, .evaluate hk hv, .cons (.assign hk hx) hstack, hs⟩
  | call hf hes => exact ⟨B, .evaluate hk hf, .cons (.callee hk hes) hstack, hs⟩
  | get ho => exact ⟨B, .evaluate hk ho, .cons (.get _) hstack, hs⟩
  | set ho hv => exact ⟨B, .evaluate hk ho, .cons (.setObject hk hv) hstack, hs⟩
  | receiver hx => exact renamed_yield hstack hs (hs.store.lookUp hk hx)
  | @superMethod _ x y d hx =>
      have hr := renamed_superMethod hs.store hk hx y
      unfold evaluate
      dsimp only
      revert hr
      generalize superMethod s.store x y d env = r, superMethod s'.store x y d env = r'
      rintro (⟨hf, hi⟩ | he)
      · obtain ⟨B', hB, hf, hu⟩ := hs.store.bindMethod hf hi
        exact renamed_value (renamed_stack_mono hB hstack) (hs.withStore hu)
          (.callable (.function hf))
      · exact renamed_fail hstack hs he
  | function hd => exact renamed_lambda hstack hs hk hd
  | array hsize hes =>
      cases hsize with
      | none => exact renamed_arrayNext hstack hs _ none .nil hk hes
      | some he => exact ⟨B, .evaluate hk he, .cons (.arraySize hk hes) hstack, hs⟩
  | index ho hi => exact ⟨B, .evaluate hk ho, .cons (.indexObject hk hi) hstack, hs⟩
  | setIndex ho hi he => exact ⟨B, .evaluate hk ho, .cons (.setIndexObject hk hi he) hstack, hs⟩

/-! ## Statements -/

theorem renamed_loop {k : Option Nat} {env : EnvironmentId} (hk : B env k) {e e' : Expr}
    (he : RenamedExpr ρ k e e') {b b' : Stmt} (hb : RenamedStmt ρ k b b') {st st' : Option Expr}
    (hst : RenamedOptionExpr ρ k st st') :
    RenamedMachine ρ (loop e b st env stack s) (loop e' b' st' env stack' s') :=
  ⟨B, .evaluate hk he, .cons (.loopTest hk he hb hst) hstack, hs⟩

theorem renamed_loopNext {k : Option Nat} {env : EnvironmentId} (hk : B env k) {e e' : Expr}
    (he : RenamedExpr ρ k e e') {b b' : Stmt} (hb : RenamedStmt ρ k b b') {st st' : Option Expr}
    (hst : RenamedOptionExpr ρ k st st') :
    RenamedMachine ρ (loopNext e b st env stack s) (loopNext e' b' st' env stack' s') := by
  cases hst with
  | none => exact renamed_loop hstack hs hk he hb .none
  | some hx =>
      exact ⟨B, .evaluate hk hx, .cons (.loopStep hk he hb (.some hx)) hstack, hs⟩

omit hstack hs in
theorem renamed_makeMethods {u u' : Store} (hu : RenamedStore ρ B u u') {k : Option Nat}
    {env : EnvironmentId} (hk : B env k) {t t' : Table Closure}
    (ht : LikeTable (RenamedClosure ρ B inner) t t') {ds ds' : List FunctionDecl}
    (hds : RenamedDecls ρ (inner k) ds ds') :
    LikeTable (RenamedClosure ρ B inner) (makeMethods u env t ds).1
        (makeMethods u' env t' ds').1 ∧
      RenamedStore ρ B (makeMethods u env t ds).2 (makeMethods u' env t' ds').2 := by
  induction ds generalizing ds' u u' t t' with
  | nil =>
      cases hds
      exact ⟨ht, hu⟩
  | cons d ds ih =>
      cases hds with
      | @cons _ _ d' _ _ hd hds =>
          have hinit : d'.isInitializer = d.isInitializer := by
            simp only [FunctionDecl.isInitializer, FunctionDecl.lexeme?, hd.name]
          simp only [makeMethods, hd.name, hinit]
          cases d.name with
          | none => exact ih hu ht hds
          | some x =>
              obtain ⟨hf, hu⟩ := hu.newClosure inner hk hd d.isInitializer
              exact ih hu (ht.set x.lexeme hf) hds

omit hs in
theorem renamed_finishClass {env : EnvironmentId} {x : Token}
    (hx : ρ.Names (B env (some 0)) x x) {c c' : Option Class}
    (hc : Option.Rel (RenamedClass ρ B) c c') {k : Option Nat} {scope : EnvironmentId}
    (hk : B scope k) {ms ms' : List FunctionDecl} (hms : RenamedDecls ρ (inner k) ms ms')
    {u u' : Store} (hu : RenamedStore ρ B u u') {B₀ : Bearings} (hs : RenamedState ρ B₀ s s') :
    RenamedMachine ρ (finishClass x c ms env scope u stack s)
      (finishClass x c' ms' env scope u' stack' s') := by
  obtain ⟨ht, hu⟩ := renamed_makeMethods hu hk .nil hms
  have hid : (makeMethods u' scope [] ms').2.newIdentity.1 =
      (makeMethods u scope [] ms).2.newIdentity.1 := hu.identities
  have hclass : ∀ i, RenamedClass ρ B (.mk i x c (makeMethods u scope [] ms).1)
      (.mk i x c' (makeMethods u' scope [] ms').1) := by
    intro i
    cases hc with
    | none => exact .base ht
    | some hc => exact .derived hc ht
  unfold finishClass
  dsimp only
  rw [hid]
  exact renamed_doneWith hstack ((hs.withStore hu.newIdentity).note _ _)
    (hu.newIdentity.define hx (.callable (.class (hclass _))))

/-- The methods of a class with a superclass have one scope more around them. -/
theorem renamed_defineClass {k : Option Nat} {env : EnvironmentId} (hk : B env k) {x : Token}
    (hx : ρ.Names (k = some 0) x x) {c c' : Option Class}
    (hc : Option.Rel (RenamedClass ρ B) c c') {ms ms' : List FunctionDecl}
    (hms : RenamedDecls ρ (c.elim (inner k) fun _ => inner (inner k)) ms ms') :
    RenamedMachine ρ (defineClass x c ms env stack s) (defineClass x c' ms' env stack' s') := by
  cases hc with
  | none =>
      exact renamed_finishClass hstack (names_here hs.store.charted hk hx) .none hk hms hs.store hs
  | some hc =>
      have hv : RenamedValue ρ B _ _ := .callable (.class hc)
      obtain ⟨B', hB, hscope, hin, hu⟩ := hs.store.childWith hk superName hv
      rw [defineClass_some, defineClass_some, hscope]
      exact renamed_finishClass (renamed_stack_mono hB hstack)
        (names_here hu.charted (hB _ _ hk) hx) (.some (hc.mono hB)) hin hms hu hs

theorem renamed_printValue {v v' : Value} (hv : RenamedValue ρ B v v') :
    RenamedMachine ρ (printValue v stack s) (printValue v' stack' s') := by
  unfold printValue
  rw [hs.store.pieces hv, hs.output]
  split
  · exact renamed_done hstack (hs.withOutput _)
  · exact renamed_fail hstack (hs.withOutput _) (.same _)

omit hstack hs in
/-- A superclass that is a name is blamed at that name. -/
theorem names_site {k : Option Nat} {e e' : Expr} (he : RenamedExpr ρ k e e') (x : Token) :
    ∃ here, ρ.Names here (e.name?.getD x) (e'.name?.getD x) := by
  cases he with
  | «variable» hx => exact ⟨_, hx⟩
  | _ => exact ⟨False, nofun, fun _ => rfl⟩

theorem renamed_execute {k : Option Nat} {env : EnvironmentId} (hk : B env k) {st st' : Stmt}
    (hst : RenamedStmt ρ k st st') :
    RenamedMachine ρ (execute st env stack s) (execute st' env stack' s') := by
  have here {x x' : Token} (hx : ρ.Names (k = some 0) x x') := names_here hs.store.charted hk hx
  cases hst with
  | print he => exact ⟨B, .evaluate hk he, .cons .print hstack, hs⟩
  | expression he => exact ⟨B, .evaluate hk he, .cons .discard hstack, hs⟩
  | varDecl hx he =>
      cases he with
      | none => exact renamed_doneWith hstack hs (hs.store.define (here hx) .nil)
      | some he => exact ⟨B, .evaluate hk he, .cons (.varDecl hk hx) hstack, hs⟩
  | letDecl hx he => exact ⟨B, .evaluate hk he, .cons (.letDecl hk hx) hstack, hs⟩
  | @block _ i _ _ hi hbody =>
      obtain ⟨B', hB, henv, hin, hu⟩ := hs.store.child (hi.symm ▸ hk : B env (outer i))
      simp only [execute, henv]
      exact renamed_done (.cons (.sequence hin hbody) (renamed_stack_mono hB hstack))
        (hs.withStore hu)
  | branch he ha hb => exact ⟨B, .evaluate hk he, .cons (.branch hk ha hb) hstack, hs⟩
  | whileLoop he hb hstep => exact renamed_loop hstack hs hk he hb hstep
  | functionDecl hx hd =>
      obtain ⟨hf, hu⟩ := hs.store.newClosure id hk hd false
      simp only [execute, hd.name]
      split
      · rename_i x hname
        exact renamed_doneWith hstack (hs.withStore hu)
          (hu.define (here (hx x hname)) (.callable (.function hf)))
      · exact renamed_done hstack (hs.withStore hu)
  | classDecl hx he hms =>
      cases he with
      | none => exact renamed_defineClass hstack hs hk hx .none hms
      | some he =>
          obtain ⟨_, hsite⟩ := names_site he _
          exact ⟨B, .evaluate hk he, .cons (.superclass hk hx hsite hms) hstack, hs⟩
  | returnWith he =>
      cases he with
      | none => exact ⟨B, .unwind (.returning .nil), hstack, hs⟩
      | some he => exact ⟨B, .evaluate hk he, .cons .returnWith hstack, hs⟩
  | breakLoop => exact ⟨B, .unwind .breaking, hstack, hs⟩
  | continueLoop => exact ⟨B, .unwind .continuing, hstack, hs⟩
  | moduleDecl hx hbody =>
      have hi : B env (outer (inner k)) := (outer_inner k).symm ▸ hk
      obtain ⟨B', hB, henv, hin, hu⟩ := hs.store.child hi
      simp only [execute, henv]
      exact renamed_done (.cons (.sequence hin hbody)
        (.cons (.moduleBody hin (hB _ _ hk) hx) (renamed_stack_mono hB hstack))) (hs.withStore hu)

/-! ## Frames -/

theorem renamed_get (x : Token) {v v' : Value} (hv : RenamedValue ρ B v v') :
    RenamedMachine ρ (Machine.resume v (.get x) stack s)
      (Machine.resume v' (.get x) stack' s') := by
  cases hv with
  | «instance» hi =>
      have hp := hs.store.property? hi x.lexeme
      simp only [Machine.resume, Store.get]
      revert hp
      generalize s.store.property? _ _ = o, s'.store.property? _ _ = o'
      rintro (hp | _)
      · obtain ⟨B', hB, hv, hu⟩ := hs.store.valueOf hi hp
        exact renamed_value (renamed_stack_mono hB hstack) (hs.withStore hu) hv
      · exact renamed_fail hstack hs (.same _)
  | module hm hne =>
      have hv := hs.store.getLocal? (RenamedStore.words_of_ne hs.store.charted hm hne x.lexeme)
      simp only [Machine.resume]
      revert hv
      generalize s.store.getLocal? _ _ = v, s'.store.getLocal? _ _ = v'
      rintro (hv | _)
      · exact renamed_value hstack hs hv
      · exact renamed_fail hstack hs (.same _)
  | _ => exact renamed_fail hstack hs (.same _)

theorem renamed_setMember {o : Module} {k : Option Nat} (hm : B o.environment k)
    (hne : k ≠ some 0) (x : Token) {v v' : Value} (hv : RenamedValue ρ B v v') :
    RenamedMachine ρ (Machine.resume v (.setMember o x) stack s)
      (Machine.resume v' (.setMember o x) stack' s') := by
  have hwords := RenamedStore.words_of_ne (ρ := ρ) hs.store.charted hm hne x.lexeme
  have hu := hs.store.assignLocal? hwords hv
  have hhere : ¬ B o.environment (some 0) := fun hh => hne ((hs.store.charted.here hm).mp hh)
  simp only [Machine.resume, hs.store.isReadOnly hhere]
  split
  · exact renamed_fail hstack hs (.same _)
  · revert hu
    generalize s.store.assignLocal? _ _ v = u, s'.store.assignLocal? _ _ v' = u'
    rintro (hu | _)
    · exact renamed_value hstack (hs.withStore hu) hv
    · exact renamed_fail hstack hs (.same _)

theorem renamed_index (a : ArrayId) (bracket : Token) {v v' : Value}
    (hv : RenamedValue ρ B v v') :
    RenamedMachine ρ (Machine.resume v (.index a bracket) stack s)
      (Machine.resume v' (.index a bracket) stack' s') := by
  simp only [Machine.resume, hs.store.length, renamed_asIndex hv]
  split
  · rename_i i _
    have hv := hs.store.element? a i
    revert hv
    generalize s.store.element? a i = v, s'.store.element? a i = v'
    rintro (hv | _)
    · exact renamed_value hstack hs hv
    · exact renamed_fail hstack hs (.same _)
  · exact renamed_fail hstack hs (.same _)

theorem renamed_setIndex (a : ArrayId) (i : Nat) (bracket : Token) {v v' : Value}
    (hv : RenamedValue ρ B v v') :
    RenamedMachine ρ (Machine.resume v (.setIndex a i bracket) stack s)
      (Machine.resume v' (.setIndex a i bracket) stack' s') := by
  have hu := hs.store.setElement? a i hv
  simp only [Machine.resume, hs.store.length]
  revert hu
  generalize s.store.setElement? a i v = u, s'.store.setElement? a i v' = u'
  rintro (hu | _)
  · exact renamed_value hstack (hs.withStore hu) hv
  · exact renamed_fail hstack hs (.same _)

/-- Values that belong together are handed to frames that do. -/
theorem renamed_resume {frame frame' : Frame} (hf : RenamedFrame ρ B frame frame')
    {v v' : Value} (hv : RenamedValue ρ B v v') :
    RenamedMachine ρ (Machine.resume v frame stack s) (Machine.resume v' frame' stack' s') := by
  have here {env : EnvironmentId} {k : Option Nat} (hk : B env k) {x x' : Token}
    (hx : ρ.Names (k = some 0) x x') := names_here hs.store.charted hk hx
  cases hf with
  | unary op => exact renamed_yield hstack hs (renamed_applyUnary op hv)
  | binaryRight hk he => exact ⟨B, .evaluate hk he, .cons (.binary _ hv) hstack, hs⟩
  | binary op hl => exact renamed_yield hstack hs (renamed_applyBinary op hl hv)
  | logical hk he =>
      simp only [Machine.resume, renamed_decidedBy _ hv]
      split
      · exact renamed_value hstack hs hv
      · exact ⟨B, .evaluate hk he, hstack, hs⟩
  | assign hk hx => exact renamed_yieldWith hstack hs hv (hs.store.change hk hx hv)
  | callee hk hes => exact renamed_applyNext hstack hs hv .nil _ hk hes
  | argument hc hvs hk hes => exact renamed_applyNext hstack hs hc (.cons hv hvs) _ hk hes
  | get x => exact renamed_get hstack hs x hv
  | setObject hk he =>
      cases hv with
      | «instance» hi => exact ⟨B, .evaluate hk he, .cons (.setField _ hi) hstack, hs⟩
      | module hm hne => exact ⟨B, .evaluate hk he, .cons (.setMember _ hm hne) hstack, hs⟩
      | _ => exact renamed_fail hstack hs (.same _)
  | setField x hi =>
      exact renamed_value hstack (hs.withStore (hs.store.setField hi.id _ hv)) hv
  | setMember x hm hne => exact renamed_setMember hstack hs hm hne x hv
  | arraySize hk hes =>
      simp only [Machine.resume, renamed_arraySize hv]
      split
      · exact renamed_arrayNext hstack hs _ _ .nil hk hes
      · exact renamed_fail hstack hs (.same _)
  | arrayElement size hvs hk hes =>
      exact renamed_arrayNext hstack hs _ size (.cons hv hvs) hk hes
  | indexObject hk hi =>
      simp only [Machine.resume, renamed_asArray hv]
      split
      · exact ⟨B, .evaluate hk hi, .cons (.index _ _) hstack, hs⟩
      · exact renamed_fail hstack hs (.same _)
  | index a bracket => exact renamed_index hstack hs a bracket hv
  | setIndexObject hk hi he =>
      simp only [Machine.resume, renamed_asArray hv]
      split
      · exact ⟨B, .evaluate hk hi, .cons (.setIndexAt _ hk he) hstack, hs⟩
      · exact renamed_fail hstack hs (.same _)
  | setIndexAt a hk he =>
      simp only [Machine.resume, hs.store.length, renamed_asIndex hv]
      split
      · exact ⟨B, .evaluate hk he, .cons (.setIndex a _ _) hstack, hs⟩
      · exact renamed_fail hstack hs (.same _)
  | setIndex a i bracket => exact renamed_setIndex hstack hs a i bracket hv
  | print => exact renamed_printValue hstack hs hv
  | discard => exact renamed_done hstack hs
  | varDecl hk hx => exact renamed_doneWith hstack hs (hs.store.define (here hk hx) hv)
  | letDecl hk hx => exact renamed_doneWith hstack hs (hs.store.defineReadOnly (here hk hx) hv)
  | branch hk ha hb =>
      simp only [Machine.resume, hv.isTruthy]
      split
      · exact ⟨B, .execute hk ha, hstack, hs⟩
      · cases hb with
        | none => exact renamed_done hstack hs
        | some hb => exact ⟨B, .execute hk hb, hstack, hs⟩
  | loopTest hk he hb hst =>
      simp only [Machine.resume, hv.isTruthy]
      split
      · exact ⟨B, .execute hk hb, .cons (.loopBody hk he hb hst) hstack, hs⟩
      · exact renamed_done hstack hs
  | loopStep hk he hb hst => exact renamed_loop hstack hs hk he hb hst
  | superclass hk hx hsite hms =>
      cases hv with
      | callable hc =>
          cases hc with
          | «class» hc => exact renamed_defineClass hstack hs hk hx (.some hc) hms
          | _ => exact renamed_fail hstack hs (.blaming hsite rfl)
      | _ => exact renamed_fail hstack hs (.blaming hsite rfl)
  | returnWith => exact ⟨B, .unwind (.returning hv), hstack, hs⟩
  | constructed hi => exact renamed_value hstack hs (.instance hi)
  | activeCall _ =>
      simp only [Machine.resume, hs.callDepth]
      exact renamed_value hstack (hs.withCallDepth _) hv
  | sequence _ _ => exact renamed_value hstack hs hv
  | loopBody _ _ _ _ => exact renamed_value hstack hs hv
  | moduleBody _ _ _ => exact renamed_value hstack hs hv
  | functionBody _ => exact renamed_value hstack hs hv

/-- Frames that belong together go on after a statement. -/
theorem renamed_proceed {frame frame' : Frame} (hf : RenamedFrame ρ B frame frame') :
    RenamedMachine ρ (proceed frame stack s) (proceed frame' stack' s') := by
  cases hf with
  | sequence hk hsts =>
      cases hsts with
      | nil => exact renamed_done hstack hs
      | cons hst hsts => exact ⟨B, .execute hk hst, .cons (.sequence hk hsts) hstack, hs⟩
  | loopBody hk he hb hst => exact renamed_loopNext hstack hs hk he hb hst
  | moduleBody hm hk hx =>
      exact renamed_doneWith hstack (hs.note _ _)
        (hs.store.defineReadOnly (names_here hs.store.charted hk hx)
          (.module hm (inner_ne_zero _)))
  | functionBody hf => exact renamed_yield hstack hs (renamed_result hf .nil hs.store)
  | _ => exact renamed_done hstack hs

/-- Signals that belong together are offered to frames that do. -/
theorem renamed_unwind {frame frame' : Frame} (hf : RenamedFrame ρ B frame frame')
    {g g' : Signal} (hg : RenamedSignal ρ B g g') :
    RenamedMachine ρ (unwind g frame stack s) (unwind g' frame' stack' s') := by
  have hpass : RenamedMachine ρ ⟨.unwind g, stack, s⟩ ⟨.unwind g', stack', s'⟩ :=
    ⟨B, .unwind hg, hstack, hs⟩
  cases hf with
  | loopBody hk he hb hst =>
      cases hg with
      | continuing => exact renamed_loopNext hstack hs hk he hb hst
      | breaking => exact renamed_done hstack hs
      | failure _ => exact hpass
      | returning _ => exact hpass
  | functionBody hf =>
      cases hg with
      | returning hv => exact renamed_yield hstack hs (renamed_result hf hv hs.store)
      | failure _ => exact hpass
      | breaking => exact hpass
      | continuing => exact hpass
  | activeCall paren =>
      have hdepth := hs.withCallDepth (s.callDepth - 1)
      cases hg with
      | failure he =>
          simp only [unwind, hs.callDepth]
          exact ⟨B, .unwind (.failure (he.orAt paren)), hstack, hdepth⟩
      | returning hv =>
          simp only [unwind, hs.callDepth]
          exact ⟨B, .unwind (.returning hv), hstack, hdepth⟩
      | breaking =>
          simp only [unwind, hs.callDepth]
          exact ⟨B, .unwind .breaking, hstack, hdepth⟩
      | continuing =>
          simp only [unwind, hs.callDepth]
          exact ⟨B, .unwind .continuing, hstack, hdepth⟩
  | _ =>
      cases hg <;> exact hpass

end

/-! ## Moves and runs -/

section
variable {ρ : Renaming} {m m' : Machine}

theorem renamed_step (h : RenamedMachine ρ m m') : RenamedMachine ρ m.step m'.step := by
  obtain ⟨control, stack, s⟩ := m
  obtain ⟨control', stack', s'⟩ := m'
  obtain ⟨B, hcontrol, hstack, hs⟩ := h
  dsimp only at hcontrol hstack hs
  cases hcontrol with
  | evaluate hk he => exact renamed_evaluate hstack hs hk he
  | execute hk hst => exact renamed_execute hstack hs hk hst
  | value hv =>
      cases hstack with
      | nil => exact ⟨B, .value hv, .nil, hs⟩
      | cons hf hstack => exact renamed_resume hstack hs hf hv
  | done =>
      cases hstack with
      | nil => exact ⟨B, .done, .nil, hs⟩
      | cons hf hstack => exact renamed_proceed hstack hs hf
  | unwind hg =>
      cases hstack with
      | nil => exact ⟨B, .unwind hg, .nil, hs⟩
      | cons hf hstack => exact renamed_unwind hstack hs hf hg

theorem renamed_run (h : RenamedMachine ρ m m') (n : Nat) :
    RenamedMachine ρ (run n m) (run n m') := by
  induction n with
  | zero => exact h
  | succ n ih =>
      rw [run_succ_right, run_succ_right]
      exact renamed_step ih

end

end Lox
