/-
# Moves keep machines alike

One lemma for each function of the machine, in the order of `Lox.Machine`: given
what is alike, its machines are alike.  `like_step` puts them together, and
`like_run` goes on for as many moves as are made.

Nothing is asked of the programs but that they are alike: the two machines make the
same moves whatever they do.
-/
import Lox.Proofs.Lockstep

namespace Lox

open Machine

section
variable {R : Likeness} (hR : R.OfRuns) {W : Distances} {rest : List Stmt}
  {stack stack' : List Frame} (hk : LikeStack R W rest stack stack') {s s' : State}
  (hs : LikeState R W s s')
include hk hs

/-! ## Moves that leave the stack below alone -/

theorem like_value {v v' : Value} (hv : LikeValue R W v v') :
    LikeMachine R rest ⟨.value v, stack, s⟩ ⟨.value v', stack', s'⟩ :=
  ⟨W, .value hv, hk, hs⟩

theorem like_done : LikeMachine R rest ⟨.done, stack, s⟩ ⟨.done, stack', s'⟩ :=
  ⟨W, .done, hk, hs⟩

theorem like_fail {e e' : RuntimeError} (he : LikeError R e e') :
    LikeMachine R rest (fail e stack s) (fail e' stack' s') :=
  ⟨W, .unwind (.failure he), hk, hs⟩

theorem like_yield {r r' : Except RuntimeError Value} (hr : LikeResult R (LikeValue R W) r r') :
    LikeMachine R rest (yield r stack s) (yield r' stack' s') := by
  cases hr with
  | ok hv => exact like_value hk hs hv
  | error he => exact like_fail hk hs he

theorem like_yieldWith {v v' : Value} (hv : LikeValue R W v v') {r r' : Except RuntimeError Store}
    (hr : LikeResult R (LikeStore R W) r r') :
    LikeMachine R rest (yieldWith v r stack s) (yieldWith v' r' stack' s') := by
  cases hr with
  | ok hu => exact like_value hk (hs.withStore hu) hv
  | error he => exact like_fail hk hs he

theorem like_doneWith {r r' : Except RuntimeError Store}
    (hr : LikeResult R (LikeStore R W) r r') :
    LikeMachine R rest (doneWith r stack s) (doneWith r' stack' s') := by
  cases hr with
  | ok hu => exact like_done hk (hs.withStore hu)
  | error he => exact like_fail hk hs he

/-! ## Calls -/

omit hk hs in
include hR in
theorem like_bindArguments {u u' : Store} (hu : LikeStore R W u u') (env : EnvironmentId)
    {ps ps' : List Token} (hps : List.Forall₂ R.name ps ps') {vs vs' : List Value}
    (hvs : List.Forall₂ (LikeValue R W) vs vs') :
    LikeStore R W (bindArguments u env ps vs).1 (bindArguments u' env ps' vs').1 ∧
      Option.Rel (LikeError R) (bindArguments u env ps vs).2 (bindArguments u' env ps' vs').2 := by
  induction hps generalizing u u' vs vs' with
  | nil =>
      simp only [bindArguments]
      exact ⟨hu, .none⟩
  | cons hp _ ih =>
      cases hvs with
      | nil =>
          simp only [bindArguments]
          exact ⟨hu, .none⟩
      | cons hv hvs =>
          have hd := hu.define hR (hR.name hp) hv env
          simp only [bindArguments]
          revert hd
          generalize u.define env _ _ = r, u'.define env _ _ = r'
          rintro (hu | he)
          · exact ih hu hvs
          · exact ⟨hu, .some he⟩

include hR in
theorem like_enter {f f' : Closure} (hf : LikeClosure R W id f f') {vs vs' : List Value}
    (hvs : List.Forall₂ (LikeValue R W) vs vs') :
    LikeMachine R rest (enter f vs stack s) (enter f' vs' stack' s') := by
  obtain ⟨m, hm, hd⟩ := hf.declaration
  obtain ⟨W', hW, henv, hin, hu⟩ := hs.store.child f.environment
  have hb := like_bindArguments hR hu (s.store.child f.environment).1 hd.params
    (like_values_mono hW hvs)
  unfold enter
  rw [hf.environment]
  dsimp only
  rw [henv]
  revert hb
  generalize bindArguments _ _ f.declaration.params vs = b,
    bindArguments _ _ f'.declaration.params vs' = b'
  obtain ⟨u, o⟩ := b
  obtain ⟨u', o'⟩ := b'
  rintro ⟨hu, he | _⟩
  · exact like_fail (hk.mono hW) (hs.withStore hu) he
  · have hbody : LikeFrame R W' _ _ := .sequence (hin m hm) hd.body
    exact like_done (.cons hbody (.cons (.functionBody (hf.mono hW)) (hk.mono hW)))
      (hs.withStore hu)

include hR in
theorem like_construct {c c' : Class} (hc : LikeClass R W c c') {vs vs' : List Value}
    (hvs : List.Forall₂ (LikeValue R W) vs vs') :
    LikeMachine R rest (construct c vs stack s) (construct c' vs' stack' s') := by
  obtain ⟨hi, hu⟩ := hs.store.newInstance hc
  have hm := hc.findMethod? FunctionDecl.initializerName
  unfold construct
  revert hm
  generalize c.findMethod? _ = o, c'.findMethod? _ = o'
  rintro (hm | _)
  · obtain ⟨W', hW, hf, hu⟩ := hu.bindMethod hm hi
    exact like_enter hR (.cons (.constructed (hi.mono hW)) (hk.mono hW)) (hs.withStore hu) hf
      (like_values_mono hW hvs)
  · exact like_value hk (hs.withStore hu) (.instance hi)

omit hk in
/-- Native functions have the same results. -/
theorem like_native (n : Native) {vs vs' : List Value}
    (hvs : List.Forall₂ (LikeValue R W) vs vs') :
    LikeResult R (LikeValue R W) ((n.apply s.now s.store vs).mapError .unplaced)
      ((n.apply s'.now s'.store vs').mapError .unplaced) := by
  cases n with
  | clock =>
      simp only [Native.apply, hs.now]
      cases s.now with
      | seconds x => exact .ok (.number x)
      | wrong what => exact .error (.unplaced _)
  | len =>
      cases hvs with
      | nil => exact .error (.unplaced _)
      | cons hv _ =>
          cases hv with
          | array a =>
              simp only [Native.apply, Store.lengthOf, hs.store.length]
              exact .ok (.number _)
          | string t => exact .ok (.number _)
          | _ => exact .error (.unplaced _)

include hR in
theorem like_invoke {c c' : Callable} (hc : LikeCallable R W c c') {vs vs' : List Value}
    (hvs : List.Forall₂ (LikeValue R W) vs vs') :
    LikeMachine R rest (invoke c vs stack s) (invoke c' vs' stack' s') := by
  cases hc with
  | function hf => exact like_enter hR hk (hs.note _ _) hf hvs
  | «class» hc => exact like_construct hR hk (hs.note _ _) hc hvs
  | native n => exact like_yield hk (hs.note _ _).tick (like_native hs n hvs)

include hR in
theorem like_apply {v v' : Value} (hv : LikeValue R W v v') {vs vs' : List Value}
    (hvs : List.Forall₂ (LikeValue R W) vs vs') {paren paren' : Token}
    (hp : R.token paren paren') :
    LikeMachine R rest (apply v vs paren stack s) (apply v' vs' paren' stack' s') := by
  cases hv with
  | callable hc =>
      unfold apply
      simp only [hc.arity, ← hvs.length_eq, hs.callDepth]
      split
      · exact like_fail hk hs (.blaming hp _)
      · split
        · exact like_fail hk hs (.blaming hp _)
        · exact like_invoke hR (.cons (.activeCall hp) hk) (hs.withCallDepth _) hc hvs
  | _ => exact like_fail hk hs (.blaming hp _)

include hR in
theorem like_applyNext {v v' : Value} (hv : LikeValue R W v v') {vs vs' : List Value}
    (hvs : List.Forall₂ (LikeValue R W) vs vs') {paren paren' : Token}
    (hp : R.token paren paren') {m : Option Nat} {env : EnvironmentId} (hm : Within W m env)
    {es es' : List Expr} (hes : LikeExprs R m es es') :
    LikeMachine R rest (applyNext v vs paren es env stack s)
      (applyNext v' vs' paren' es' env stack' s') := by
  cases hes with
  | nil => exact like_apply hR hk hs hv (List.rel_reverse hvs) hp
  | cons he hes => exact ⟨W, .evaluate hm he, .cons (.argument hv hvs hp hm hes) hk, hs⟩

omit hk hs in
include hR in
theorem like_result {f f' : Closure} (hf : LikeClosure R W id f f') {v v' : Value}
    (hv : LikeValue R W v v') {u u' : Store} (hu : LikeStore R W u u') :
    LikeResult R (LikeValue R W) (result f v u) (result f' v' u') := by
  obtain ⟨m, -, hd⟩ := hf.declaration
  unfold result
  rw [hf.isInitializer, hf.environment]
  split
  · exact hu.accessAt hR (hR.implicit _ hd.keyword) _ _
  · exact .ok hv

/-! ## Expressions -/

theorem like_arrayNext {bracket bracket' : Token} (hb : R.token bracket bracket')
    (size : Option Nat) {vs vs' : List Value} (hvs : List.Forall₂ (LikeValue R W) vs vs')
    {m : Option Nat} {env : EnvironmentId} (hm : Within W m env) {es es' : List Expr}
    (hes : LikeExprs R m es es') :
    LikeMachine R rest (arrayNext bracket size vs es env stack s)
      (arrayNext bracket' size vs' es' env stack' s') := by
  cases hes with
  | cons he hes => exact ⟨W, .evaluate hm he, .cons (.arrayElement size hb hvs hm hes) hk, hs⟩
  | nil =>
      have ha := like_arrayElements hb size (List.rel_reverse hvs)
      unfold arrayNext
      dsimp only
      revert ha
      generalize arrayElements size vs.reverse bracket = r,
        arrayElements size vs'.reverse bracket' = r'
      rintro (ha | he)
      · obtain ⟨hid, hu⟩ := hs.store.newArray ha
        dsimp only
        rw [hid]
        exact like_value hk (hs.withStore hu) (.array _)
      · exact like_fail hk hs he

include hR in
theorem like_lambda {m : Option Nat} {env : EnvironmentId} (hm : Within W m env)
    {d d' : FunctionDecl} (hd : LikeDecl R (d.around m) d d') :
    LikeMachine R rest (lambda d env stack s) (lambda d' env stack' s') := by
  unfold lambda
  rcases hd.name with ⟨hn, hn'⟩ | ⟨n, n', hn, hn', hname⟩
  · simp only [FunctionDecl.around, hn] at hd
    rw [hn, hn']
    obtain ⟨hf, hu⟩ := hs.store.newClosure id hm hd false
    exact like_value hk (hs.withStore hu) (.callable (.function hf))
  · simp only [FunctionDecl.around, hn] at hd
    rw [hn, hn']
    obtain ⟨W', hW, henv, hin, hu⟩ := hs.store.child env
    obtain ⟨hf, hu⟩ := hu.newClosure id (hin m hm) hd false
    have hv : LikeValue R W' _ _ := .callable (.function hf)
    dsimp only
    rw [henv]
    exact like_yieldWith (hk.mono hW) (hs.withStore hu) hv
      (hu.defineReadOnly hR (hR.name hname) hv _)

omit hk hs in
include hR in
theorem like_superclassAt {u u' : Store} (hu : LikeStore R W u u') {k k' : Token}
    (ht : R.token k k') (d : Nat) (env : EnvironmentId) :
    LikeResult R (LikeClass R W) (superclassAt u k d env) (superclassAt u' k' d env) := by
  have hv := hu.accessAt hR ht env d
  unfold superclassAt
  revert hv
  generalize u.accessAt env d k = r, u'.accessAt env d k' = r'
  rintro (hv | he)
  · cases hv with
    | callable hc =>
        cases hc with
        | «class» hc => exact .ok hc
        | _ => exact .error (.blaming ht _)
    | _ => exact .error (.blaming ht _)
  · exact .error he

omit hk hs in
include hR in
theorem like_receiverAt {u u' : Store} (hu : LikeStore R W u u') {k k' : Token}
    (ht : R.token k k') (d : Nat) (env : EnvironmentId) :
    LikeResult R (LikeInstance R W) (receiverAt u k d env) (receiverAt u' k' d env) := by
  have hv := hu.accessAt hR (hR.implicit Store.receiverName ht) env (d - 1)
  unfold receiverAt
  revert hv
  generalize u.accessAt env (d - 1) _ = r, u'.accessAt env (d - 1) _ = r'
  rintro (hv | he)
  · cases hv with
    | «instance» hi => exact .ok hi
    | _ => exact .error (.blaming ht _)
  · exact .error he

omit hk hs in
include hR in
theorem like_superMethod {u u' : Store} (hu : LikeStore R W u u') {k k' n n' : Token}
    (ht : R.token k k') (hn : R.token n n') (d : Option Nat) (env : EnvironmentId) :
    LikeResult R (fun x x' => LikeClosure R W inner x.1 x'.1 ∧ LikeInstance R W x.2 x'.2)
      (superMethod u k n d env) (superMethod u' k' n' d env) := by
  cases d with
  | none => exact .error (.blaming ht _)
  | some d =>
      have hc := like_superclassAt hR hu ht d env
      have hi := like_receiverAt hR hu ht d env
      unfold superMethod
      dsimp only
      rw [hR.lexeme hn]
      revert hc hi
      generalize superclassAt u k d env = r, superclassAt u' k' d env = r',
        receiverAt u k d env = i, receiverAt u' k' d env = i'
      rintro (hc | he) (hi | he')
      · have hm := hc.findMethod? n.lexeme
        dsimp only
        revert hm
        generalize Class.findMethod? _ _ = o, Class.findMethod? _ _ = o'
        rintro (hm | _)
        · exact .ok ⟨hm, hi⟩
        · exact .error (.blaming hn _)
      · exact .error he'
      · exact .error he
      · exact .error he

include hR in
theorem like_evaluate {m : Option Nat} {env : EnvironmentId} (hm : Within W m env)
    {e e' : Expr} (he : LikeExpr R m e e') :
    LikeMachine R rest (evaluate e env stack s) (evaluate e' env stack' s') := by
  cases he with
  | literal v =>
      cases v with
      | nil => exact like_value hk hs .nil
      | boolean b => exact like_value hk hs (.boolean b)
      | number x => exact like_value hk hs (.number x)
      | string t => exact like_value hk hs (.string t)
  | grouping he => exact ⟨W, .evaluate hm he, hk, hs⟩
  | unary hop he => exact ⟨W, .evaluate hm he, .cons (.unary hop) hk, hs⟩
  | binary hl hop hr => exact ⟨W, .evaluate hm hl, .cons (.binaryRight hop hm hr) hk, hs⟩
  | logical hl hop hr => exact ⟨W, .evaluate hm hl, .cons (.logical hop hm hr) hk, hs⟩
  | «variable» hn hd => exact like_yield hk hs (hs.store.lookUp hR hn hd hm)
  | assign hn hv hd => exact ⟨W, .evaluate hm hv, .cons (.assign hn hm hd) hk, hs⟩
  | call hf hp hes => exact ⟨W, .evaluate hm hf, .cons (.callee hp hm hes) hk, hs⟩
  | get ho hn => exact ⟨W, .evaluate hm ho, .cons (.get hn) hk, hs⟩
  | set ho hn hv => exact ⟨W, .evaluate hm ho, .cons (.setObject hn hm hv) hk, hs⟩
  | receiver ht hd => exact like_yield hk hs (hs.store.lookUp hR ht hd hm)
  | @superMethod _ k k' n n' d _ ht hn _ =>
      have hr := like_superMethod hR hs.store ht hn d env
      unfold evaluate
      dsimp only
      revert hr
      generalize superMethod s.store k n d env = r, superMethod s'.store k' n' d env = r'
      rintro (⟨hf, hi⟩ | he)
      · obtain ⟨W', hW, hf, hu⟩ := hs.store.bindMethod hf hi
        exact like_value (hk.mono hW) (hs.withStore hu) (.callable (.function hf))
      · exact like_fail hk hs he
  | function hd => exact like_lambda hR hk hs hm hd
  | array hb hsize hes =>
      cases hsize with
      | none => exact like_arrayNext hk hs hb none .nil hm hes
      | some he => exact ⟨W, .evaluate hm he, .cons (.arraySize hb hm hes) hk, hs⟩
  | index ho hb hi => exact ⟨W, .evaluate hm ho, .cons (.indexObject hb hm hi) hk, hs⟩
  | setIndex ho hb hi he =>
      exact ⟨W, .evaluate hm ho, .cons (.setIndexObject hb hm hi he) hk, hs⟩

/-! ## Statements -/

theorem like_loop {m : Option Nat} {env : EnvironmentId} (hm : Within W m env) {e e' : Expr}
    (he : LikeExpr R m e e') {b b' : Stmt} (hb : LikeStmt R m b b') {st st' : Option Expr}
    (hst : LikeOptionExpr R m st st') :
    LikeMachine R rest (loop e b st env stack s) (loop e' b' st' env stack' s') :=
  ⟨W, .evaluate hm he, .cons (.loopTest hm he hb hst) hk, hs⟩

theorem like_loopNext {m : Option Nat} {env : EnvironmentId} (hm : Within W m env) {e e' : Expr}
    (he : LikeExpr R m e e') {b b' : Stmt} (hb : LikeStmt R m b b') {st st' : Option Expr}
    (hst : LikeOptionExpr R m st st') :
    LikeMachine R rest (loopNext e b st env stack s) (loopNext e' b' st' env stack' s') := by
  cases hst with
  | none => exact like_loop hk hs hm he hb .none
  | some hx => exact ⟨W, .evaluate hm hx, .cons (.loopStep hm he hb (.some hx)) hk, hs⟩

omit hk hs in
include hR in
theorem like_makeMethods {u u' : Store} (hu : LikeStore R W u u') {m : Option Nat}
    {env : EnvironmentId} (hm : Within W m env) {t t' : Table Closure}
    (ht : LikeTable (LikeClosure R W inner) t t') {ds ds' : List FunctionDecl}
    (hds : LikeDecls R (inner m) ds ds') :
    LikeTable (LikeClosure R W inner) (makeMethods u env t ds).1 (makeMethods u' env t' ds').1 ∧
      LikeStore R W (makeMethods u env t ds).2 (makeMethods u' env t' ds').2 := by
  induction ds generalizing ds' u u' t t' with
  | nil =>
      cases hds
      exact ⟨ht, hu⟩
  | cons d ds ih =>
      cases hds with
      | cons hd hds =>
          simp only [makeMethods]
          rcases hd.name with ⟨hn, hn'⟩ | ⟨n, n', hn, hn', hname⟩
          · rw [hn, hn']
            exact ih hu ht hds
          · rw [hn, hn']
            simp only [FunctionDecl.isInitializer, hd.lexeme? hR.lexeme_name, hR.lexeme_name hname]
            obtain ⟨hf, hu⟩ := hu.newClosure inner hm hd
              (d.lexeme? == some FunctionDecl.initializerName)
            exact ih hu (ht.set n.lexeme hf) hds

omit hk hs in
/-- A class whose methods are alike. -/
theorem like_class (i : Nat) {n n' : Token} (hn : R.name n n') {c c' : Option Class}
    (hc : Option.Rel (LikeClass R W) c c') {t t' : Table Closure}
    (ht : LikeTable (LikeClosure R W inner) t t') :
    LikeClass R W (.mk i n c t) (.mk i n' c' t') := by
  cases hc with
  | none => exact .base hn ht
  | some hc => exact .derived hn hc ht

omit hs in
include hR in
theorem like_finishClass {n n' : Token} (hn : R.name n n') {c c' : Option Class}
    (hc : Option.Rel (LikeClass R W) c c') {m : Option Nat} {scope : EnvironmentId}
    (hm : Within W m scope) {ms ms' : List FunctionDecl} (hms : LikeDecls R (inner m) ms ms')
    {u u' : Store} (hu : LikeStore R W u u') (hs : ∃ W₀, LikeState R W₀ s s')
    (env : EnvironmentId) :
    LikeMachine R rest (finishClass n c ms env scope u stack s)
      (finishClass n' c' ms' env scope u' stack' s') := by
  obtain ⟨W₀, hs⟩ := hs
  obtain ⟨ht, hu⟩ := like_makeMethods hR hu hm .nil hms
  have hid : (makeMethods u' scope [] ms').2.newIdentity.1 =
      (makeMethods u scope [] ms).2.newIdentity.1 := hu.identities
  have hclass := like_class (makeMethods u scope [] ms).2.newIdentity.1 hn hc ht
  unfold finishClass
  dsimp only
  rw [hid]
  exact like_doneWith hk ((hs.withStore hu.newIdentity).note _ _)
    (hu.newIdentity.define hR (hR.name hn) (.callable (.class hclass)) env)

include hR in
/-- The methods of a class with a superclass have one scope more around them. -/
theorem like_defineClass {n n' : Token} (hn : R.name n n') {m : Option Nat}
    {env : EnvironmentId} (hm : Within W m env) {c c' : Option Class}
    (hc : Option.Rel (LikeClass R W) c c') {ms ms' : List FunctionDecl}
    (hms : LikeDecls R (c.elim (inner m) fun _ => inner (inner m)) ms ms') :
    LikeMachine R rest (defineClass n c ms env stack s) (defineClass n' c' ms' env stack' s') := by
  cases hc with
  | none => exact like_finishClass hR hk hn .none hm hms hs.store ⟨W, hs⟩ env
  | some hc =>
      have hv : LikeValue R W _ _ := .callable (.class hc)
      obtain ⟨W', hW, hscope, hin, hu⟩ := hs.store.childWith env superName hv
      rw [defineClass_some, defineClass_some, hscope]
      exact like_finishClass hR (hk.mono hW) hn (.some (hc.mono hW)) (hin m hm) hms hu ⟨W, hs⟩ env

include hR in
theorem like_printValue {v v' : Value} (hv : LikeValue R W v v') :
    LikeMachine R rest (printValue v stack s) (printValue v' stack' s') := by
  unfold printValue
  rw [hs.store.pieces hR hv, hs.output]
  split
  · exact like_done hk (hs.withOutput _)
  · exact like_fail hk (hs.withOutput _) (.unplaced _)

omit hk hs in
include hR in
/-- Alike superclasses are blamed at alike tokens. -/
theorem like_site {m : Option Nat} {e e' : Expr} (he : LikeExpr R m e e') {n n' : Token}
    (hn : R.name n n') : R.token (e.name?.getD n) (e'.name?.getD n') := by
  cases he with
  | «variable» hname _ => exact hname
  | _ => exact hR.name hn

include hR in
theorem like_execute {m : Option Nat} {env : EnvironmentId} (hm : Within W m env)
    {st st' : Stmt} (hst : LikeStmt R m st st') :
    LikeMachine R rest (execute st env stack s) (execute st' env stack' s') := by
  cases hst with
  | print he => exact ⟨W, .evaluate hm he, .cons .print hk, hs⟩
  | expression he => exact ⟨W, .evaluate hm he, .cons .discard hk, hs⟩
  | varDecl hn he =>
      cases he with
      | none => exact like_doneWith hk hs (hs.store.define hR (hR.name hn) .nil env)
      | some he => exact ⟨W, .evaluate hm he, .cons (.varDecl env hn) hk, hs⟩
  | letDecl hn he => exact ⟨W, .evaluate hm he, .cons (.letDecl env hn) hk, hs⟩
  | block hbody =>
      obtain ⟨W', hW, henv, hin, hu⟩ := hs.store.child env
      simp only [execute, henv]
      exact like_done (.cons (.sequence (hin m hm) hbody) (hk.mono hW)) (hs.withStore hu)
  | branch he ha hb => exact ⟨W, .evaluate hm he, .cons (.branch hm ha hb) hk, hs⟩
  | whileLoop he hb hstep => exact like_loop hk hs hm he hb hstep
  | functionDecl hd =>
      obtain ⟨hf, hu⟩ := hs.store.newClosure id hm hd false
      rcases hd.name with ⟨hn, hn'⟩ | ⟨n, n', hn, hn', hname⟩
      · simp only [execute, hn, hn']
        exact like_done hk (hs.withStore hu)
      · simp only [execute, hn, hn']
        exact like_doneWith hk (hs.withStore hu)
          (hu.define hR (hR.name hname) (.callable (.function hf)) env)
  | classDecl hn he hms =>
      cases he with
      | none => exact like_defineClass hR hk hs hn hm .none hms
      | some he =>
          exact ⟨W, .evaluate hm he, .cons (.superclass hn (like_site hR he hn) hm hms) hk, hs⟩
  | returnWith _ he =>
      cases he with
      | none => exact ⟨W, .unwind (.returning .nil), hk, hs⟩
      | some he => exact ⟨W, .evaluate hm he, .cons .returnWith hk, hs⟩
  | breakLoop _ => exact ⟨W, .unwind .breaking, hk, hs⟩
  | continueLoop _ => exact ⟨W, .unwind .continuing, hk, hs⟩
  | moduleDecl hn hbody =>
      obtain ⟨W', hW, henv, hin, hu⟩ := hs.store.child env
      simp only [execute, henv]
      exact like_done (.cons (.sequence (hin m hm) hbody)
        (.cons (.moduleBody _ env hn) (hk.mono hW))) (hs.withStore hu)

/-! ## Frames -/

include hR in
theorem like_get {n n' : Token} (hn : R.token n n') {v v' : Value} (hv : LikeValue R W v v') :
    LikeMachine R rest (Machine.resume v (.get n) stack s)
      (Machine.resume v' (.get n') stack' s') := by
  cases hv with
  | «instance» hi =>
      have hp := hs.store.property? hi n.lexeme
      simp only [Machine.resume, Store.get, hR.lexeme hn]
      revert hp
      generalize s.store.property? _ _ = o, s'.store.property? _ _ = o'
      rintro (hp | _)
      · obtain ⟨W', hW, hv, hu⟩ := hs.store.valueOf hi hp
        exact like_value (hk.mono hW) (hs.withStore hu) hv
      · exact like_fail hk hs (.blaming hn _)
  | module o =>
      have hv := hs.store.getLocal? o.environment n.lexeme
      simp only [Machine.resume, hR.lexeme hn]
      revert hv
      generalize s.store.getLocal? _ _ = v, s'.store.getLocal? _ _ = v'
      rintro (hv | _)
      · exact like_value hk hs hv
      · exact like_fail hk hs (.blaming hn _)
  | _ => exact like_fail hk hs (.blaming hn _)

include hR in
theorem like_setMember (o : Module) {n n' : Token} (hn : R.token n n') {v v' : Value}
    (hv : LikeValue R W v v') :
    LikeMachine R rest (Machine.resume v (.setMember o n) stack s)
      (Machine.resume v' (.setMember o n') stack' s') := by
  have hu := hs.store.assignLocal? hv o.environment n.lexeme
  simp only [Machine.resume, hR.lexeme hn, hs.store.isReadOnly]
  split
  · exact like_fail hk hs (.blaming hn _)
  · revert hu
    generalize s.store.assignLocal? _ _ v = u, s'.store.assignLocal? _ _ v' = u'
    rintro (hu | _)
    · exact like_value hk (hs.withStore hu) hv
    · exact like_fail hk hs (.blaming hn _)

theorem like_index (a : ArrayId) {b b' : Token} (hb : R.token b b') {v v' : Value}
    (hv : LikeValue R W v v') :
    LikeMachine R rest (Machine.resume v (.index a b) stack s)
      (Machine.resume v' (.index a b') stack' s') := by
  have hi := like_asIndex hb hv (s.store.length a)
  simp only [Machine.resume, hs.store.length]
  revert hi
  generalize asIndex v _ b = r, asIndex v' _ b' = r'
  rintro (⟨⟨⟩⟩ | he)
  · rename_i i
    have hv := hs.store.element? a i
    dsimp only
    revert hv
    generalize s.store.element? a i = v, s'.store.element? a i = v'
    rintro (hv | _)
    · exact like_value hk hs hv
    · exact like_fail hk hs (.blaming hb _)
  · exact like_fail hk hs he

theorem like_setIndexAt (a : ArrayId) {m : Option Nat} {b b' : Token} (hb : R.token b b')
    {env : EnvironmentId} (hm : Within W m env) {e e' : Expr} (he : LikeExpr R m e e')
    {v v' : Value} (hv : LikeValue R W v v') :
    LikeMachine R rest (Machine.resume v (.setIndexAt a b e env) stack s)
      (Machine.resume v' (.setIndexAt a b' e' env) stack' s') := by
  have hi := like_asIndex hb hv (s.store.length a)
  simp only [Machine.resume, hs.store.length]
  revert hi
  generalize asIndex v _ b = r, asIndex v' _ b' = r'
  rintro (⟨⟨⟩⟩ | hf)
  · exact ⟨W, .evaluate hm he, .cons (.setIndex a _ hb) hk, hs⟩
  · exact like_fail hk hs hf

theorem like_setIndex (a : ArrayId) (i : Nat) {b b' : Token} (hb : R.token b b') {v v' : Value}
    (hv : LikeValue R W v v') :
    LikeMachine R rest (Machine.resume v (.setIndex a i b) stack s)
      (Machine.resume v' (.setIndex a i b') stack' s') := by
  have hu := hs.store.setElement? a i hv
  simp only [Machine.resume, hs.store.length]
  revert hu
  generalize s.store.setElement? a i v = u, s'.store.setElement? a i v' = u'
  rintro (hu | _)
  · exact like_value hk (hs.withStore hu) hv
  · exact like_fail hk hs (.blaming hb _)

include hR in
/-- Alike values are handed to alike frames. -/
theorem like_resume {frame frame' : Frame} (hf : LikeFrame R W frame frame') {v v' : Value}
    (hv : LikeValue R W v v') :
    LikeMachine R rest (Machine.resume v frame stack s) (Machine.resume v' frame' stack' s') := by
  cases hf with
  | unary hop => exact like_yield hk hs (like_applyUnary hR hop hv)
  | binaryRight hop hm he => exact ⟨W, .evaluate hm he, .cons (.binary hv hop) hk, hs⟩
  | binary hl hop => exact like_yield hk hs (like_applyBinary hR hop hl hv)
  | logical hop hm he =>
      simp only [Machine.resume, like_decidedBy hR hop hv]
      split
      · exact like_value hk hs hv
      · exact ⟨W, .evaluate hm he, hk, hs⟩
  | assign hn hm hd => exact like_yieldWith hk hs hv (hs.store.change hR hn hd hm hv)
  | callee hp hm hes => exact like_applyNext hR hk hs hv .nil hp hm hes
  | argument hc hvs hp hm hes => exact like_applyNext hR hk hs hc (.cons hv hvs) hp hm hes
  | get hn => exact like_get hR hk hs hn hv
  | setObject hn hm he =>
      cases hv with
      | «instance» hi => exact ⟨W, .evaluate hm he, .cons (.setField hi hn) hk, hs⟩
      | module o => exact ⟨W, .evaluate hm he, .cons (.setMember o hn) hk, hs⟩
      | _ => exact like_fail hk hs (.blaming hn _)
  | setField hi hn =>
      simp only [Machine.resume, hR.lexeme hn]
      exact like_value hk (hs.withStore (hs.store.setField hi.id _ hv)) hv
  | setMember o hn => exact like_setMember hR hk hs o hn hv
  | arraySize hb hm hes =>
      have hsize := like_arraySize hb hv
      simp only [Machine.resume]
      revert hsize
      generalize arraySize v _ = r, arraySize v' _ = r'
      rintro (⟨⟨⟩⟩ | he)
      · exact like_arrayNext hk hs hb _ .nil hm hes
      · exact like_fail hk hs he
  | arrayElement size hb hvs hm hes => exact like_arrayNext hk hs hb size (.cons hv hvs) hm hes
  | indexObject hb hm hi =>
      have ha := like_asArray hb hv
      simp only [Machine.resume]
      revert ha
      generalize asArray v _ = r, asArray v' _ = r'
      rintro (⟨⟨⟩⟩ | he)
      · exact ⟨W, .evaluate hm hi, .cons (.index _ hb) hk, hs⟩
      · exact like_fail hk hs he
  | index a hb => exact like_index hk hs a hb hv
  | setIndexObject hb hm hi he =>
      have ha := like_asArray hb hv
      simp only [Machine.resume]
      revert ha
      generalize asArray v _ = r, asArray v' _ = r'
      rintro (⟨⟨⟩⟩ | hf)
      · exact ⟨W, .evaluate hm hi, .cons (.setIndexAt _ hb hm he) hk, hs⟩
      · exact like_fail hk hs hf
  | setIndexAt a hb hm he => exact like_setIndexAt hk hs a hb hm he hv
  | setIndex a i hb => exact like_setIndex hk hs a i hb hv
  | print => exact like_printValue hR hk hs hv
  | discard => exact like_done hk hs
  | varDecl env hn => exact like_doneWith hk hs (hs.store.define hR (hR.name hn) hv env)
  | letDecl env hn => exact like_doneWith hk hs (hs.store.defineReadOnly hR (hR.name hn) hv env)
  | branch hm ha hb =>
      simp only [Machine.resume, hv.isTruthy]
      split
      · exact ⟨W, .execute hm ha, hk, hs⟩
      · cases hb with
        | none => exact like_done hk hs
        | some hb => exact ⟨W, .execute hm hb, hk, hs⟩
  | loopTest hm he hb hst =>
      simp only [Machine.resume, hv.isTruthy]
      split
      · exact ⟨W, .execute hm hb, .cons (.loopBody hm he hb hst) hk, hs⟩
      · exact like_done hk hs
  | loopStep hm he hb hst => exact like_loop hk hs hm he hb hst
  | superclass hn ht hm hms =>
      cases hv with
      | callable hc =>
          cases hc with
          | «class» hc => exact like_defineClass hR hk hs hn hm (.some hc) hms
          | _ => exact like_fail hk hs (.blaming ht _)
      | _ => exact like_fail hk hs (.blaming ht _)
  | returnWith => exact ⟨W, .unwind (.returning hv), hk, hs⟩
  | constructed hi => exact like_value hk hs (.instance hi)
  | activeCall _ =>
      simp only [Machine.resume, hs.callDepth]
      exact like_value hk (hs.withCallDepth _) hv
  | sequence _ _ => exact like_value hk hs hv
  | loopBody _ _ _ _ => exact like_value hk hs hv
  | moduleBody _ _ _ => exact like_value hk hs hv
  | functionBody _ => exact like_value hk hs hv

include hR in
/-- Alike frames go on alike. -/
theorem like_proceed {frame frame' : Frame} (hf : LikeFrame R W frame frame') :
    LikeMachine R rest (proceed frame stack s) (proceed frame' stack' s') := by
  cases hf with
  | sequence hm hsts =>
      cases hsts with
      | nil => exact like_done hk hs
      | cons hst hsts => exact ⟨W, .execute hm hst, .cons (.sequence hm hsts) hk, hs⟩
  | loopBody hm he hb hst => exact like_loopNext hk hs hm he hb hst
  | moduleBody members env hn =>
      simp only [proceed, hR.lexeme_name hn]
      exact like_doneWith hk (hs.note _ _)
        (hs.store.defineReadOnly hR (hR.name hn) (.module _) env)
  | functionBody hf => exact like_yield hk hs (like_result hR hf .nil hs.store)
  | _ => exact like_done hk hs

include hR in
/-- Alike signals are offered to alike frames. -/
theorem like_unwind {frame frame' : Frame} (hf : LikeFrame R W frame frame') {g g' : Signal}
    (hg : LikeSignal R W g g') :
    LikeMachine R rest (unwind g frame stack s) (unwind g' frame' stack' s') := by
  have hpass : LikeMachine R rest ⟨.unwind g, stack, s⟩ ⟨.unwind g', stack', s'⟩ :=
    ⟨W, .unwind hg, hk, hs⟩
  cases hf with
  | loopBody hm he hb hst =>
      cases hg with
      | continuing => exact like_loopNext hk hs hm he hb hst
      | breaking => exact like_done hk hs
      | failure _ => exact hpass
      | returning _ => exact hpass
  | functionBody hf =>
      cases hg with
      | returning hv => exact like_yield hk hs (like_result hR hf hv hs.store)
      | failure _ => exact hpass
      | breaking => exact hpass
      | continuing => exact hpass
  | activeCall hp =>
      have hdepth := hs.withCallDepth (s.callDepth - 1)
      cases hg with
      | failure he =>
          simp only [unwind, hs.callDepth]
          exact ⟨W, .unwind (.failure (he.orAt hp)), hk, hdepth⟩
      | returning hv =>
          simp only [unwind, hs.callDepth]
          exact ⟨W, .unwind (.returning hv), hk, hdepth⟩
      | breaking =>
          simp only [unwind, hs.callDepth]
          exact ⟨W, .unwind .breaking, hk, hdepth⟩
      | continuing =>
          simp only [unwind, hs.callDepth]
          exact ⟨W, .unwind .continuing, hk, hdepth⟩
  | _ =>
      cases hg <;> exact hpass

end

/-! ## Moves and runs -/

theorem Ended.halted' {R : Likeness} {m m' : Machine} (h : Ended R m m') :
    m'.hasHalted = true := by
  obtain ⟨control, stack, s⟩ := m
  obtain ⟨control', stack', s'⟩ := m'
  obtain ⟨hm, rfl, rfl, W, hc, -⟩ := h
  dsimp only at hc
  cases hc with
  | evaluate _ _ => cases hm
  | execute _ _ => cases hm
  | _ => rfl

section
variable {R : Likeness} (hR : R.OfRuns) {rest : List Stmt} {m m' : Machine}
include hR

/-- Alike machines move alike, until the first is at the end of its program or both
leave their programs. -/
theorem like_step (h : LikeMachine R rest m m') :
    LikeMachine R rest m.step m'.step ∨ Arrived R rest m m' ∨
      Ended R m.step m'.step ∧ m.step.control ≠ .done := by
  obtain ⟨control, stack, s⟩ := m
  obtain ⟨control', stack', s'⟩ := m'
  obtain ⟨W, hc, hk, hs⟩ := h
  dsimp only at hc hk hs
  cases hc with
  | evaluate hm he => exact .inl (like_evaluate hR hk hs hm he)
  | execute hm hst => exact .inl (like_execute hR hk hs hm hst)
  | value hv =>
      cases hk with
      | program _ => exact .inr (.inr ⟨⟨rfl, rfl, rfl, W, .value hv, hs⟩, nofun⟩)
      | cons hf hk => exact .inl (like_resume hR hk hs hf hv)
  | done =>
      cases hk with
      | program hsts =>
          cases hsts with
          | nil => exact .inr (.inl ⟨W, s, s', rfl, rfl, hs⟩)
          | cons hst hsts =>
              have hm : Within W (some 0) State.globals :=
                fun k hk => Option.some.inj hk ▸ hs.store.center
              exact .inl ⟨W, .execute hm hst, .program hsts, hs⟩
      | cons hf hk => exact .inl (like_proceed hR hk hs hf)
  | unwind hg =>
      cases hk with
      | program _ =>
          rw [step_unwind_sequence, step_unwind_sequence]
          exact .inr (.inr ⟨⟨rfl, rfl, rfl, W, .unwind hg, hs⟩, nofun⟩)
      | cons hf hk => exact .inl (like_unwind hR hk hs hf hg)

/-- Alike machines run alike, until the first is at the end of its program or both
have left their programs. -/
theorem like_run (h : LikeMachine R rest m m') (n : Nat) :
    LikeMachine R rest (run n m) (run n m') ∨ ∃ j ≤ n, Arrived R rest (run j m) (run j m') ∨
      Ended R (run j m) (run j m') ∧ (run j m).control ≠ .done := by
  induction n with
  | zero => exact .inl h
  | succ n ih =>
      rcases ih with hn | ⟨j, hj, hend⟩
      · rcases like_step hR hn with hstep | harrived | hended
        · rw [run_succ_right, run_succ_right]
          exact .inl hstep
        · exact .inr ⟨n, Nat.le_succ n, .inl harrived⟩
        · refine .inr ⟨n + 1, Nat.le_refl _, .inr ?_⟩
          rw [run_succ_right, run_succ_right]
          exact hended
      · exact .inr ⟨j, Nat.le_succ_of_le hj, hend⟩

/-- Where both have the same program, they run alike to their ends. -/
theorem like_run_nil (h : LikeMachine R [] m m') (n : Nat) :
    LikeMachine R [] (run n m) (run n m') ∨ Ended R (run n m) (run n m') := by
  rcases like_run hR h n with hn | ⟨j, hj, ⟨W, s, s', hm, hm', hs⟩ | ⟨hended, -⟩⟩
  · exact .inl hn
  · obtain ⟨i, rfl⟩ := Nat.exists_eq_add_of_le hj
    rw [run_add, run_add, hm, hm']
    cases i with
    | zero => exact .inl ⟨W, .done, .program .nil, hs⟩
    | succ i =>
        rw [run_succ, run_succ, run_of_hasHalted rfl, run_of_hasHalted rfl]
        exact .inr ⟨rfl, rfl, rfl, W, .done, hs⟩
  · rw [run_of_le hended.halted hj, run_of_le hended.halted' hj]
    exact .inr hended

end

end Lox
