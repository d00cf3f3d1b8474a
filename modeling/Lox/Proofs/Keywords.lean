/-
# Where `this` and `super` stand

A class pushes a scope for `this`, and if it has a superclass one for `super` outside of
it.  No other scope holds either of them, since they are no names.  So the depth of a
keyword leads to the innermost class around it, or to the innermost one that has a
superclass.

There is such a class wherever the resolver lets a keyword stand, with one exception.
The superclass of a class is resolved as if it stood inside of the class, whose scopes are
not there yet.  A keyword in it for which there is no class further outside gets no
depth: `receiver_placed` and `superMethod_placed`.
-/
import Lox.Proofs.Names

namespace Lox

/-- `p` is inside the superclass of a class. -/
def InSuperclass (texts : List (List Stmt)) (p : Place) : Prop :=
  ∃ q c name e ms, (0 :: q) <:+ p ∧
    visitAt texts q = some ⟨c, .stmt (.classDecl name (some e) ms)⟩

/-! ## The scopes of a keyword -/

/-- The scopes that hold `word` are those that were pushed for `site`. -/
def PushedFor (word : String) (site : Place → Site) : List Site → Scopes → Prop :=
  List.Forall₂ fun s scope => Table.has scope word = true ↔ ∃ q, s = site q

/-- The innermost scope that was pushed for `site` is `d` steps outwards. -/
def Nearest (site : Place → Site) (L : List Site) (d : Nat) : Prop :=
  (∃ q, L[d]? = some (site q)) ∧ ∀ k < d, ∀ q, L[k]? ≠ some (site q)

namespace PushedFor

variable {word : String} {site : Place → Site} {L : List Site} {σ σ' : Scopes}

/-- Other names may be added. -/
theorem adds {new : String → Prop} (h : PushedFor word site L σ) (hgrows : σ.Grows σ')
    (hadds : σ.Adds new σ') (hword : ¬ new word) : PushedFor word site L σ' := by
  cases hgrows with
  | nil => exact h
  | @cons scope full outer hagrees =>
      cases hadds with
      | cons hnew =>
          cases h with
          | cons hhead htail =>
              refine .cons ⟨fun hfull => ?_, fun hsite => ?_⟩ htail
              · exact hhead.mp ((hnew word hfull).resolve_right hword)
              · obtain ⟨b, hb⟩ := Option.isSome_iff_exists.mp (hhead.mpr hsite)
                obtain ⟨b', hb', -⟩ := hagrees word b hb
                exact Option.isSome_iff_exists.mpr ⟨b', hb'⟩

/-- A scope that is pushed for something else, and holds other names. -/
theorem push (h : PushedFor word site L σ) {s : Site} (hs : ∀ q, s ≠ site q) {scope : StaticScope}
    (hscope : Table.has scope word = false) : PushedFor word site (s :: L) (scope :: σ) := by
  refine .cons ⟨fun hhas => ?_, fun ⟨q, hq⟩ => absurd hq (hs q)⟩ h
  cases hscope.symm.trans hhas

/-- The scope that is pushed for the keyword. -/
theorem pushSite (h : PushedFor word site L σ) (q : Place) :
    PushedFor word site (site q :: L) (Scopes.implicit word :: σ) := by
  refine .cons ⟨fun _ => ⟨q, rfl⟩, fun _ => ?_⟩ h
  simp [Scopes.implicit, Table.has, Table.get?]

/-- A scope that was pushed for the keyword holds it. -/
theorem holds (h : PushedFor word site L σ) {d : Nat} {q : Place} (hd : L[d]? = some (site q)) :
    ∃ scope, σ[d]? = some scope ∧ Table.has scope word = true := by
  induction h generalizing d with
  | nil => cases hd
  | @cons s scope L σ hhead _ ih =>
      cases d with
      | zero =>
          cases hd
          exact ⟨scope, rfl, hhead.mpr ⟨q, rfl⟩⟩
      | succ d => exact ih hd

/-- A keyword is found in the innermost scope that was pushed for it, if there is one. -/
theorem find? (h : PushedFor word site L σ) :
    (∃ d b, σ.find? word = some (d, b) ∧ Nearest site L d) ∨
      σ.find? word = none ∧ ∀ q, site q ∉ L := by
  induction h with
  | nil => exact .inr ⟨rfl, fun _ => List.not_mem_nil⟩
  | @cons s scope L σ hhead _ ih =>
      cases hb : scope.get? word with
      | some b =>
          obtain ⟨q, rfl⟩ := hhead.mp (Option.isSome_iff_exists.mpr ⟨b, hb⟩)
          refine .inl ⟨0, b, ?_, ⟨q, rfl⟩, fun k hk => absurd hk (Nat.not_lt_zero k)⟩
          simp only [Scopes.find?, hb]
      | none =>
          have hother : ∀ q, s ≠ site q := by
            intro q hq
            obtain ⟨b, hb'⟩ := Option.isSome_iff_exists.mp (hhead.mpr ⟨q, hq⟩)
            cases hb.symm.trans hb'
          rcases ih with ⟨d, b, hfind, hnearest, hinner⟩ | ⟨hfind, hnone⟩
          · refine .inl ⟨d + 1, b, ?_, hnearest, fun k hk q hq => ?_⟩
            · simp only [Scopes.find?, hb, hfind, Option.map_some]
            · cases k with
              | zero => exact hother q (Option.some.inj hq)
              | succ k => exact hinner k (Nat.lt_of_succ_lt_succ hk) q hq
          · refine .inr ⟨by simp only [Scopes.find?, hb, hfind, Option.map_none], fun q hq => ?_⟩
            rcases List.mem_cons.mp hq with heq | hq
            · exact hother q heq.symm
            · exact hnone q hq

/-- The depth of a keyword leads to the innermost scope that was pushed for it. -/
theorem refer (h : PushedFor word site L σ) {name : Token} (hname : name.lexeme = word) (a : Bool) :
    (∃ d, (σ.refer name none a).1 = some d ∧ Nearest site L d) ∨
      (σ.refer name none a).1 = none ∧ ∀ q, site q ∉ L := by
  subst hname
  unfold Scopes.refer
  rcases h.find? with ⟨d, b, hfind, hnearest⟩ | ⟨hfind, hnone⟩
  · rw [hfind]
    exact .inl ⟨d, rfl, hnearest⟩
  · rw [hfind]
    exact .inr ⟨rfl, hnone⟩

end PushedFor

/-! ## What the resolver knows -/

/-- What the resolver knows about the classes around the node at `p`. -/
structure Placed (texts : List (List Stmt)) (p : Place) (c : Context) : Prop where
  receivers : PushedFor Store.receiverName .receiver c.sites c.scopes
  superclasses : PushedFor Machine.superName .superclass c.sites c.scopes
  inner : ∀ k q, c.sites[k]? = some (.superclass q) →
    ∃ j, k = j + 1 ∧ c.sites[j]? = some (.receiver q)
  inClass : c.surroundings.inClass ≠ .none →
    (∃ q, .receiver q ∈ c.sites) ∨ InSuperclass texts p
  derived : c.surroundings.inClass = .derived →
    (∃ q, .superclass q ∈ c.sites) ∨ InSuperclass texts p

namespace Placed

variable {texts : List (List Stmt)} {p : Place} {c : Context}

theorem inside (h : Placed texts p c) (i : Nat) : Placed texts (i :: p) c := by
  have hinside : InSuperclass texts p → InSuperclass texts (i :: p) := by
    rintro ⟨q, c, name, e, ms, hq, hv⟩
    exact ⟨q, c, name, e, ms, hq.trans (List.suffix_cons i p), hv⟩
  exact ⟨h.receivers, h.superclasses, h.inner, fun hc => (h.inClass hc).imp_right hinside,
    fun hc => (h.derived hc).imp_right hinside⟩

/-- Other things around the node. -/
theorem surrounded (h : Placed texts p c) (s : Surroundings)
    (hs : s.inClass = c.surroundings.inClass) :
    Placed texts p { c with surroundings := s } :=
  ⟨h.receivers, h.superclasses, h.inner, fun hc => h.inClass (hs ▸ hc),
    fun hc => h.derived (hs ▸ hc)⟩

/-- Plain names are added. -/
theorem adds (h : Placed texts p c) {σ : Scopes} {new : String → Prop}
    (hgrows : c.scopes.Grows σ) (hadds : c.scopes.Adds new σ)
    (hnew : ∀ n, new n → ∃ x : Token, x.Plain ∧ x.lexeme = n) :
    Placed texts p (c.withScopes σ) := by
  refine ⟨h.receivers.adds hgrows hadds fun hn => ?_,
    h.superclasses.adds hgrows hadds fun hn => ?_, h.inner, h.inClass, h.derived⟩
  · obtain ⟨x, hx, hname⟩ := hnew _ hn
    exact hx.1 hname
  · obtain ⟨x, hx, hname⟩ := hnew _ hn
    exact hx.2 hname

theorem introduce (h : Placed texts p c) {x : Token} (hx : x.Plain) (a : Bool) :
    Placed texts p (c.withScopes (c.scopes.introduce x.lexeme a)) := by
  refine h.adds (Scopes.grows_introduce ..) (Scopes.adds_introduce c.scopes x.lexeme a) ?_
  rintro n rfl
  exact ⟨x, hx, rfl⟩

theorem declare (h : Placed texts p c) {x : Token} (hx : x.Plain) (a : Bool) :
    Placed texts p (c.withScopes (c.scopes.declare x.lexeme a)) := by
  refine h.adds (Scopes.grows_declare ..) (Scopes.adds_declare c.scopes x.lexeme a) ?_
  rintro n rfl
  exact ⟨x, hx, rfl⟩

theorem after (h : Placed texts p c) {st : Stmt} (hst : WordedStmt st) :
    Placed texts p (c.after st) := by
  refine h.adds (Resolve.grows_stmt ..) (Context.adds_after hst) ?_
  rintro n ⟨x, hx, hname⟩
  exact ⟨x, hst.plain hx, hname⟩

theorem through (h : Placed texts p c) {sts : List Stmt} (hsts : ∀ st ∈ sts, WordedStmt st) :
    Placed texts p (c.through sts) := by
  induction sts generalizing c with
  | nil => exact h
  | cons st sts ih =>
      obtain ⟨hst, hsts⟩ := List.forall_mem_cons.mp hsts
      exact ih (h.after hst) hsts

/-- The inside of a construct that is no class. -/
theorem push (h : Placed texts p c) {site : Site} (hr : ∀ q, site ≠ .receiver q)
    (hs : ∀ q, site ≠ .superclass q) : Placed texts p (c.push site) := by
  refine ⟨h.receivers.push hr rfl, h.superclasses.push hs rfl, fun k q hk => ?_, fun hc => ?_,
    fun hc => ?_⟩
  · cases k with
    | zero => exact absurd (Option.some.inj hk) (hs q)
    | succ k =>
        obtain ⟨j, rfl, hj⟩ := h.inner k q hk
        exact ⟨j + 1, rfl, hj⟩
  · exact (h.inClass hc).imp_left fun ⟨q, hq⟩ => ⟨q, List.mem_cons_of_mem site hq⟩
  · exact (h.derived hc).imp_left fun ⟨q, hq⟩ => ⟨q, List.mem_cons_of_mem site hq⟩

/-- The body of a function. -/
theorem body (h : Placed texts p c) {kind : FunctionKind} {params : List Token}
    (hparams : ∀ x ∈ params, x.Plain) : Placed texts p (c.body p kind params) := by
  have hcall : Placed texts p ({ c with surroundings := c.surroundings.within kind }.push
      (.call p)) :=
    (h.surrounded (c.surroundings.within kind) rfl).push (fun _ he => (nomatch he))
      fun _ he => (nomatch he)
  refine hcall.adds (Scopes.grows_withParams ..) (Scopes.adds_withParams _ params) ?_
  rintro n ⟨x, hx, hname⟩
  exact ⟨x, hparams x hx, hname⟩

/-- The methods of a class. -/
theorem methods (h : Placed texts p c) {name : Token} (hname : name.Plain) (e : Option Expr) :
    Placed texts p (c.methods p name e) := by
  obtain ⟨hreceivers, hsuperclasses, hinner, -, -⟩ := h.introduce hname true
  cases e with
  | none =>
      refine ⟨hreceivers.pushSite p, hsuperclasses.push (s := .receiver p)
        (fun _ he => (nomatch he)) rfl,
        fun k q hk => ?_, fun _ => .inl ⟨p, List.mem_cons_self⟩, nofun⟩
      cases k with
      | zero => cases hk
      | succ k =>
          obtain ⟨j, rfl, hj⟩ := hinner k q hk
          exact ⟨j + 1, rfl, hj⟩
  | some e =>
      refine ⟨(hreceivers.push (s := .superclass p) (fun _ he => (nomatch he)) rfl).pushSite p,
        (hsuperclasses.pushSite p).push (s := .receiver p) (fun _ he => (nomatch he)) rfl,
        fun k q hk => ?_,
        fun _ => .inl ⟨p, List.mem_cons_self⟩,
        fun _ => .inl ⟨p, List.mem_cons_of_mem _ List.mem_cons_self⟩⟩
      match k with
      | 0 => cases hk
      | 1 =>
          cases hk
          exact ⟨0, rfl, rfl⟩
      | k + 2 =>
          obtain ⟨j, rfl, hj⟩ := hinner k q hk
          exact ⟨j + 2, rfl, hj⟩

/-- The superclass of a class. -/
theorem superclass {name : Token} {e : Expr} {ms : List FunctionDecl} (h : Placed texts p c)
    (hname : name.Plain) (hv : visitAt texts p = some ⟨c, .stmt (.classDecl name (some e) ms)⟩) :
    Placed texts (0 :: p) (c.superclass name) := by
  have hinside : InSuperclass texts (0 :: p) := ⟨p, c, name, e, ms, List.suffix_rfl, hv⟩
  obtain ⟨hreceivers, hsuperclasses, hinner, -, -⟩ := h.introduce hname true
  exact ⟨hreceivers, hsuperclasses, hinner, fun _ => .inr hinside, fun _ => .inr hinside⟩

end Placed

section
variable {texts : List (List Stmt)} {p : Place}

/-- What is known at a node is known at its children. -/
theorem Placed.child {v w : Visit} {i : Nat} (h : Placed texts p v.context)
    (hv : visitAt texts p = some v) (hworded : v.Worded) (hchild : v.child p i = some w) :
    Placed texts (i :: p) w.context := by
  have hin := h.inside i
  cases Visit.enters_child hchild with
  | operand => exact hin
  | text => exact hin.through fun st hst => hworded st (List.mem_append_left _ hst)
  | @lambda c d =>
      cases hworded with
      | function hd =>
          cases hd with
          | @mk keyword name params body hname _ _ =>
              cases name with
              | none => exact hin
              | some name =>
                  have hself : Placed texts (i :: p) (c.push (.selfName p)) :=
                    hin.push (fun _ he => (nomatch he)) fun _ he => (nomatch he)
                  exact hself.introduce (hname name rfl) false
  | varInitializer =>
      cases hworded with
      | varDecl hname _ => exact hin.declare hname true
  | letInitializer =>
      cases hworded with
      | letDecl hname _ => exact hin.declare hname false
  | @block c before st later =>
      cases hworded with
      | block hbody =>
          have hblock : Placed texts (i :: p) (c.push (.block p)) :=
            hin.push (fun _ he => (nomatch he)) fun _ he => (nomatch he)
          exact hblock.through fun st hst => hbody st (List.mem_append_left _ hst)
  | onTrue => exact hin
  | onFalse =>
      cases hworded with
      | branch _ htrue _ _ _ => exact hin.after htrue
  | @loopBody c => exact hin.surrounded { c.surroundings with inLoop := true } rfl
  | @loopStep c condition body step =>
      cases hworded with
      | whileLoop _ hbody _ _ =>
          have hlooping : Placed texts (i :: p) c.looping :=
            hin.surrounded { c.surroundings with inLoop := true } rfl
          exact (hlooping.after hbody).surrounded c.surroundings rfl
  | @declared c d =>
      cases hworded with
      | functionDecl hd =>
          cases hd with
          | @mk keyword name params body hname _ _ =>
              cases name with
              | none => exact hin
              | some name => exact hin.introduce (hname name rfl) true
  | @superclass c name e ms =>
      cases hworded with
      | classDecl hname _ _ =>
          cases i with
          | zero => exact h.superclass hname hv
          | succ i =>
              obtain ⟨d, -, hd⟩ := Visit.method_eq hchild
              cases congrArg Visit.node hd
  | @methods c name e ms d =>
      cases hworded with
      | classDecl hname _ _ => exact (h.methods hname e).inside i
  | @members c name before st later =>
      cases hworded with
      | moduleDecl _ hbody =>
          have hmembers : Placed texts (i :: p) (c.members p) :=
            (hin.surrounded { c.surroundings with inLoop := false } rfl).push
              (fun _ he => (nomatch he)) fun _ he => (nomatch he)
          exact hmembers.through fun st hst => hbody st (List.mem_append_left _ hst)
  | @body c kind keyword name params before st later =>
      cases hworded with
      | mk _ hparams hbody =>
          have hcall : Placed texts (i :: p) (c.body p kind params) := (h.body hparams).inside i
          exact hcall.through fun st hst => hbody st (List.mem_append_left _ hst)

theorem visitAt_placed (hread : ∀ body ∈ texts, WasRead body) {v : Visit}
    (h : visitAt texts p = some v) : Placed texts p v.context := by
  refine visitAt_inductAt (P := fun p v => Placed texts p v.context) ?_ ?_ h
  · intro r body _
    refine ⟨.cons ⟨nofun, fun ⟨_, hq⟩ => (nomatch hq)⟩ .nil,
      .cons ⟨nofun, fun ⟨_, hq⟩ => (nomatch hq)⟩ .nil, fun k q hk => ?_, fun hc => absurd rfl hc,
      nofun⟩
    cases k <;> cases hk
  · intro p v i w hv hplaced hchild
    exact hplaced.child hv (visitAt_worded hread hv) hchild

/-! ## Depths of keywords -/

variable {c : Context} {keyword method : Token} {depth : Option Nat}

/-- Where `this` was let stand, it is looked up. -/
theorem Context.expr_receiver_of_errors
    (h : Visit.errors ⟨c, .expr (.receiver keyword depth)⟩ = []) :
    c.surroundings.inClass ≠ .none ∧
      c.expr (.receiver keyword depth) =
        .receiver keyword (c.scopes.refer keyword depth false).1 := by
  cases hc : c.surroundings.inClass with
  | none =>
      simp only [Visit.errors, Resolve.expr, hc] at h
      cases h
  | base | derived => exact ⟨fun h => (by cases h), by simp only [Context.expr, Resolve.expr, hc]⟩

/-- Where `super` was let stand, it is looked up. -/
theorem Context.expr_superMethod_of_errors
    (h : Visit.errors ⟨c, .expr (.superMethod keyword method depth)⟩ = []) :
    c.surroundings.inClass = .derived ∧
      c.expr (.superMethod keyword method depth) =
        .superMethod keyword method (c.scopes.refer keyword depth false).1 := by
  cases hc : c.surroundings.inClass with
  | none | base =>
      simp only [Visit.errors, Resolve.expr, hc] at h
      cases h
  | derived => exact ⟨rfl, by simp only [Context.expr, Resolve.expr, hc]⟩

section
variable (accepted : ∀ body ∈ texts, Accepted body) (hread : ∀ body ∈ texts, WasRead body)
include accepted hread

/-- The depth of `this` leads to the innermost class around it.  Without one it stands in
a superclass, and has no depth. -/
theorem receiver_placed (hv : visitAt texts p = some ⟨c, .expr (.receiver keyword depth)⟩) :
    (∃ d, c.expr (.receiver keyword depth) = .receiver keyword (some d) ∧
      Nearest .receiver c.sites d) ∨
    c.expr (.receiver keyword depth) = .receiver keyword none ∧
      (∀ q, .receiver q ∉ c.sites) ∧ InSuperclass texts p := by
  obtain ⟨hclass, hexpr⟩ := Context.expr_receiver_of_errors (visitAt_errors accepted hv)
  have hfresh : depth = none := visitAt_fresh hread hv
  have hworded : WordedExpr (.receiver keyword depth) := visitAt_worded hread hv
  have hplaced : Placed texts p c := visitAt_placed hread hv
  subst hfresh
  rw [hexpr]
  cases hworded with
  | receiver hname =>
      rcases hplaced.receivers.refer hname false with ⟨d, hd, hnearest⟩ | ⟨hd, hnone⟩
      · exact .inl ⟨d, congrArg _ hd, hnearest⟩
      · refine .inr ⟨congrArg _ hd, hnone, ?_⟩
        exact (hplaced.inClass hclass).resolve_left fun ⟨q, hq⟩ => hnone q hq

/-- The depth of `super` leads to the innermost class around it that has a superclass.
Without one it stands in a superclass, and has no depth. -/
theorem superMethod_placed
    (hv : visitAt texts p = some ⟨c, .expr (.superMethod keyword method depth)⟩) :
    (∃ d, c.expr (.superMethod keyword method depth) = .superMethod keyword method (some d) ∧
      Nearest .superclass c.sites d) ∨
    c.expr (.superMethod keyword method depth) = .superMethod keyword method none ∧
      (∀ q, .superclass q ∉ c.sites) ∧ InSuperclass texts p := by
  obtain ⟨hclass, hexpr⟩ := Context.expr_superMethod_of_errors (visitAt_errors accepted hv)
  have hfresh : depth = none := visitAt_fresh hread hv
  have hworded : WordedExpr (.superMethod keyword method depth) := visitAt_worded hread hv
  have hplaced : Placed texts p c := visitAt_placed hread hv
  subst hfresh
  rw [hexpr]
  cases hworded with
  | superMethod hname =>
      rcases hplaced.superclasses.refer hname false with ⟨d, hd, hnearest⟩ | ⟨hd, hnone⟩
      · exact .inl ⟨d, congrArg _ hd, hnearest⟩
      · refine .inr ⟨congrArg _ hd, hnone, ?_⟩
        exact (hplaced.derived hclass).resolve_left fun ⟨q, hq⟩ => hnone q hq

end

end

end Lox
