/-
# A program in two texts

It makes no difference whether a session runs a program as one text or as two, one
after the other: `split_alike`.  The texts are read alike, but for the lines of the
second.  They are resolved alike, but for the names of the first that the second
uses: in one text they have depths, which lead to the globals, and in two they have
none and are looked up there.  So the machines run in lockstep, and where the run of
the first text ends, the run of both goes on as the run of the second.
-/
import Lox.Proofs.Lexical
import Lox.Proofs.Reached

namespace Lox

/-! ## Likenesses of one text and two -/

/-- Tokens are alike as `T` says, and depths as they are after another text. -/
def Likeness.ofTokens (T : Token → Token → Prop) : Likeness where
  token := T
  name n n' := T n n' ∧ n.lexeme ≠ "super"
  depth m d d' := d' = d ∨ d = none ∧ ∃ k, m = some k ∧ d' = some k

/-- Tokens of `before` are the same, and those of `second` are `k` lines further
down. -/
def Likeness.cut (before : List String) (second : String) (k : Nat) : Likeness :=
  .ofTokens fun t t' => t.Of before ∧ t' = t ∨ t.Of [second] ∧ t' = t.shift k

/-- All tokens are the same. -/
def Likeness.equal : Likeness := .ofTokens fun t t' => t' = t ∧ t.Proper

theorem ofSessions_ofTokens {T : Token → Token → Prop}
    (hT : ∀ {t t'}, T t t' → t.Proper ∧ t'.kind = t.kind ∧ t'.lexeme = t.lexeme)
    (himplicit : ∀ {t t'} (n : String), T t t' → T (.implicitAt n t) (.implicitAt n t')) :
    (Likeness.ofTokens T).OfSessions where
  texts :=
    { kind := fun h => (hT h).2.1
      lexeme := fun h => (hT h).2.2
      name := fun h hi => ⟨h, (hT h).1.identifier hi⟩
      super := fun h hs => (hT h).1.keyword hs
      depth := fun _ => ⟨rfl, rfl⟩ }
  scopes :=
    { token := fun h => (hT h).2.2
      name := fun h => (hT h.1).2.2
      own := And.right
      same := fun _ _ => .inl rfl
      global := fun k => .inr ⟨rfl, k, rfl, rfl⟩ }
  runs :=
    { lexeme := fun h => (hT h).2.2
      kind := fun h => (hT h).2.1
      implicit := himplicit
      name := And.left
      depth := id }

theorem ofSessions_cut (before : List String) (second : String) (k : Nat) :
    (Likeness.cut before second k).OfSessions := by
  refine ofSessions_ofTokens ?_ ?_
  · rintro t t' (⟨ht, rfl⟩ | ⟨ht, rfl⟩)
    · exact ⟨ht.proper, rfl, rfl⟩
    · exact ⟨ht.proper, rfl, rfl⟩
  · rintro t t' n (⟨ht, rfl⟩ | ⟨ht, rfl⟩)
    · exact .inl ⟨.implicit n ht, rfl⟩
    · exact .inr ⟨.implicit n ht, rfl⟩

theorem ofSessions_equal : Likeness.equal.OfSessions := by
  refine ofSessions_ofTokens ?_ ?_
  · rintro t t' ⟨rfl, ht⟩
    exact ⟨ht, rfl, rfl⟩
  · rintro t t' n ⟨rfl, -⟩
    exact ⟨rfl, Token.proper_implicit n _⟩

/-! ## Programs one after the other -/

theorem Resolve.stmts_append (s : Surroundings) (σ : Scopes) (as bs : List Stmt) :
    (stmts s σ (as ++ bs)).1 = (stmts s σ as).1 ++ (stmts s (stmts s σ as).2.1 bs).1 ∧
      (stmts s σ (as ++ bs)).2.2.errors =
        (stmts s σ as).2.2.errors ++ (stmts s (stmts s σ as).2.1 bs).2.2.errors := by
  induction as generalizing σ with
  | nil => exact ⟨rfl, rfl⟩
  | cons a as ih =>
      obtain ⟨hprogram, herrors⟩ := ih (stmt s σ a).2.1
      simp only [List.cons_append, stmts, Findings.errors_append, hprogram, herrors,
        List.append_assoc, and_self]

namespace Session

/-- A text that is read is read as well after blank lines. -/
theorem read_below {source : String} {p : List Stmt} (h : (read source).2 = .ok p) (k : Nat) :
    ∃ p', (read (Token.below k source)).2 = .ok p' := by
  obtain ⟨tokens, hscan, hparse⟩ := read_eq_ok h
  obtain ⟨us, -, e, -, -, rfl, -, hus, -, he, -⟩ := Token.scan_append hscan hscan
  obtain ⟨e', he', hscan'⟩ := Token.scan_below hscan he k
  have hsame : List.Forall₂ (Likeness.cut [] source k).unresolved.token us
      (us.map (Token.shift k)) := by
    rw [List.forall₂_map_right_iff, List.forall₂_same]
    exact fun u hu => .inr ⟨.scanned List.mem_cons_self hscan (List.mem_append_left _ hu), rfl⟩
  obtain ⟨p', hparse', -⟩ := parse_like (ofSessions_cut [] source k).texts
    (fun u hu => (hus u hu).kind) he he' hparse hsame
  refine ⟨p', ?_⟩
  unfold read
  rw [hscan']
  dsimp only
  rw [hparse']

/-- Two texts are read as one alike, the second also after blank lines. -/
theorem like_read_append {R : Likeness} (hR : R.unresolved.OfTexts) {first second : String}
    {k : Nat} (hfirst : ∀ t : Token, t.Of [first] → R.token t t)
    (hsecond : ∀ t : Token, t.Of [second] →
      R.token (t.shift k) (t.shift (first.toList.count '\n' + 1)))
    {p₁ p p₂ : List Stmt} (h₁ : (read first).2 = .ok p₁) (h : (read second).2 = .ok p)
    (h₂ : (read (Token.below k second)).2 = .ok p₂) :
    ∃ q₁ q₂, (read (first ++ "\n" ++ second)).2 = .ok (q₁ ++ q₂) ∧
      Parser.SameStmts R.unresolved p₁ q₁ ∧ Parser.SameStmts R.unresolved p₂ q₂ := by
  obtain ⟨tokens₁, hscan₁, hparse₁⟩ := read_eq_ok h₁
  obtain ⟨tokens, hscan, -⟩ := read_eq_ok h
  obtain ⟨tokens₂, hscan₂, hparse₂⟩ := read_eq_ok h₂
  obtain ⟨ts, us, e₁, e, e', rfl, rfl, hts, hus, he₁, he, he', hwhole⟩ :=
    Token.scan_append hscan₁ hscan
  obtain ⟨e₂, he₂, hbelow⟩ := Token.scan_below hscan he k
  cases hscan₂.symm.trans hbelow
  have hsame₁ : List.Forall₂ R.unresolved.token ts ts := List.forall₂_same.mpr fun t ht =>
    hfirst t (.scanned List.mem_cons_self hscan₁ (List.mem_append_left _ ht))
  have hsame₂ : List.Forall₂ R.unresolved.token (us.map (Token.shift k))
      (us.map (Token.shift (first.toList.count '\n' + 1))) := by
    rw [List.forall₂_map_left_iff, List.forall₂_map_right_iff, List.forall₂_same]
    exact fun u hu => hsecond u (.scanned List.mem_cons_self hscan (List.mem_append_left _ hu))
  have hkind₂ : ∀ u ∈ us.map (Token.shift k), u.kind ≠ .eof := by
    intro u hu
    obtain ⟨u₀, hu₀, rfl⟩ := List.mem_map.mp hu
    exact (hus u₀ hu₀).kind
  obtain ⟨q₁, q₂, hparse, hq₁, hq₂⟩ := parse_append hR (fun t ht => (hts t ht).kind)
    hkind₂ he₁ he₂ he' hparse₁ hparse₂ hsame₁ hsame₂
  refine ⟨q₁, q₂, ?_, hq₁, hq₂⟩
  unfold read
  rw [hwhole]
  dsimp only
  rw [hparse]

/-- Two programs that are accepted as one are accepted one by one, and are resolved
alike. -/
theorem like_resolve_append {R : Likeness} (hR : R.OfScopes) {p₁ p₂ q₁ q₂ : List Stmt}
    (h₁ : LikeStmts R.unresolved (some 0) p₁ q₁) (h₂ : LikeStmts R.unresolved (some 0) p₂ q₂)
    (h : Accepted (q₁ ++ q₂)) :
    Accepted p₁ ∧ Accepted p₂ ∧ ∃ r₁ r₂, (Resolve.program (q₁ ++ q₂)).1 = r₁ ++ r₂ ∧
      LikeStmts R (some 0) (Resolve.program p₁).1 r₁ ∧
      LikeStmts R (some 0) (Resolve.program p₂).1 r₂ := by
  obtain ⟨hprogram, herrors⟩ := Resolve.stmts_append .program [[]] q₁ q₂
  obtain ⟨herrors₁, herrors₂⟩ := List.append_eq_nil_iff.mp (herrors.symm.trans h)
  -- the first program has nothing before it, and the second has the globals of the first
  have hnothing : After [] (some 0) [[]] [[]] := .globals rfl (fun _ _ => rfl) (.inl rfl)
  obtain ⟨hfine₁, hlike₁, hafter⟩ := like_stmts hR .program hnothing p₁ h₁ herrors₁
  obtain ⟨g, hg, hsuper⟩ := hafter.outermost
  rw [List.nil_append] at hg hsuper
  rw [hg] at herrors₂ hprogram
  have hglobals : After g (some 0) [[]] [g] := by
    have hg' : After g (some 0) [[]] [g ++ []] :=
      .globals (by rwa [List.append_nil]) (fun _ hn => absurd rfl hn) (.inr rfl)
    rwa [List.append_nil] at hg'
  obtain ⟨hfine₂, hlike₂, -⟩ := like_stmts hR .program hglobals p₂ h₂ herrors₂
  exact ⟨hfine₁, hfine₂, _, _, hprogram, hlike₁, hlike₂⟩

/-! ## Runs one after the other -/

/-- What the runs of two texts, one after the other, come to in so many moves each; the
second does not run unless the first has succeeded. -/
inductive ComesTo (first second : String) (s : State) : Verdict × State → Prop
  | first (moves : Nat) : (run moves first s).1 ≠ .success →
      ComesTo first second s (run moves first s)
  | second {t} (moves moves' : Nat) : run moves first s = (.success, t) →
      ComesTo first second s (run moves' second t)

/-- The run of a text that starts ends as its machine does. -/
theorem run_of_start {source : String} {s : State} {m : Machine} (h : start source s = .ok m)
    (moves : Nat) : run moves source s = conclude (Machine.run moves m) := by
  unfold run
  rw [h]

theorem conclude_ne_success {m : Machine} (h : m.control ≠ .done) :
    (conclude m).1 ≠ .success := by
  obtain ⟨control, stack, s⟩ := m
  cases stack with
  | cons frame stack => cases control <;> exact nofun
  | nil =>
      cases control with
      | done => exact absurd rfl h
      | unwind g => cases g <;> exact nofun
      | _ => exact nofun

/-- Where the first program has ended, a machine that runs the second one is like the
machine that goes on. -/
theorem like_second {R : Likeness} {m m' : Machine} {program rest : List Stmt}
    (h : Arrived R rest m m') (hrest : LikeStmts R (some 0) program rest) :
    ∃ t, m.step = ⟨.done, [], t⟩ ∧
      ∀ events : List Event,
        LikeMachine R [] ((events.foldl State.note t).starting program) m' := by
  obtain ⟨W, t, t', rfl, rfl, hs⟩ := h
  refine ⟨t, rfl, fun events => ?_⟩
  have hm := like_starting (hs.notes events []) hrest []
  rwa [List.append_nil] at hm

/-- Behind the end of its program a machine has succeeded. -/
theorem conclude_of_step {m : Machine} {t : State} {j n : Nat}
    (ht : (Machine.run j m).step = ⟨.done, [], t⟩) (hn : j < n) :
    conclude (Machine.run n m) = (.success, t) := by
  have hj : Machine.run (j + 1) m = ⟨.done, [], t⟩ := (Machine.run_succ_right j m).trans ht
  have hhalted : (Machine.run (j + 1) m).hasHalted = true := by
    rw [hj]
    rfl
  rw [Machine.run_of_le hhalted hn, hj]
  rfl

theorem stack_of_arrived {R : Likeness} {rest : List Stmt} {m m' : Machine}
    (h : Arrived R rest m m') : m.stack ≠ [] := by
  obtain ⟨W, t, t', rfl, -, -⟩ := h
  exact nofun

/-- At the end of the first program both go on. -/
theorem like_conclude_arrived {R : Likeness} {rest : List Stmt} {m m' : Machine}
    (h : Arrived R rest m m') : LikeConclusion R (conclude m) (conclude m') := by
  obtain ⟨W, t, t', rfl, rfl, hs⟩ := h
  exact ⟨.unfinished, W, hs⟩

/-- Machines on their way have alike states. -/
theorem like_conclude_going {R : Likeness} {rest : List Stmt} {m m' : Machine}
    (h : LikeMachine R rest m m') : LikeConclusion R (conclude m) (conclude m') := by
  obtain ⟨hm, hm', hs⟩ := like_conclude h
  rw [hm, hm']
  exact ⟨.unfinished, hs⟩

section
variable {R : Likeness} (hR : R.OfSessions) {first second whole : String} {s : State}
  {p₁ p₂ q₁ q₂ : List Stmt} (hs : ∃ W, LikeState R W s s)
  (hfirst : ∀ s, ∃ events : List Event,
    start first s = .ok ((events.foldl State.note s).starting p₁))
  (hsecond : ∀ s, ∃ events : List Event,
    start second s = .ok ((events.foldl State.note s).starting p₂))
  (hwhole : ∀ s, ∃ events : List Event,
    start whole s = .ok ((events.foldl State.note s).starting (q₁ ++ q₂)))
  (h₁ : LikeStmts R (some 0) p₁ q₁) (h₂ : LikeStmts R (some 0) p₂ q₂)
include hR hs hfirst hsecond hwhole h₁ h₂

/-- What the run of the whole comes to, the runs of the two texts come to. -/
theorem exists_comesTo (moves : Nat) :
    ∃ c₀, ComesTo first second s c₀ ∧ LikeConclusion R c₀ (run moves whole s) := by
  obtain ⟨W, hs⟩ := hs
  obtain ⟨events, hstart⟩ := hfirst s
  obtain ⟨events', hstart'⟩ := hwhole s
  have hm := like_starting (hs.notes events events') h₁ q₂
  rw [run_of_start hstart']
  rcases like_run hR.runs hm moves with hn | ⟨j, hj, harrived | ⟨hended, hcontrol⟩⟩
  · refine ⟨_, .first moves ?_, ?_⟩ <;> rw [run_of_start hstart]
    · rw [(like_conclude hn).1]
      exact nofun
    · exact like_conclude_going hn
  · obtain ⟨t, ht, hnext⟩ := like_second harrived h₂
    obtain ⟨events₂, hstart₂⟩ := hsecond t
    obtain ⟨i, rfl⟩ := Nat.exists_eq_add_of_le hj
    rw [Machine.run_add]
    refine ⟨_, .second (t := t) (j + 1) i ?_, ?_⟩
    · rw [run_of_start hstart, Machine.run_succ_right, ht]
      rfl
    · rw [run_of_start hstart₂]
      exact like_conclude_run hR.runs (hnext events₂) i
  · rw [Machine.run_of_le hended.halted' hj]
    refine ⟨_, .first j ?_, ?_⟩ <;> rw [run_of_start hstart]
    · exact conclude_ne_success hcontrol
    · exact like_conclude_ended hended

/-- What the runs of the two texts come to, the run of the whole comes to. -/
theorem exists_run_of_comesTo {c₀ : Verdict × State} (h : ComesTo first second s c₀) :
    ∃ moves, LikeConclusion R c₀ (run moves whole s) := by
  obtain ⟨W, hs⟩ := hs
  obtain ⟨events, hstart⟩ := hfirst s
  obtain ⟨events', hstart'⟩ := hwhole s
  have hm := like_starting (hs.notes events events') h₁ q₂
  cases h with
  | first moves hfailed =>
      rw [run_of_start hstart] at hfailed ⊢
      rcases like_run hR.runs hm moves with hn | ⟨j, hj, harrived | ⟨hended, -⟩⟩
      · refine ⟨moves, ?_⟩
        rw [run_of_start hstart']
        exact like_conclude_going hn
      · -- the first text has just come to its end, or has succeeded
        obtain ⟨t, ht, -⟩ := like_second harrived h₂
        rcases Nat.eq_or_lt_of_le hj with rfl | hlt
        · refine ⟨j, ?_⟩
          rw [run_of_start hstart']
          exact like_conclude_arrived harrived
        · rw [conclude_of_step ht hlt] at hfailed
          exact absurd rfl hfailed
      · refine ⟨j, ?_⟩
        rw [Machine.run_of_le hended.halted hj, run_of_start hstart']
        exact like_conclude_ended hended
  | @second t moves moves' hn =>
      rw [run_of_start hstart] at hn
      rcases like_run hR.runs hm moves with halike | ⟨j, hj, harrived | ⟨hended, hcontrol⟩⟩
      · rw [(like_conclude halike).1] at hn
        cases hn
      · obtain ⟨t', ht, hnext⟩ := like_second harrived h₂
        have hlt : j < moves := by
          refine Nat.lt_of_le_of_ne hj ?_
          rintro rfl
          rw [conclude_of_stack (stack_of_arrived harrived)] at hn
          cases hn
        rw [conclude_of_step ht hlt] at hn
        obtain rfl := (Prod.mk.inj hn).2
        obtain ⟨events₂, hstart₂⟩ := hsecond t'
        refine ⟨j + moves', ?_⟩
        rw [run_of_start hstart₂, run_of_start hstart', Machine.run_add]
        exact like_conclude_run hR.runs (hnext events₂) moves'
      · rw [Machine.run_of_le hended.halted hj] at hn
        exact absurd (congrArg Prod.fst hn) (conclude_ne_success hcontrol)

end

/-- Running the whole text and running the two one after the other come to alike
conclusions, at every number of moves: what has ended on one side is like what has ended
on the other, and what goes on is like what goes on. -/
structure RunsAlike (R : Likeness) (whole first second : String) (s : State) : Prop where
  forth : ∀ moves, ∃ c₀, ComesTo first second s c₀ ∧ LikeConclusion R c₀ (run moves whole s)
  back : ∀ c₀, ComesTo first second s c₀ → ∃ moves, LikeConclusion R c₀ (run moves whole s)

theorem runsAlike {R : Likeness} (hR : R.OfSessions) {sources : List String} {s : State}
    (hs : Reached sources s) (hkeeps : R.Keeps sources) {first second : String} {k : Nat}
    (hfirst : ∀ t : Token, t.Of [first] → R.token t t)
    (hsecond : ∀ t : Token, t.Of [second] →
      R.token (t.shift k) (t.shift (first.toList.count '\n' + 1)))
    {p₁ p₂ p : List Stmt} (h₁ : (read first).2 = .ok p₁) (h₂ : (read second).2 = .ok p₂)
    (h : (prepare (first ++ "\n" ++ second)).2 = .ok p) :
    RunsAlike R (first ++ "\n" ++ second) first (Token.below k second) s := by
  obtain ⟨p₂', h₂'⟩ := read_below h₂ k
  obtain ⟨q₁, q₂, hread, hq₁, hq₂⟩ := like_read_append hR.texts hfirst hsecond h₁ h₂ h₂'
  obtain ⟨haccepted, rfl⟩ := prepare_eq_ok hread h
  obtain ⟨hfine₁, hfine₂, r₁, r₂, hr, hr₁, hr₂⟩ :=
    like_resolve_append hR.scopes (hq₁ (some 0)) (hq₂ (some 0)) haccepted
  have hwhole := start_of_accepted hread haccepted
  rw [hr] at hwhole
  have halike := hs.alike hR hkeeps
  exact ⟨exists_comesTo hR halike (start_of_accepted h₁ hfine₁)
      (start_of_accepted h₂' hfine₂) hwhole hr₁ hr₂,
    fun _ hc => exists_run_of_comesTo hR halike (start_of_accepted h₁ hfine₁)
      (start_of_accepted h₂' hfine₂) hwhole hr₁ hr₂ hc⟩

/-! ## Names of the globals -/

/-- With a depth and without one a name stands for the same, and is changed to the
same. -/
structure SameBinding (s : Store) (name : Token) (d : Nat) (env : EnvironmentId) : Prop where
  lookUp : Machine.lookUp s name (some d) env = Machine.lookUp s name none env
  change : ∀ v, Machine.change s name (some d) env v = Machine.change s name none env v

theorem sameBinding_outermost {texts : List (List Stmt)} {t : Trail} {s : Store}
    {env : EnvironmentId} {c : Context} (hs : StoreOk texts t s) (h : InStep t s env c) {d : Nat}
    (hd : d + 1 = c.scopes.length) (name : Token) : SameBinding s name d env := by
  have hroot : s.enclosing? State.globals = none := Store.enclosing?_globals hs.linked
  have hlast : s.ancestor? env d = some State.globals := by
    have hlength := h.length
    have houtermost := h.outermost
    rw [List.getLast?_eq_getElem?, hlength, ← hd, Nat.add_sub_cancel] at houtermost
    rw [Store.ancestor?_eq_getElem? hs.linked, houtermost]
  exact ⟨Machine.lookUp_outermost hroot hlast name, Machine.change_outermost hroot hlast name⟩

/-- In every state of a session, a program is run alike as one text and as two texts
one after the other, to the end and on the way to it: the same output, alike verdicts,
and alike states.  An error blames the same token or one of the second text, which then
stands further down; and it is exactly the same error if the second text is put as far
down.  At every moment of every session, a name that the resolver found among the
globals stands for the same as without a depth. -/
theorem split_alike {sources : List String} {s : State} (hs : Reached sources s)
    {first second : String} {p₁ p₂ p : List Stmt} (h₁ : (read first).2 = .ok p₁)
    (h₂ : (read second).2 = .ok p₂) (h : (prepare (first ++ "\n" ++ second)).2 = .ok p) :
    RunsAlike (.cut (sources ++ [first]) second (first.toList.count '\n' + 1))
      (first ++ "\n" ++ second) first second s ∧
    RunsAlike .equal (first ++ "\n" ++ second) first
      (Token.below (first.toList.count '\n' + 1) second) s ∧
    ∀ {limit now texts t m}, Moment limit now texts t m →
      (∀ e env name d, m.control = .evaluate e env → e.reference = some (name, some d) →
        ∃ c e₀, visitAt texts t.here = some ⟨c, .expr e₀⟩ ∧ c.expr e₀ = e ∧
          (d + 1 = c.scopes.length → SameBinding m.state.store name d env)) ∧
      (∀ v name d env stack, m.control = .value v → m.stack = .assign name (some d) env :: stack →
        ∃ c v₀, visitAt texts (t.frames.headD []) = some ⟨c, .expr (.assign name v₀ none)⟩ ∧
          (d + 1 = c.scopes.length → SameBinding m.state.store name d env)) := by
  have hbefore : ∀ t : Token, t.Of sources → t.Of (sources ++ [first]) :=
    fun t ht => ht.mono fun u hu => List.mem_append_left _ hu
  have hfirst : ∀ t : Token, t.Of [first] → t.Of (sources ++ [first]) :=
    fun t ht => ht.mono fun u hu => List.mem_append_right _ hu
  refine ⟨?_, ?_, ?_⟩
  · have halike := runsAlike (k := 0) (ofSessions_cut (sources ++ [first]) second _) hs
      (fun t ht => .inl ⟨hbefore t ht, rfl⟩) (fun t ht => .inl ⟨hfirst t ht, rfl⟩)
      (fun t ht => .inr ⟨ht, rfl⟩) h₁ h₂ h
    rwa [Token.below_zero] at halike
  · exact runsAlike ofSessions_equal hs (fun t ht => ⟨rfl, ht.proper⟩)
      (fun t ht => ⟨rfl, ht.proper⟩) (fun t ht => ⟨rfl, ht.proper.identifier, ht.proper.keyword⟩)
      h₁ h₂ h
  · intro limit now texts t m hm
    refine ⟨?_, ?_⟩
    · intro e env name d he _
      obtain ⟨c, e₀, hv, hexpr, hstep⟩ := hm.expr_inStep he
      exact ⟨c, e₀, hv, hexpr, fun hd => sameBinding_outermost hm.coherent.store hstep hd name⟩
    · intro v name d env stack _ hframe
      obtain ⟨c, v₀, hv, -, hstep⟩ := hm.assign_inStep hframe
      exact ⟨c, v₀, hv, fun hd => sameBinding_outermost hm.coherent.store hstep hd name⟩

/-! ### `var a;` and `print a;` -/

theorem read_declared : (read "var a;").2 = .ok [.varDecl (nameAt "a" 5) none] := by
  with_unfolding_all rfl

theorem read_used : (read "print a;").2 = .ok [.print (.variable (nameAt "a" 7) none)] := by
  with_unfolding_all rfl

/-- The program of both in one text. -/
def declaredUsed : List Stmt :=
  [.varDecl (nameAt "a" 5) none, .print (.variable ⟨.identifier, "a", ⟨2, 7⟩⟩ none)]

theorem read_declaredUsed : (read ("var a;" ++ "\n" ++ "print a;")).2 = .ok declaredUsed := by
  with_unfolding_all rfl

theorem run_declaredUsed :
    (run 10 ("var a;" ++ "\n" ++ "print a;") (.initial none 0)).1 = .success ∧
      (run 10 ("var a;" ++ "\n" ++ "print a;") (.initial none 0)).2.output.written = "nil\n" := by
  obtain ⟨events, hstart⟩ := start_of_accepted read_declaredUsed rfl (.initial none 0)
  rw [State.foldl_note] at hstart
  rw [run_of_start hstart]
  exact ⟨rfl, rfl⟩

/-- Where both are one text, `a` has a depth; in two texts it has none, and the same
is printed. -/
theorem split_alike_printed : ∃ c, ComesTo "var a;" "print a;" (.initial none 0) c ∧
    c.1 = .success ∧ c.2.output.written = "nil\n" := by
  have halike := split_alike (.first none 0) read_declared read_used
    (prepare_of_accepted read_declaredUsed rfl)
  obtain ⟨hsuccess, hwritten⟩ := run_declaredUsed
  obtain ⟨⟨v, t⟩, hcomes, hverdict, W, hstate⟩ := halike.1.forth 10
  rw [hsuccess] at hverdict
  refine ⟨_, hcomes, ?_, hstate.output.symm ▸ hwritten⟩
  dsimp only at hverdict ⊢
  cases hverdict
  rfl

end Session

end Lox
