/-
# States of sessions

A session goes from state to state by running texts, and between two of them
anybody may take its output away.  Whatever was run, its state is like itself:
`Reached.alike`, under every likeness under which the tokens of its texts are like
themselves.  So two runs that begin in one state begin alike, although functions
of earlier texts are still there to be called.
-/
import Lox.Proofs.Fresh
import Lox.Proofs.Lockstep.Step
import Lox.Proofs.Moment
import Lox.Proofs.Resolve

namespace Lox

/-- A token of one of the texts, or one that stands in its place. -/
inductive Token.Of (sources : List String) : Token → Prop
  | scanned {source tokens t} : source ∈ sources → Token.scan source = .ok tokens →
      t ∈ tokens → Of sources t
  | implicit {t} (n : String) : Of sources t → Of sources (.implicitAt n t)

/-- The word `super` is the keyword and nothing else. -/
structure Token.Proper (t : Token) : Prop where
  identifier : t.kind = .identifier → t.lexeme ≠ "super"
  keyword : t.kind = .kwSuper → t.lexeme = "super"

/-- A likeness of texts, of what the resolver makes of them and of their runs. -/
structure Likeness.OfSessions (R : Likeness) : Prop where
  texts : R.unresolved.OfTexts
  scopes : R.OfScopes
  runs : R.OfRuns

/-- The tokens of the texts are like themselves. -/
def Likeness.Keeps (R : Likeness) (sources : List String) : Prop :=
  ∀ t, t.Of sources → R.token t t

namespace Token

theorem Of.mono {sources sources' : List String} (h : ∀ s ∈ sources, s ∈ sources') {t : Token}
    (ht : t.Of sources) : t.Of sources' := by
  induction ht with
  | scanned hs hscan ht => exact .scanned (h _ hs) hscan ht
  | implicit n _ ih => exact .implicit n ih

theorem proper_implicit (n : String) (t : Token) : (implicitAt n t).Proper := ⟨nofun, nofun⟩

theorem Of.proper {sources : List String} {t : Token} (h : t.Of sources) : t.Proper := by
  cases h with
  | implicit n _ => exact proper_implicit n _
  | scanned _ hscan ht =>
      obtain ⟨-, rfl⟩ := scan_eq_ok hscan
      rcases List.mem_append.mp ht with ht | ht
      · have hw := Segment.written_ofChars ht
        exact ⟨fun hk hs => hw.identifier hk .kwSuper (hs ▸ by decide),
          fun hk => hw.keyword "super" (hk ▸ by decide)⟩
      · cases List.mem_singleton.mp ht
        exact ⟨nofun, nofun⟩

end Token

namespace Session

/-! ## Programs of texts -/

theorem read_eq_ok {source : String} {body : List Stmt} (h : (read source).2 = .ok body) :
    ∃ tokens, Token.scan source = .ok tokens ∧ parse tokens = .ok body := by
  unfold read at h
  split at h
  · cases h
  · rename_i tokens hscan
    split at h
    · cases h
    · rename_i hparse
      cases h
      exact ⟨tokens, hscan, hparse⟩

theorem prepare_eq_ok {source : String} {program body : List Stmt}
    (hread : (read source).2 = .ok body) (h : (prepare source).2 = .ok program) :
    Accepted body ∧ program = (Resolve.program body).1 := by
  unfold prepare at h
  cases hr : read source with
  | mk events r =>
      rw [hr] at hread h
      cases hread
      simp only [settle] at h
      split at h
      · rename_i hnone
        cases h
        exact ⟨hnone, rfl⟩
      · cases h

variable {R : Likeness} (hR : R.OfSessions)
include hR

/-- What the resolver makes of a text is like itself. -/
theorem like_accepted {source : String} (hkeeps : R.Keeps [source]) {body : List Stmt}
    (hread : (read source).2 = .ok body) (haccepted : Accepted body) :
    LikeStmts R (some 0) (Resolve.program body).1 (Resolve.program body).1 := by
  obtain ⟨tokens, hscan, hparse⟩ := read_eq_ok hread
  have htokens : ∀ t ∈ tokens, R.token t t :=
    fun t ht => hkeeps t (.scanned List.mem_cons_self hscan ht)
  obtain ⟨ts, -, e, -, -, rfl, -, hwritten, -, he, -⟩ := Token.scan_append hscan hscan
  have hsame : List.Forall₂ R.unresolved.token ts ts :=
    List.forall₂_same.mpr fun t ht => htokens t (List.mem_append_left _ ht)
  obtain ⟨p, hp, hsameBody⟩ :=
    parse_like hR.texts (fun t ht => (hwritten t ht).kind) he he hparse hsame
  cases hp.symm.trans hparse
  have hafter : After [] (some 0) [[]] [[]] := .globals rfl (fun _ _ => rfl) (.inl rfl)
  exact (like_stmts hR.scopes .program hafter body (hsameBody (some 0)) haccepted).2.1

end Session

/-! ## How runs end -/

/-- Verdicts that are alike, of texts that were accepted. -/
inductive LikeVerdict (R : Likeness) : Verdict → Verdict → Prop
  | success : LikeVerdict R .success .success
  | failure {e e'} : LikeError R e e' →
      LikeVerdict R (.failure (.runtime e)) (.failure (.runtime e'))
  | unfinished : LikeVerdict R .unfinished .unfinished

/-- Alike verdicts, and alike states that are left. -/
structure LikeConclusion (R : Likeness) (c c' : Verdict × State) : Prop where
  verdict : LikeVerdict R c.1 c'.1
  state : ∃ W, LikeState R W c.2 c'.2

namespace Session

theorem conclude_state (m : Machine) : (conclude m).2 = (State.concluded m).2 := by
  unfold conclude
  cases h : State.concluded m with
  | mk outcome s => cases outcome <;> rfl

theorem conclude_of_stack {m : Machine} (h : m.stack ≠ []) :
    conclude m = (.unfinished, m.state) := by
  obtain ⟨control, stack, s⟩ := m
  cases stack with
  | nil => exact absurd rfl h
  | cons frame stack => cases control <;> rfl

theorem hasHalted_of_conclude {m : Machine} (h : (conclude m).1 ≠ .unfinished) :
    m.hasHalted = true := by
  obtain ⟨control, stack, s⟩ := m
  cases stack with
  | nil => cases control <;> first | rfl | exact absurd rfl h
  | cons frame stack => cases control <;> exact absurd rfl h

/-- What machines that have come to alike ends conclude. -/
theorem like_conclude_ended {R : Likeness} {m m' : Machine} (h : Ended R m m') :
    LikeConclusion R (conclude m) (conclude m') := by
  obtain ⟨control, stack, s⟩ := m
  obtain ⟨control', stack', s'⟩ := m'
  obtain ⟨hm, rfl, rfl, W, hc, hs⟩ := h
  dsimp only at hc hs
  cases hc with
  | evaluate _ _ => cases hm
  | execute _ _ => cases hm
  | value _ => exact ⟨.unfinished, W, hs⟩
  | done => exact ⟨.success, W, hs⟩
  | unwind hg =>
      cases hg with
      | failure he => exact ⟨.failure he, W, hs⟩
      | returning _ => exact ⟨.failure (.unplaced _), W, hs.note _ _⟩
      | breaking => exact ⟨.failure (.unplaced _), W, hs.note _ _⟩
      | continuing => exact ⟨.failure (.unplaced _), W, hs.note _ _⟩

/-- Machines on their way have no conclusion. -/
theorem like_conclude {R : Likeness} {rest : List Stmt} {m m' : Machine}
    (h : LikeMachine R rest m m') : conclude m = (.unfinished, m.state) ∧
      conclude m' = (.unfinished, m'.state) ∧ ∃ W, LikeState R W m.state m'.state := by
  obtain ⟨W, -, hk, hs⟩ := h
  exact ⟨conclude_of_stack hk.ne_nil.1, conclude_of_stack hk.ne_nil.2, W, hs⟩

/-! ## States -/

/-- The states that a session can be in after running the texts: each run came to
its end, well or not, and in between the output, the events and the clock may have
become anything. -/
inductive Reached : List String → State → Prop
  | first (limit : Option Nat) (now : ClockReading) : Reached [] (.initial limit now)
  | ran {sources s} (moves : Nat) (source : String) : Reached sources s →
      (run moves source s).1 ≠ .unfinished → Reached (sources ++ [source]) (run moves source s).2
  | aside {sources s} (output : Output) (events : List Event) (clock : Nat → ClockReading) :
      Reached sources s → Reached sources (s.aside output events clock)

/-- Machines with alike programs come to alike conclusions. -/
theorem like_conclude_run {R : Likeness} (hR : R.OfRuns) {m m' : Machine}
    (h : LikeMachine R [] m m') (moves : Nat) :
    LikeConclusion R (conclude (Machine.run moves m)) (conclude (Machine.run moves m')) := by
  rcases like_run_nil hR h moves with hn | hended
  · obtain ⟨hm, hm', hs⟩ := like_conclude hn
    rw [hm, hm']
    exact ⟨.unfinished, hs⟩
  · exact like_conclude_ended hended

/-- At the beginning there are the native functions, at no distance. -/
theorem like_initial (R : Likeness) (limit : Option Nat) (now : ClockReading) :
    ∃ W, LikeState R W (.initial limit now) (.initial limit now) := by
  have hbase : LikeStore R (fun e k => e = State.globals ∧ k = 0)
      (Store.empty.newEnvironment default).2 (Store.empty.newEnvironment default).2 := by
    refine ⟨.cons ⟨.nil, rfl, rfl⟩ .nil, .nil, .nil, rfl, ?_, ⟨rfl, rfl⟩, Nat.zero_lt_one, rfl⟩
    rintro e k ⟨rfl, rfl⟩
    rfl
  have hclock := hbase.put (.callable (.native .clock)) State.globals Native.clock.name
  exact ⟨_, hclock.put (.callable (.native .len)) State.globals Native.len.name,
    rfl, rfl, rfl, rfl⟩

/-- A machine that is about to run a program is like one that is about to run one
more program after a like one. -/
theorem like_starting {R : Likeness} {W : Distances} {s s' : State} (hs : LikeState R W s s')
    {program program' : List Stmt} (h : LikeStmts R (some 0) program program')
    (rest : List Stmt) :
    LikeMachine R rest (s.starting program) (s'.starting (program' ++ rest)) :=
  ⟨W, .done, .program h, hs⟩

/-- A state of a session is like itself. -/
theorem Reached.alike {R : Likeness} (hR : R.OfSessions) {sources : List String} {s : State}
    (h : Reached sources s) (hkeeps : R.Keeps sources) : ∃ W, LikeState R W s s := by
  induction h with
  | first limit now => exact like_initial R limit now
  | @ran sources s moves source h hfinished ih =>
      obtain ⟨W, hs⟩ := ih fun t ht => hkeeps t (ht.mono fun u hu => List.mem_append_left _ hu)
      unfold run
      cases hstart : start source s with
      | error failed =>
          obtain ⟨f, s'⟩ := failed
          obtain ⟨events, rfl⟩ := start_eq_error hstart
          exact ⟨W, hs.notes events events⟩
      | ok m =>
          obtain ⟨body, events, hread, haccepted, rfl⟩ := start_eq_ok hstart
          have hprogram := like_accepted hR (fun t ht => hkeeps t (ht.mono fun u hu =>
            List.mem_append_right _ hu)) hread haccepted
          have hm := like_starting (hs.notes events events) hprogram []
          rw [List.append_nil] at hm
          exact (like_conclude_run hR.runs hm moves).state
  | aside output events clock h ih =>
      obtain ⟨W, hs⟩ := ih hkeeps
      exact ⟨W, hs.store, rfl, rfl, rfl, rfl⟩

end Session

end Lox
