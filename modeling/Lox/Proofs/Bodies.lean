/-
# Bodies of modules

The body of a module is executed in an environment of its own, on top of a frame that
waits for its end.  `Executing` says how far it is: which of its statements were begun, and
of the names that these declare, which are there and which the machine is still
`Declaring`.  A declaration that ends well leaves its name there, so that a body that has
come to its end has defined all that it declares.

Nothing else ever gets into the environment: `MembersOf`.  This says `Moment.executing` of
every module on the stack, `Moment.completed` of a module that is about to be made, and
`After.members` of all that comes after.
-/
import Lox.Proofs.After
import Lox.Proofs.CallDepth
import Lox.Proofs.Redeclared

namespace Lox

/-! ## Declarations on their way -/

/-- The declaration `d` in `env` is about to begin, waits for something, or has come to its
end, and if it ended well its name is there. -/
inductive Declaring (s : Store) (env : EnvironmentId) (d : Declaration) :
    Control → List Frame → Prop
  | begun {st} : st.declaration? = some d → Declaring s env d (.execute st env) []
  | waiting {control stack frame} : frame.declaration? = some (env, d) →
      Declaring s env d control (stack ++ [frame])
  | done : s.binds env d.name.lexeme = true → Declaring s env d .done []
  | left {signal} : Declaring s env d (.unwind signal) []

/-- The statements are executed in `env`, one after the other: of those that were begun all
names are there, but for one that is on its way. -/
inductive Executing (s : Store) (env : EnvironmentId) (sts : List Stmt) :
    Control → List Frame → Prop
  | going {ran later control stack} : sts = ran ++ later →
      (∀ st ∈ ran, ∀ d, st.declaration? = some d →
        s.binds env d.name.lexeme = true ∨ Declaring s env d control stack) →
      Executing s env sts control (stack ++ [.sequence later env])
  | ended : (∀ st ∈ sts, ∀ d, st.declaration? = some d → s.binds env d.name.lexeme = true) →
      Executing s env sts .done []
  | left {signal} : Executing s env sts (.unwind signal) []

section
variable {s : Store} {env : EnvironmentId} {d : Declaration} {sts : List Stmt}

theorem Declaring.binds (h : Declaring s env d .done []) : s.binds env d.name.lexeme = true := by
  generalize hcontrol : Control.done = control at h
  generalize hstack : ([] : List Frame) = stack at h
  cases h with
  | begun => cases hcontrol
  | waiting =>
      exact absurd hstack.symm (List.append_ne_nil_of_right_ne_nil _ (List.cons_ne_nil _ _))
  | done hb => exact hb
  | left => cases hcontrol

/-- When the statements are done, all that they declare is there. -/
theorem Executing.binds (h : Executing s env sts .done []) :
    ∀ st ∈ sts, ∀ d, st.declaration? = some d → s.binds env d.name.lexeme = true := by
  generalize hcontrol : Control.done = control at h
  generalize hstack : ([] : List Frame) = stack at h
  cases h with
  | going =>
      exact absurd hstack.symm (List.append_ne_nil_of_right_ne_nil _ (List.cons_ne_nil _ _))
  | ended hall => exact hall
  | left => cases hcontrol

/-- Before the first statement nothing was begun. -/
theorem Executing.start : Executing s env sts .done [.sequence sts env] := by
  have hnone : Executing s env sts .done ([] ++ [.sequence sts env]) :=
    .going (List.nil_append sts).symm fun _ hst => nomatch hst
  exact hnone

theorem Control.Fits.above {control : Control} {stack base : List Frame}
    (h : control.Fits (stack ++ base)) : control.Fits stack := by
  cases stack with
  | nil => cases control <;> trivial
  | cons frame stack => cases control <;> exact h

end

namespace Machine

/-- No name is ever lost. -/
theorem binds_step {m : Machine} {e : EnvironmentId} {n : String}
    (h : m.state.store.binds e n = true) : m.step.state.store.binds e n = true := by
  rcases m.kept_step with hkept | ⟨f, k, v, -, hput⟩
  · obtain ⟨v, hv⟩ := Store.binds_eq_true.mp h
    exact Store.binds_eq_true.mpr ⟨v, hkept.names hv⟩
  · rw [hput, Store.binds, Store.getLocal?_put]
    split
    · rfl
    · exact h

variable {m : Machine} {env : EnvironmentId} {d : Declaration} {sts : List Stmt}

/-- A declaration that has come to its end. -/
theorem Declared.declaring {s₀ : Store} (h : m.Declared s₀ env d)
    (henv : env < s₀.environments.size) : Declaring m.state.store env d m.control m.stack := by
  cases h with
  | done hdone => exact .done (by simp [hdone.binds env henv])
  | failed => exact .left

/-- A declaration that is on its way goes on. -/
theorem declaring_step (h : Declaring m.state.store env d m.control m.stack)
    (henv : env < m.state.store.environments.size) (hfits : m.control.Fits m.stack) :
    Declaring m.step.state.store env d m.step.control m.step.stack := by
  obtain ⟨control, stack, s⟩ := m
  replace h : Declaring s.store env d control stack := h
  cases h with
  | begun hst =>
      show Declaring (execute _ env [] s).state.store env d (execute _ env [] s).control
        (execute _ env [] s).stack
      rcases execute_declaration hst henv with hend | ⟨m, frame, hfirst, hframe, -, -⟩
      · exact hend.declaring henv
      · rw [hfirst]
        exact .waiting hframe
  | @waiting _ stack frame hframe =>
      cases hhalted : hasHalted ⟨control, stack, s⟩ with
      | true =>
          have hend := Declared.of_halted (m := ⟨control, stack, s⟩) henv .refl hframe hfits hhalted
          exact hend.declaring henv
      | false =>
          have hstep : step ⟨control, stack ++ [frame], s⟩ =
              (step ⟨control, stack, s⟩).onto [frame] := step_onto hhalted [frame]
          rw [hstep]
          exact .waiting hframe
  | done hb => exact .done hb
  | left => exact .left

/-- What is executed one after the other goes on, and a statement begins when the one before
it is done. -/
theorem executing_step (h : Executing m.state.store env sts m.control m.stack)
    (henv : env < m.state.store.environments.size) (hfits : m.control.Fits m.stack) :
    Executing m.step.state.store env sts m.step.control m.step.stack := by
  obtain ⟨control, stack, s⟩ := m
  replace h : Executing s.store env sts control stack := h
  cases h with
  | @going ran later _ stack hsts hran =>
      cases hhalted : hasHalted ⟨control, stack, s⟩ with
      | false =>
          have hstep : step ⟨control, stack ++ [.sequence later env], s⟩ =
              (step ⟨control, stack, s⟩).onto [.sequence later env] := step_onto hhalted _
          rw [hstep]
          refine .going hsts fun st hst d hd => ?_
          rcases hran st hst d hd with hb | hdeclaring
          · exact .inl (binds_step (m := ⟨control, stack, s⟩) hb)
          · exact .inr (declaring_step (m := ⟨control, stack, s⟩) hdeclaring henv hfits.above)
      | true =>
          have hstack : stack = [] := stack_of_hasHalted hhalted
          subst hstack
          cases control with
          | evaluate | execute => cases hhalted
          | value => cases hfits
          | unwind signal =>
              show Executing _ env sts (step ⟨.unwind signal, [.sequence later env], s⟩).control
                (step ⟨.unwind signal, [.sequence later env], s⟩).stack
              rw [step_unwind_sequence]
              exact .left
          | done =>
              have hthere : ∀ st ∈ ran, ∀ d, st.declaration? = some d →
                  s.store.binds env d.name.lexeme = true :=
                fun st hst d hd => (hran st hst d hd).elim id Declaring.binds
              cases later with
              | nil =>
                  rw [List.append_nil] at hsts
                  exact .ended (hsts ▸ hthere)
              | cons st rest =>
                  have hmore : sts = (ran ++ [st]) ++ rest := by rw [hsts, List.append_assoc]; rfl
                  have hbegun : Executing s.store env sts (.execute st env)
                      ([] ++ [.sequence rest env]) := by
                    refine .going hmore (List.forall_mem_append.mpr ⟨?_, ?_⟩)
                    · exact fun st hst d hd => .inl (hthere st hst d hd)
                    · exact List.forall_mem_singleton.mpr fun d hd => .inr (.begun hd)
                  exact hbegun
  | ended hall => exact .ended hall
  | left => exact .left

/-! ## Modules on the stack -/

/-- A move begins a module, or it pushes no frame of one. -/
theorem pushed_of_step (hfits : m.control.Fits m.stack) :
    (∃ name body e, m.control = .execute (.moduleDecl name body) e) ∨
      ∃ pushed, m.step.stack = pushed ++ m.below ∧
        ∀ name members e, Frame.moduleBody name members e ∉ pushed := by
  cases shift hfits with
  | @call c arguments paren stack hcalls habove =>
      obtain ⟨⟨pushed, hstack, hpushed⟩, -⟩ := habove
      have hbelow : m.below = stack := by cases hcalls <;> rfl
      refine .inr ⟨pushed ++ [.activeCall paren], ?_, fun name members e hmem => ?_⟩
      · rw [hstack, hbelow, List.append_assoc]
        rfl
      · rcases List.mem_append.mp hmem with hmem | hmem
        · exact hpushed _ hmem
        · cases List.mem_singleton.mp hmem
  | leave _ hbelow hstep _ =>
      exact .inr ⟨[], hstep.trans hbelow.symm, fun _ _ _ hmem => nomatch hmem⟩
  | «open» hcontrol => exact .inl ⟨_, _, _, hcontrol⟩
  | stay _ habove =>
      obtain ⟨⟨pushed, hstack, hpushed⟩, -⟩ := habove
      exact .inr ⟨pushed, hstack, fun name members e hmem => hpushed _ hmem⟩

/-- What is below the top of the stack, once the move has taken what it takes, has something
on it that moves. -/
theorem onto_of_below {under base : List Frame} {frame : Frame}
    (h : m.below = under ++ frame :: base) :
    ∃ inner : Machine, inner.hasHalted = false ∧ m = inner.onto (frame :: base) := by
  obtain ⟨control, stack, s⟩ := m
  have htop : stack.tail = under ++ frame :: base →
      ∃ top, stack = (top :: under) ++ frame :: base := by
    intro htail
    cases stack with
    | nil => exact absurd htail.symm (List.append_ne_nil_of_right_ne_nil _ (List.cons_ne_nil _ _))
    | cons top rest => exact ⟨top, congrArg (top :: ·) htail⟩
  cases control with
  | evaluate e env =>
      replace h : stack = _ := h
      exact ⟨⟨.evaluate e env, under, s⟩, rfl, h ▸ rfl⟩
  | execute st env =>
      replace h : stack = _ := h
      exact ⟨⟨.execute st env, under, s⟩, rfl, h ▸ rfl⟩
  | value v =>
      obtain ⟨top, hstack⟩ := htop h
      exact ⟨⟨.value v, top :: under, s⟩, rfl, hstack ▸ rfl⟩
  | done =>
      obtain ⟨top, hstack⟩ := htop h
      exact ⟨⟨.done, top :: under, s⟩, rfl, hstack ▸ rfl⟩
  | unwind signal =>
      obtain ⟨top, hstack⟩ := htop h
      exact ⟨⟨.unwind signal, top :: under, s⟩, rfl, hstack ▸ rfl⟩

/-- Where a module is on the stack after a move: the move has begun it, or what stands on the
module has moved. -/
theorem moduleBody_of_step (hfits : m.control.Fits m.stack) {above base : List Frame}
    {name : Token} {members : EnvironmentId}
    (h : m.step.stack = above ++ .moduleBody name members env :: base) :
    (∃ body, m.control = .execute (.moduleDecl name body) env ∧
      members = m.state.store.environments.size ∧ above = [.sequence body members]) ∨
    ∃ inner : Machine, inner.hasHalted = false ∧ inner.step.stack = above ∧
      m = inner.onto (.moduleBody name members env :: base) := by
  have hmoved : ∀ under, m.below = under ++ .moduleBody name members env :: base →
      ∃ inner : Machine, inner.hasHalted = false ∧ inner.step.stack = above ∧
        m = inner.onto (.moduleBody name members env :: base) := by
    intro under hunder
    obtain ⟨inner, hgoing, rfl⟩ := onto_of_below hunder
    rw [step_onto hgoing] at h
    exact ⟨inner, hgoing, List.append_cancel_right h, rfl⟩
  rcases pushed_of_step hfits with ⟨name', body, e, hcontrol⟩ | ⟨pushed, hpushed, hnone⟩
  · obtain ⟨control, stack, s⟩ := m
    cases hcontrol
    -- two frames are pushed, the lower one for the module that is begun
    match above, h with
    | [top], h =>
        cases h
        exact .inl ⟨body, rfl, rfl, rfl⟩
    | _ :: _ :: under, h =>
        obtain ⟨-, h⟩ := List.cons.inj h
        obtain ⟨-, h⟩ := List.cons.inj h
        exact .inr (hmoved under h)
  · rw [h] at hpushed
    rcases List.append_eq_append_iff.mp hpushed with ⟨more, hmore, hbelow⟩ | ⟨under, -, hbelow⟩
    · cases more with
      | nil => exact .inr (hmoved [] hbelow.symm)
      | cons frame more =>
          obtain ⟨rfl, -⟩ := List.cons.inj hbelow
          refine absurd ?_ (hnone name members env)
          rw [hmore]
          exact List.mem_append_right _ List.mem_cons_self
    · exact .inr (hmoved under hbelow)

end Machine

/-! ## The environment of a module -/

/-- A module is what the resolver made of one. -/
theorem Context.module_of_stmt {c : Context} {st : Stmt} {name : Token} {body : List Stmt}
    (h : c.stmt st = .moduleDecl name body) (p : Place) :
    ∃ body₀, st = .moduleDecl name body₀ ∧ (c.members p).stmts body₀ = body := by
  cases st with
  | moduleDecl name' body₀ =>
      cases h
      exact ⟨body₀, rfl, rfl⟩
  | functionDecl d => cases (c.stmt_functionDecl d).symm.trans h
  | classDecl name' e ms => cases e <;> cases h
  | _ => cases h

/-- What the resolver makes of statements declares the same. -/
theorem Context.declares_stmts (c : Context) {sts : List Stmt} {st : Stmt} (h : st ∈ sts) :
    ∃ st' ∈ c.stmts sts, st'.declares = st.declares := by
  induction sts generalizing c with
  | nil => cases h
  | cons first rest ih =>
      rcases List.mem_cons.mp h with rfl | hrest
      · exact ⟨c.stmt st, List.mem_cons_self, c.declares_stmt st⟩
      · obtain ⟨st', hst', hdeclares⟩ := ih (c.after first) hrest
        exact ⟨st', List.mem_cons_of_mem _ hst', hdeclares⟩

/-- The innermost construct around an environment is the one that it was made for. -/
theorem Trail.sites_eq_cons {texts : List (List Stmt)} {t : Trail} {s : Store}
    {e : EnvironmentId} {L : List Site} {site : Site} (h : (t.world texts s).sites e = some L)
    (hsite : t.origins[e]? = some site) : ∃ outer, L = site :: outer := by
  simp only [world, Store.chain_eq s e, List.mapM_cons, Option.bind_eq_bind,
    Option.bind_eq_some_iff] at h
  obtain ⟨site', hsite', outer, -, hcons⟩ := h
  cases hsite.symm.trans hsite'
  cases hcons
  exact ⟨outer, rfl⟩

/-- The name is declared by one of the statements of the body itself. -/
def DeclaresMember (body : List Stmt) (n : String) : Prop := ∃ st ∈ body, st.Declares n

namespace Session

variable {limit : Option Nat} {now : ClockReading} {texts texts' : List (List Stmt)} {t t' : Trail}
  {m m' : Machine}

/-- The environment `e` was made for the module at `q`, which has this body, and holds no
name that the body does not declare. -/
structure MembersOf (texts : List (List Stmt)) (t : Trail) (s : Store) (e : EnvironmentId)
    (q : Place) (name : Token) (body : List Stmt) : Prop where
  declared : ∃ c, visitAt texts q = some ⟨c, .stmt (.moduleDecl name body)⟩
  origin : t.origins[e]? = some (.members q)
  only : ∀ n, s.binds e n = true → DeclaresMember body n

variable {e : EnvironmentId} {q : Place} {name : Token} {body : List Stmt}

theorem MembersOf.there (h : MembersOf texts t m.state.store e q name body)
    (hm : Moment limit now texts t m) : e < m.state.store.environments.size :=
  hm.coherent.store.origins ▸ (List.getElem?_eq_some_iff.mp h.origin).1

/-- A move adds no other name. -/
theorem MembersOf.step (h : MembersOf texts t m.state.store e q name body)
    (hm : Moment limit now texts t m) :
    MembersOf texts (t.step m) m.step.state.store e q name body where
  declared := h.declared
  origin := Trail.getElem?_of_prefix (Trail.extends_step m t).origins h.origin
  only n hn := by
    rcases Machine.binds_of_step (h.there hm) hn with hold | ⟨x, hdue, rfl⟩
    · exact h.only n hold
    · obtain ⟨c', st, hv, hst, hsites⟩ := hm.coherent.declares hdue
      obtain ⟨outer, houter⟩ := Trail.sites_eq_cons hsites h.origin
      obtain ⟨c, hq⟩ := h.declared
      exact ⟨st, mem_of_declares hm.sound.read hv hst houter hq, x, hst, rfl⟩

/-- A text that is added changes nothing. -/
theorem MembersOf.next {s : Store} (h : MembersOf texts t s e q name body) (more : List (List Stmt))
    (frames : List Place) : MembersOf (texts ++ more) { t with frames := frames } s e q name body :=
  ⟨h.declared.imp fun _ hv => visitAt_append more hv, h.origin, h.only⟩

/-- The environment that is made for a module is empty. -/
theorem members_of_begun (h : Coherent texts t m) {body' : List Stmt}
    {env : EnvironmentId} (hcontrol : m.control = .execute (.moduleDecl name body') env) :
    ∃ c body, visitAt texts t.here = some ⟨c, .stmt (.moduleDecl name body)⟩ ∧
      (c.members t.here).stmts body = body' ∧
      MembersOf texts (t.step m) m.step.state.store m.state.store.environments.size t.here name
        body := by
  obtain ⟨control, stack, s⟩ := m
  cases hcontrol
  obtain ⟨c, st, hv, hst, -⟩ := h.control
  obtain ⟨body, rfl, hbody⟩ := Context.module_of_stmt hst t.here
  refine ⟨c, body, hv, hbody, ⟨c, hv⟩, ?_, fun n hn => ?_⟩
  · show (t.origins ++ [Site.members t.here])[s.store.environments.size]? = _
    rw [← h.store.origins]
    exact List.getElem?_concat_length
  · have hnone : (s.store.child env).2.binds s.store.environments.size n = false :=
      Store.binds_child s.store env n
    cases hnone.symm.trans hn

/-- A module that is on the stack has an environment of its own, and what stands on it
executes its body there. -/
theorem Moment.executing (h : Moment limit now texts t m) {above base : List Frame}
    {members env : EnvironmentId}
    (hstack : m.stack = above ++ .moduleBody name members env :: base) :
    ∃ q c body, visitAt texts q = some ⟨c, .stmt (.moduleDecl name body)⟩ ∧
      MembersOf texts t m.state.store members q name body ∧
      Executing m.state.store members ((c.members q).stmts body) m.control above := by
  induction h generalizing above with
  | first => cases above <;> cases hstack
  | aside _ _ _ _ ih => exact ih hstack
  | next _ _ _ hstart _ =>
      obtain ⟨body, events, -, -, rfl⟩ := start_eq_ok hstart
      rcases above with _ | ⟨frame, _ | ⟨frame', above⟩⟩ <;> cases hstack
  | @move texts t m hm ih =>
      rcases Machine.moduleBody_of_step hm.stacked.control hstack with
        ⟨body', hcontrol, rfl, rfl⟩ | ⟨inner, hgoing, rfl, rfl⟩
      · obtain ⟨c, body, hv, rfl, hmembers⟩ := members_of_begun hm.coherent hcontrol
        obtain ⟨control, stack, s⟩ := m
        cases hcontrol
        exact ⟨t.here, c, body, hv, hmembers, .start⟩
      · obtain ⟨q, c, body, hv, hmembers, hexecuting⟩ := ih rfl
        refine ⟨q, c, body, hv, hmembers.step hm, ?_⟩
        have hstep := Machine.step_onto hgoing (.moduleBody name members env :: base)
        rw [hstep]
        exact Machine.executing_step hexecuting (hmembers.there hm) hm.stacked.control.above

/-- The environment holds what the body of its module declares, and nothing else. -/
structure Members (texts : List (List Stmt)) (t : Trail) (s : Store) (e : EnvironmentId)
    (q : Place) (name : Token) (body : List Stmt) : Prop
    extends MembersOf texts t s e q name body where
  all : ∀ n, DeclaresMember body n → s.binds e n = true

/-- A body that has come to its end has defined all that it declares. -/
theorem Moment.completed (h : Moment limit now texts t m) {members env : EnvironmentId}
    {base : List Frame} (hdone : m.control = .done)
    (hstack : m.stack = .moduleBody name members env :: base) :
    ∃ q body, Members texts t m.state.store members q name body := by
  have hnothing : m.stack = [] ++ .moduleBody name members env :: base := hstack
  obtain ⟨q, c, body, -, hmembers, hexecuting⟩ := h.executing hnothing
  rw [hdone] at hexecuting
  refine ⟨q, body, hmembers, ?_⟩
  rintro n ⟨st, hst, x, hx, rfl⟩
  obtain ⟨st', hst', hx'⟩ := Context.declares_stmts (c.members q) hst
  rw [hx] at hx'
  obtain ⟨d, hd, rfl⟩ := Option.map_eq_some_iff.mp (st'.declares_eq.symm.trans hx')
  exact hexecuting.binds st' hst' d hd

theorem Members.step (h : Members texts t m.state.store e q name body)
    (hm : Moment limit now texts t m) : Members texts (t.step m) m.step.state.store e q name body :=
  ⟨h.toMembersOf.step hm, fun n hn => Machine.binds_step (h.all n hn)⟩

/-- And so it is for ever. -/
theorem After.members (ha : After texts t m texts' t' m') (hm : Moment limit now texts t m)
    (h : Members texts t m.state.store e q name body) :
    Members texts' t' m'.state.store e q name body := by
  induction ha with
  | refl => exact h
  | move ha ih => exact ih.step (hm.after ha)
  | aside _ _ _ _ ih => exact ih
  | next _ _ _ hstart ih =>
      rw [store_start hstart]
      exact ⟨ih.toMembersOf.next _ _, ih.all⟩

end Session

end Lox
