/-
# Scopes and classes lead back to the beginning

An environment is made inside one that there is, and a class below one that there is.
Names may stand for other values later, but no link ever changes, so that each leads to
something older.  The chain of an environment ends with the globals, the line of a class
with a class that has none above it, and the loops that go along them come to an end
without a bound.

This is shown of every stage of an interpreter, whoever uses it: a session that runs texts,
or a host that runs programs which no resolver has seen, looks at single statements and
expressions, calls functions, and changes values and environments in between, among them
instances, functions and modules that it makes itself.  Classes are the interpreter's own;
one that a host puts together by hand is not spoken of.

A book is kept of the classes that were made, each with the methods that it was declared
with; what the search for a method finds is said in terms of it.  The theorem is
`Host.chains_wellFounded`.
-/
import Lox.Proofs.Grounded.Step
import Lox.Proofs.Host
import Lox.Proofs.ScopeChain

namespace Lox

/-! ## Loops along links -/

section
variable {α β : Type}

/-- The way along the links of `next?`, up to where there is none. -/
inductive Climb (next? : α → Option α) : α → List α → Prop
  | last {a : α} : next? a = none → Climb next? a [a]
  | up {a b : α} {l : List α} : next? a = some b → Climb next? b l → Climb next? a (a :: l)

/-- A loop that asks `find?` here and then wherever the links of `next?` lead, as long as
there is no answer.  Nothing bounds it: it has a result only where it ends. -/
inductive Walk (next? : α → Option α) (find? : α → Option β) : α → Option β → Prop
  | found {a : α} {r : β} : find? a = some r → Walk next? find? a (some r)
  | ended {a : α} : find? a = none → next? a = none → Walk next? find? a none
  | onward {a b : α} {r : Option β} : find? a = none → next? a = some b →
      Walk next? find? b r → Walk next? find? a r

variable {next? : α → Option α} {a : α} {l : List α}

/-- Where the way comes to an end, so does every loop along it. -/
theorem Climb.walk (h : Climb next? a l) (find? : α → Option β) :
    Walk next? find? a (l.findSome? find?) := by
  induction h with
  | @last a hnone =>
      rw [List.findSome?_cons, List.findSome?_nil]
      cases hfind : find? a with
      | some r => exact .found hfind
      | none => exact .ended hfind hnone
  | @up a b l hsome _ ih =>
      rw [List.findSome?_cons]
      cases hfind : find? a with
      | some r => exact .found hfind
      | none => exact .onward hfind hsome ih

end

/-- What is found is found where it is first there to be found. -/
theorem findSome?_eq_bind {α β : Type} {l : List α} {find? : α → Option β} {p : α → Bool}
    (h : ∀ a ∈ l, (find? a).isSome = p a) : l.findSome? find? = (l.find? p).bind find? := by
  induction l with
  | nil => rfl
  | cons a l ih =>
      obtain ⟨ha, hl⟩ := List.forall_mem_cons.mp h
      rw [List.findSome?_cons, List.find?_cons, ← ha]
      cases hfind : find? a with
      | some r => exact hfind.symm
      | none => exact ih hl

/-! ## Environments -/

namespace Store

variable {s : Store}

/-- What the search for a name comes to. -/
def orUndefined {α : Type} (name : Token) : Option α → Except RuntimeError α
  | some a => .ok a
  | none => .error (undefined name)

/-- The way out of an environment: it leads to ever older ones and ends with the globals, and
what goes along it comes to an end. -/
structure Outward (s : Store) (e : EnvironmentId) : Prop where
  climb : Climb s.enclosing? e (s.chain e)
  older : (s.chain e).Pairwise fun f g => g < f
  outermost : (s.chain e).getLast? = some State.globals
  ancestor : ∀ d, s.ancestor? e d = (s.chain e)[d]?
  access : ∀ name, ∃ r, Walk s.enclosing? (s.getLocal? · name.lexeme) e r ∧
    s.access e name = orUndefined name r
  assign : ∀ name v, ∃ r, Walk s.enclosing? (s.assignLocal? · name.lexeme v) e r ∧
    s.assign e name v = orUndefined name r

section
variable (h : s.Linked)
include h

theorem climb_chain (e : EnvironmentId) : Climb s.enclosing? e (s.chain e) := by
  induction e using Nat.strongRecOn with
  | ind e ih =>
      rw [chain_eq]
      cases hp : s.enclosing? e with
      | none => exact .last hp
      | some p =>
          have hlt := h e p hp
          simp only [if_pos hlt]
          exact .up hp (ih p hlt)

theorem pairwise_chain (e : EnvironmentId) : (s.chain e).Pairwise fun f g => g < f := by
  have hway : ∀ {e l}, Climb s.enclosing? e l → l.Pairwise (fun f g => g < f) ∧ ∀ f ∈ l, f ≤ e := by
    intro e l hl
    induction hl with
    | last => simp
    | @up e p l hp _ ih =>
        obtain ⟨hpairs, hle⟩ := ih
        have hbelow : ∀ f ∈ l, f < e := fun f hf => Nat.lt_of_le_of_lt (hle f hf) (h e p hp)
        refine ⟨List.pairwise_cons.mpr ⟨hbelow, hpairs⟩, ?_⟩
        exact List.forall_mem_cons.mpr ⟨Nat.le_refl e, fun f hf => Nat.le_of_lt (hbelow f hf)⟩
  exact (hway (climb_chain h e)).1

end

theorem access_eq_orUndefined (s : Store) (e : EnvironmentId) (name : Token) :
    s.access e name = orUndefined name ((s.chain e).findSome? (s.getLocal? · name.lexeme)) := by
  unfold access
  split
  · rename_i v hv
    rw [hv]
    rfl
  · rename_i hnone
    rw [hnone]
    rfl

theorem assign_eq_orUndefined (s : Store) (e : EnvironmentId) (name : Token) (v : Value) :
    s.assign e name v =
      orUndefined name ((s.chain e).findSome? (s.assignLocal? · name.lexeme v)) := by
  unfold assign holder?
  induction s.chain e with
  | nil => rfl
  | cons f fs ih =>
      rw [List.findSome?_cons, List.find?_cons]
      cases hf : s.assignLocal? f name.lexeme v with
      | some s' =>
          obtain ⟨hbinds, rfl⟩ := assignLocal?_eq_some.mp hf
          rw [hbinds]
          rfl
      | none =>
          have hbinds : s.binds f name.lexeme = false := by
            simpa [assignLocal?] using hf
          rw [hbinds]
          exact ih

/-- In a sound store the way out of every environment is as it should be. -/
theorem Sound.outward {P : Class → Prop} (h : s.Sound P) {e : EnvironmentId}
    (he : e < s.environments.size) : s.Outward e where
  climb := climb_chain h.linked e
  older := pairwise_chain h.linked e
  outermost := getLast?_chain h.linked h.rooted he
  ancestor := ancestor?_eq_getElem? h.linked e
  access name := ⟨_, (climb_chain h.linked e).walk _, access_eq_orUndefined s e name⟩
  assign name v := ⟨_, (climb_chain h.linked e).walk _, assign_eq_orUndefined s e name v⟩

end Store

/-! ## Classes -/

theorem Class.climb_line : ∀ c : Class, Climb Class.superclass c c.line
  | .mk _ _ none _ => .last rfl
  | .mk _ _ (some above) _ => .up rfl above.climb_line

/-- The book has an entry for the class. -/
def Recorded (book : List ClassEntry) (c : Class) : Prop := ∃ x ∈ book, x.made = c

/-- The declaration of the method `n` by the class itself, as the book has it. -/
def declaredBy? (book : List ClassEntry) (c : Class) (n : String) : Option FunctionDecl :=
  (book.find? fun x => x.made.identity == c.identity).bind (·.declaration? n)

/-- The way up from a class: it leads to ever older ones, all of which are in the book, and
the search for a method comes to an end along it, with the method of the first class that
declares one of this name; of two with the same name that is the last one. -/
structure Upward (book : List ClassEntry) (c : Class) : Prop where
  climb : Climb Class.superclass c c.line
  older : c.line.Pairwise fun d above => above.identity < d.identity
  recorded : ∀ d ∈ c.line, Recorded book d
  declared : ∀ d ∈ c.line, ∀ n,
    (d.methods.get? n).map Closure.declaration = declaredBy? book d n
  search : ∀ n, Walk Class.superclass (·.methods.get? n) c (c.findMethod? n)
  nearest : ∀ n, c.findMethod? n =
    (c.line.find? fun d => (declaredBy? book d n).isSome).bind (·.methods.get? n)

/-- What is the case of a book: the latest class stands first, each class is grounded, and
its methods are those of its declaration. -/
structure Orderly (s : Store) (book : List ClassEntry) : Prop where
  older : book.Pairwise fun x y => y.made.identity < x.made.identity
  grounded : ∀ x ∈ book, x.made.Grounded s (Recorded book)
  methods : ∀ x ∈ book, ∀ n, (x.made.methods.get? n).map Closure.declaration = x.declaration? n

namespace Orderly

variable {s s' : Store} {book : List ClassEntry}

/-- An entry is found by the number of its class. -/
theorem find?_eq (h : Orderly s book) {x : ClassEntry} (hx : x ∈ book) :
    book.find? (fun y => y.made.identity == x.made.identity) = some x := by
  have hbook := h.older
  clear h
  induction book with
  | nil => cases hx
  | cons y book ih =>
      obtain ⟨hyounger, hbook⟩ := List.pairwise_cons.mp hbook
      rw [List.find?_cons]
      rcases List.mem_cons.mp hx with rfl | hx
      · rw [beq_self_eq_true]
      · have hne : (y.made.identity == x.made.identity) = false :=
          beq_eq_false_iff_ne.mpr (Nat.ne_of_gt (hyounger x hx))
        rw [hne]
        exact ih hx hbook

/-- The methods of a class are those that the book says it declared. -/
theorem declaredBy?_eq (h : Orderly s book) {d : Class} (hd : Recorded book d) (n : String) :
    (d.methods.get? n).map Closure.declaration = declaredBy? book d n := by
  obtain ⟨x, hx, rfl⟩ := hd
  rw [declaredBy?, h.find?_eq hx]
  exact h.methods x hx n

theorem upward (h : Orderly s book) {c : Class} (hc : c.Grounded s (Recorded book)) :
    Upward book c := by
  have hrecorded : ∀ d ∈ c.line, Recorded book d := fun d hd => (hc.entered d hd).property
  have hdeclared := fun d hd => h.declaredBy?_eq (hrecorded d hd)
  refine ⟨c.climb_line, hc.older, hrecorded, hdeclared, ?_, ?_⟩
  · intro n
    rw [Class.findMethod?_eq]
    exact c.climb_line.walk _
  · intro n
    rw [Class.findMethod?_eq]
    refine findSome?_eq_bind fun d hd => ?_
    rw [← hdeclared d hd n, Option.isSome_map]

theorem grows (h : Orderly s book) (hs : s.Grows s') : Orderly s' book where
  older := h.older
  grounded x hx := (h.grounded x hx).mono hs fun _ hc => hc
  methods := h.methods

end Orderly

theorem Recorded.append {book : List ClassEntry} {c : Class} (h : Recorded book c)
    (more : List ClassEntry) : Recorded (more ++ book) c := by
  obtain ⟨x, hx, hc⟩ := h
  exact ⟨x, List.mem_append_right more hx, hc⟩

/-- A move makes at most one class. -/
theorem Machine.pairwise_declared (m : Machine) {R : ClassEntry → ClassEntry → Prop} :
    m.declared.Pairwise R := by
  unfold declared
  split
  · exact List.pairwise_singleton ..
  · exact List.pairwise_singleton ..
  · exact .nil

/-- A move adds the class that it makes to the book. -/
theorem Machine.Grounded.orderly {book : List ClassEntry} {m : Machine}
    (h : m.Grounded (Recorded book)) (hbook : Orderly m.state.store book) :
    m.step.Onward (Recorded (m.declared ++ book)) m.state.store ∧
      Orderly m.step.state.store (m.declared ++ book) := by
  have hold : ∀ c, Recorded book c → Recorded (m.declared ++ book) c :=
    fun c hc => hc.append m.declared
  have hnew : ∀ x ∈ m.declared, Recorded (m.declared ++ book) x.made :=
    fun x hx => ⟨x, List.mem_append_left _ hx, rfl⟩
  have hstep := (h.mono hold).step hnew
  have hmakes : ∀ x ∈ m.declared, m.Makes (Recorded (m.declared ++ book)) x :=
    fun x hx => (h.mono hold).makes hnew hx
  refine ⟨hstep, ?_, ?_, ?_⟩
  · refine List.pairwise_append.mpr ⟨m.pairwise_declared, hbook.older, ?_⟩
    intro x hx y hy
    have hy' := ((hbook.grounded y hy).entered _ (Class.mem_line_self _)).identity
    exact Nat.lt_of_lt_of_le hy' (hmakes x hx).fresh
  · intro x hx
    rcases List.mem_append.mp hx with hx | hx
    · exact (hmakes x hx).grounded
    · exact (hbook.grounded x hx).mono hstep.grows hold
  · intro x hx
    rcases List.mem_append.mp hx with hx | hx
    · exact (hmakes x hx).methods
    · exact hbook.methods x hx

/-! ## Stages -/

/-- The value that an operation puts into an environment. -/
def Store.Operation.value? : Store.Operation → Option Value
  | make | child _ => none
  | childWith _ _ v | bind _ _ v | define _ _ v | defineReadOnly _ _ v | assign _ _ v
  | assignLocal _ _ v | assignAt _ _ _ v => some v

/-- An operation on an environment that there is keeps the store sound. -/
theorem Store.Sound.perform {P : Class → Prop} {s : Store} (h : s.Sound P) {op : Operation}
    {e : EnvironmentId} (hop : op.subject? = some e) (he : e < s.environments.size)
    (hv : ∀ v ∈ op.value?, v.Grounded s P) : s.Onward P (s.perform op) := by
  have hafter : ∀ {r : Except RuntimeError Store}, (∀ s', r = .ok s' → s.Onward P s') →
      s.Onward P (s.after r) := by
    intro r hr
    cases r with
    | ok s' => exact hr s' rfl
    | error err => exact h.refl
  cases op with
  | make => cases hop
  | child f =>
      cases hop
      exact h.child he
  | childWith f n v =>
      cases hop
      exact h.childWith he n (hv v rfl)
  | bind f n v => exact h.put (hv v rfl) f n
  | define f name v =>
      refine hafter ?_
      intro s' hs
      exact h.define (hv v rfl) hs
  | defineReadOnly f name v =>
      refine hafter ?_
      intro s' hs
      exact h.defineReadOnly (hv v rfl) hs
  | assign f name v =>
      refine hafter ?_
      intro s' hs
      obtain ⟨g, -, rfl⟩ := assign_eq_ok.mp hs
      exact h.put (hv v rfl) g name.lexeme
  | assignLocal f n v =>
      show s.Onward P ((s.assignLocal? f n v).getD s)
      cases hs : s.assignLocal? f n v with
      | none => exact h.refl
      | some s' =>
          obtain ⟨-, rfl⟩ := assignLocal?_eq_some.mp hs
          exact h.put (hv v rfl) f n
  | assignAt f d name v =>
      refine hafter ?_
      intro s' hs
      obtain ⟨g, -, -, rfl⟩ := assignAt_eq_ok.mp hs
      exact h.put (hv v rfl) g name.lexeme

namespace Session

/-- The end of a text leaves nothing but events. -/
theorem events_conclude (m : Machine) :
    ∃ events, (conclude m).2 = { m.state with events := events } := by
  rw [state_conclude]
  unfold State.concluded
  split
  · exact ⟨_, rfl⟩
  · rename_i signal _
    cases signal <;> exact ⟨_, rfl⟩
  · exact ⟨_, rfl⟩

end Session

namespace Host

/-- What a host or a session has a machine begin: a text or a program, a statement or an
expression in any environment, or a call of what it has got hold of. -/
inductive Begins (vs : List Value) (s : State) : Machine → Prop
  | text {source : String} {m : Machine} : Session.start source s = .ok m → Begins vs s m
  | program (body : List Stmt) : Begins vs s (s.starting body)
  | statement (st : Stmt) {env : EnvironmentId} : env < s.store.environments.size →
      Begins vs s ⟨.execute st env, [], s⟩
  | expression (e : Expr) {env : EnvironmentId} : env < s.store.environments.size →
      Begins vs s ⟨.evaluate e env, [], s⟩
  | call {c : Callable} {arguments : List Value} : .callable c ∈ vs →
      (∀ v ∈ arguments, v ∈ vs) → Begins vs s (Machine.invoke c arguments [] s)

/-- What a host reads off a value that it has got hold of: the class of an instance, the class
above a class, and a method that is not bound yet. -/
inductive Reads (vs : List Value) : Value → Prop
  | classOf {i : Instance} : .instance i ∈ vs → Reads vs (.callable (.class i.ofClass))
  | superclass {c above : Class} : .callable (.class c) ∈ vs → c.superclass = some above →
      Reads vs (.callable (.class above))
  | method {c : Class} {n : String} {k : Closure} : .callable (.class c) ∈ vs →
      c.findMethod? n = some k → Reads vs (.callable (.function k))

/-- What a host does to a store, with the values that it gets from it: it reads and writes, and
makes arrays, instances, functions, modules and environments of its own.  Classes are made by
programs alone; one that a host puts together has no declaration that could say what its
methods are. -/
inductive Does (vs : List Value) (s : Store) : List Value → Store → Prop
  | property {i : Instance} {name : Token} {v : Value} {s' : Store} : .instance i ∈ vs →
      s.get i name = .ok (v, s') → Does vs s [v] s'
  | field {i : Instance} (n : String) {v : Value} : .instance i ∈ vs → v ∈ vs →
      Does vs s [] (s.setField i n v)
  | array {elements : Array Value} : (∀ (i : Nat) v, elements[i]? = some v → v ∈ vs) →
      Does vs s [.array (s.newArray elements).1] (s.newArray elements).2
  | element {a : ArrayId} {i : Nat} {v : Value} {s' : Store} : v ∈ vs →
      s.setElement? a i v = some s' → Does vs s [] s'
  | instanceOf {c : Class} : .callable (.class c) ∈ vs →
      Does vs s [.instance (s.newInstance c).1] (s.newInstance c).2
  | functionOf (d : FunctionDecl) {e : EnvironmentId} (isInitializer : Bool) :
      e < s.environments.size →
      Does vs s [.callable (.function (s.newClosure d e isInitializer).1)]
        (s.newClosure d e isInitializer).2
  | moduleOf (name : String) {e : EnvironmentId} : e < s.environments.size →
      Does vs s [.module ⟨name, e⟩] s
  | scope {op : Store.Operation} {e : EnvironmentId} : op.subject? = some e →
      e < s.environments.size → (∀ v ∈ op.value?, v ∈ vs) → Does vs s [] (s.perform op)

/-- A stage of an interpreter whose clock begins by saying `now`: the values that the host has
got hold of, the book of the classes that were made, and the machine. -/
inductive Stage (limit : Option Nat) (now : ClockReading) :
    List Value → List ClassEntry → Machine → Prop
  | first : Stage limit now [] [] ⟨.done, [], .initial limit now⟩
  | move {vs book m} : Stage limit now vs book m →
      Stage limit now vs (m.declared ++ book) m.step
  | aside {vs book m} (output : Output) (events : List Event) (clock : Nat → ClockReading) :
      Stage limit now vs book m → Stage limit now vs book (m.aside output events clock)
  | begins {vs book m m'} : Stage limit now vs book m → m.hasHalted = true →
      Begins vs m.state m' → Stage limit now vs book m'
  | see {vs book m v} : Stage limit now vs book m → m.hasHalted = true → Shows m v →
      Stage limit now (v :: vs) book m
  | read {vs book m v} : Stage limit now vs book m → Reads vs v →
      Stage limit now (v :: vs) book m
  | does {vs book m new s'} : Stage limit now vs book m → m.hasHalted = true →
      Does vs m.state.store new s' →
      Stage limit now (new ++ vs) book ⟨m.control, m.stack, { m.state with store := s' }⟩

/-- What is the case at every stage. -/
structure Standing (vs : List Value) (book : List ClassEntry) (m : Machine) : Prop where
  machine : m.Grounded (Recorded book)
  orderly : Orderly m.state.store book
  values : ∀ v ∈ vs, v.Grounded m.state.store (Recorded book)

section
variable {vs new : List Value} {book : List ClassEntry} {s : State} {m m' : Machine} {v : Value}
  {P : Class → Prop}

/-- A machine begins with what there is. -/
theorem Begins.onward (h : Begins vs s m) (hs : s.store.Sound P)
    (hvs : ∀ v ∈ vs, v.Grounded s.store P) : m.Onward P s.store := by
  cases h with
  | text hstart =>
      obtain ⟨body, events, -, -, rfl⟩ := Session.start_eq_ok hstart
      have hstore := Session.store_note events s
      refine ⟨?_, Store.Sound.starting (hstore.symm ▸ hs) _⟩
      show s.store.Grows (events.foldl State.note s).store
      rw [hstore]
      exact .refl _
  | program body => exact ⟨.refl _, Store.Sound.starting hs body⟩
  | statement st henv => exact ⟨.refl _, henv, List.forall_mem_nil _, hs⟩
  | expression e henv => exact ⟨.refl _, henv, List.forall_mem_nil _, hs⟩
  | call hc hargs =>
      exact Machine.onward_invoke (List.forall_mem_nil _) hs (hvs _ hc)
        fun v hv => hvs v (hargs v hv)

theorem Reads.grounded {s : Store} (h : Reads vs v) (hvs : ∀ v ∈ vs, v.Grounded s P) :
    v.Grounded s P := by
  cases h with
  | classOf hi => exact (hvs _ hi).2
  | superclass hc habove => exact Class.Grounded.above (hvs _ hc) habove
  | method hc hk => exact Class.Grounded.method (hvs _ hc) hk

theorem Shows.grounded (h : Shows m v) (hm : m.Grounded P) : v.Grounded m.state.store P := by
  cases h with
  | nil | boolean | number | string | native => trivial
  | answer hv =>
      have hcontrol := hm.control
      rw [hv] at hcontrol
      exact hcontrol
  | binding hb => exact hm.store.only.bindings hb
  | field hf => exact hm.store.only.fields hf
  | element he => exact hm.store.only.arrays he

theorem Does.onward {s s' : Store} (h : Does vs s new s') (hs : s.Sound P)
    (hvs : ∀ v ∈ vs, v.Grounded s P) : s.Onward P s' ∧ ∀ v ∈ new, v.Grounded s' P := by
  cases h with
  | property hi hget =>
      obtain ⟨hnext, hv⟩ := hs.get (hvs _ hi) hget
      exact ⟨hnext, List.forall_mem_singleton.mpr hv⟩
  | field n hi hv => exact ⟨hs.setField (hvs _ hv) _ n, List.forall_mem_nil _⟩
  | array hes =>
      obtain ⟨hnext, ha⟩ := hs.newArray fun i v hv => hvs v (hes i v hv)
      exact ⟨hnext, List.forall_mem_singleton.mpr ha⟩
  | element hv hset => exact ⟨hs.setElement? (hvs _ hv) hset, List.forall_mem_nil _⟩
  | instanceOf hc =>
      obtain ⟨hnext, hi⟩ := hs.newInstance (hvs _ hc)
      exact ⟨hnext, List.forall_mem_singleton.mpr hi⟩
  | functionOf d isInitializer he =>
      have hf := Store.Sound.grounded_newClosure he d isInitializer
      exact ⟨hs.newIdentity, List.forall_mem_singleton.mpr hf⟩
  | moduleOf name he => exact ⟨hs.refl, List.forall_mem_singleton.mpr he⟩
  | scope hop he hv =>
      refine ⟨hs.perform hop he ?_, List.forall_mem_nil _⟩
      intro v hvalue
      exact hvs v (hv v hvalue)

end

variable {limit : Option Nat} {now : ClockReading} {vs : List Value} {book : List ClassEntry}
  {m : Machine}

theorem Stage.standing (h : Stage limit now vs book m) : Standing vs book m := by
  induction h with
  | first =>
      have hmachine : Machine.Grounded (Recorded []) ⟨.done, [], .initial limit now⟩ :=
        ⟨trivial, List.forall_mem_nil _, State.sound_initial limit now⟩
      have horderly : Orderly (State.initial limit now).store [] :=
        ⟨.nil, List.forall_mem_nil _, List.forall_mem_nil _⟩
      exact ⟨hmachine, horderly, List.forall_mem_nil _⟩
  | move _ ih =>
      obtain ⟨hnext, horderly⟩ := ih.machine.orderly ih.orderly
      refine ⟨hnext.grounded, horderly, ?_⟩
      intro v hv
      exact (ih.values v hv).mono hnext.grows fun c hc => hc.append _
  | aside output events clock _ ih =>
      exact ⟨⟨ih.machine.control, ih.machine.stack, ih.machine.store⟩, ih.orderly, ih.values⟩
  | begins _ _ hbegins ih =>
      have hnext := hbegins.onward ih.machine.store ih.values
      refine ⟨hnext.grounded, ih.orderly.grows hnext.grows, ?_⟩
      intro v hv
      exact (ih.values v hv).mono hnext.grows fun _ hc => hc
  | see _ _ hshows ih =>
      refine ⟨ih.machine, ih.orderly, ?_⟩
      exact List.forall_mem_cons.mpr ⟨hshows.grounded ih.machine, ih.values⟩
  | read _ hreads ih =>
      refine ⟨ih.machine, ih.orderly, ?_⟩
      exact List.forall_mem_cons.mpr ⟨hreads.grounded ih.values, ih.values⟩
  | @does vs book m new s' _ _ hdoes ih =>
      obtain ⟨hnext, hnew⟩ := hdoes.onward ih.machine.store ih.values
      have hcontrol := ih.machine.control.mono hnext.grows fun _ hc => hc
      have hmachine := Machine.onward_to (t := { m.state with store := s' }) ih.machine.stack hnext
        hcontrol
      refine ⟨hmachine.grounded, ih.orderly.grows hnext.grows, ?_⟩
      intro v hv
      rcases List.mem_append.mp hv with hv | hv
      · exact hnew v hv
      · exact (ih.values v hv).mono hnext.grows fun _ hc => hc

/-- However many moves are allowed, a run is at a stage. -/
theorem Stage.run (h : Stage limit now vs book m) (n : Nat) :
    ∃ more, Stage limit now vs (more ++ book) (Machine.run n m) := by
  induction n generalizing book m with
  | zero => exact ⟨[], h⟩
  | succ n ih =>
      rw [Machine.run_succ]
      obtain ⟨more, hmore⟩ := ih h.move
      refine ⟨more ++ m.declared, ?_⟩
      rw [List.append_assoc]
      exact hmore

/-- The run of a text leads from a stage to a stage, whether the text starts or not, and
whether it comes to its end or not. -/
theorem Stage.session (h : Stage limit now vs book m) (hm : m.hasHalted = true) (moves : Nat)
    (source : String) :
    ∃ more m', Stage limit now vs (more ++ book) m' ∧
      m'.state = (Session.run moves source m.state).2 := by
  unfold Session.run
  cases hstart : Session.start source m.state with
  | error failure =>
      obtain ⟨f, s⟩ := failure
      obtain ⟨events, rfl⟩ := Session.start_eq_error hstart
      refine ⟨[], _, h.aside m.state.output (events.reverse ++ m.state.events) m.state.clock, ?_⟩
      exact (State.foldl_note events m.state).symm
  | ok first =>
      obtain ⟨more, hrun⟩ := (h.begins hm (.text hstart)).run moves
      obtain ⟨events, hevents⟩ := Session.events_conclude (Machine.run moves first)
      exact ⟨more, _, hrun.aside _ events _, hevents.symm⟩

/-- At every stage the chain of every environment leads to ever older ones and ends with the
globals, and the line of every class to ever older ones that were made too; what goes along
them comes to an end, the search for a method with that of the first class that declares
it.  This is so of every environment there is and of every class that was made.  Each class
that a move makes is noted and entered in the book, and the machine and the host get to no
other classes, nor to environments that there are not. -/
theorem chains_wellFounded (h : Stage limit now vs book m) :
    (∀ e, e < m.state.store.environments.size → m.state.store.Outward e) ∧
    (∀ x ∈ book, Upward book x.made) ∧
    book.Pairwise (fun x y => y.made.identity < x.made.identity) ∧
    (∀ x ∈ m.declared, m.step.state.events = .classDefined x.made :: m.state.events) ∧
    m.Grounded (Upward book) ∧
    ∀ v ∈ vs, v.Grounded m.state.store (Upward book) := by
  obtain ⟨hmachine, horderly, hvs⟩ := h.standing
  have hup : ∀ c, Recorded book c → Upward book c := by
    rintro c ⟨x, hx, rfl⟩
    exact horderly.upward (horderly.grounded x hx)
  refine ⟨?_, ?_, horderly.older, ?_, hmachine.mono hup, ?_⟩
  · intro e he
    exact hmachine.store.outward he
  · intro x hx
    exact hup x.made ⟨x, hx, rfl⟩
  · intro x hx
    exact Machine.events_of_mem_declared hx
  · intro v hv
    exact (hvs v hv).mono (.refl _) hup

/-! ### A class below its own name -/

/-- A class with two methods of the same name. -/
def twice : List Stmt :=
  [.classDecl (made .identifier "A") none
    [.mk (made .identifier "m") (some (made .identifier "m")) [] [],
     .mk (made .identifier "m") (some (made .identifier "m")) [made .identifier "x"] []]]

/-- A class below what its own name stands for among the globals, for which that name is to
stand from then on. -/
def belowItself : List Stmt :=
  [.block
    [.classDecl (made .identifier "A")
      (some (.grouping (.variable (made .identifier "A") none))) [],
     .expression (.assign (made .identifier "A") (.variable (made .identifier "A") (some 0)) none)]]

/-- The machine after the program has been run. -/
def afterwards (body : List Stmt) (m : Machine) : Machine :=
  Machine.run 20 (m.state.starting body)

/-- The first program has been run, and the second one twice. -/
def belowItselfTwice : Machine :=
  afterwards belowItself (afterwards belowItself
    (afterwards twice ⟨.done, [], .initial none 0⟩))

/-- The class that a name stands for among the globals. -/
def class? (m : Machine) (n : String) : Option Class :=
  match m.state.store.getLocal? State.globals n with
  | some (.callable (.class c)) => some c
  | _ => none

theorem class?_belowItselfTwice :
    (class? belowItselfTwice "A").map (fun c =>
      (c.line.map (·.identity), (c.findMethod? "m").map (·.declaration.arity))) =
      some ([4, 3, 2], some 1) := by
  decide +kernel

/-- The class is below two others of its name, each made in an earlier run, and finds the
second method of the one that was made first. -/
theorem chains_wellFounded_belowItself :
    ∃ book c, Stage none 0 [] book belowItselfTwice ∧
      belowItselfTwice.state.store.getLocal? State.globals "A" = some (.callable (.class c)) ∧
      Upward book c ∧ c.line.map (·.identity) = [4, 3, 2] ∧
      (c.findMethod? "m").map (·.declaration.arity) = some 1 := by
  have hfirst : Stage none 0 [] [] ⟨.done, [], .initial none 0⟩ := .first
  obtain ⟨one, hone⟩ := (hfirst.begins rfl (.program twice)).run 20
  have hhalted : (afterwards twice ⟨.done, [], .initial none 0⟩).hasHalted = true := by
    decide +kernel
  obtain ⟨two, htwo⟩ := (hone.begins hhalted (.program belowItself)).run 20
  have hhalted' : (afterwards belowItself (afterwards twice
      ⟨.done, [], .initial none 0⟩)).hasHalted = true := by decide +kernel
  obtain ⟨three, hthree⟩ := (htwo.begins hhalted' (.program belowItself)).run 20
  obtain ⟨-, -, -, -, hmachine, -⟩ := chains_wellFounded hthree
  have hclass := class?_belowItselfTwice
  cases hc : class? belowItselfTwice "A" with
  | none =>
      rw [hc] at hclass
      cases hclass
  | some c =>
      rw [hc] at hclass
      obtain ⟨hline, hmethod⟩ := Prod.mk.inj (Option.some.inj hclass)
      have hbound : belowItselfTwice.state.store.getLocal? State.globals "A" =
          some (.callable (.class c)) := by
        unfold class? at hc
        split at hc
        · rename_i hbound
          cases hc
          exact hbound
        · cases hc
      have hgrounded : c.Grounded belowItselfTwice.state.store _ :=
        hmachine.store.only.bindings hbound
      exact ⟨_, c, hthree, hbound, (hgrounded.entered c c.mem_line_self).property, hline, hmethod⟩

end Host

end Lox
