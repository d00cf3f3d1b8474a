/-
# What operations may result in

Each operation of a machine that can fail has one lemma here or, if it changes
the store, in `Coherent.Store`: what it hands on is a value that may be there,
and a fault of it is ordinary.  That a name is found where its depth says comes
in as `Reaches`, which holds wherever a visited node is evaluated:
`reaches_of_refer`.
-/
import Lox.Proofs.Coherent.Store

namespace Lox

/-! ## Operators -/

/-- A value that is no function, no class and no instance. -/
def Value.Inert : Value → Prop
  | .callable _ | .instance _ => False
  | _ => True

/-- A fault that is about operands and arguments: neither about a name, nor a signal that
nothing caught. -/
def Fault.Usual : Fault → Prop
  | .alreadyDefined _ | .noScopeAt .. | .escaped _ => False
  | _ => True

/-- A result with the property `P`, or a usual fault. -/
def Usual {α : Type} (P : α → Prop) : Except RuntimeError α → Prop
  | .ok a => P a
  | .error e => e.fault.Usual

theorem Value.Inert.valueOk {w : World} {v : Value} (h : v.Inert) : ValueOk w v := by
  cases v with
  | callable | «instance» => cases h
  | _ => trivial

theorem Fault.Usual.ordinary {w : World} {fault : Fault} (h : fault.Usual) : fault.Ordinary w := by
  cases fault with
  | noScopeAt | escaped => cases h
  | _ => trivial

/-- In every world a usual fault is ordinary. -/
theorem Usual.expected {α : Type} {w : World} {P Q : α → Prop} {r : Except RuntimeError α}
    (h : Usual P r) (hP : ∀ a, P a → Q a) : Expected w Q r := by
  cases r with
  | ok a => exact hP a h
  | error e => exact Fault.Usual.ordinary h

theorem usual_applyUnary (op : Token) (v : Value) : Usual Value.Inert (applyUnary op v) := by
  unfold applyUnary
  split
  · trivial
  · split <;> trivial
  · trivial

theorem usual_applyPlus (op : Token) (a b : Value) : Usual Value.Inert (applyPlus op a b) := by
  unfold applyPlus
  split <;> trivial

theorem usual_applyNumeric (op : Token) (x y : Float) :
    Usual Value.Inert (applyNumeric op x y) := by
  unfold applyNumeric
  split <;> trivial

theorem usual_applyBinary (op : Token) (a b : Value) :
    Usual Value.Inert (applyBinary op a b) := by
  unfold applyBinary
  split
  · trivial
  · trivial
  · exact usual_applyPlus op a b
  · split
    · exact usual_applyNumeric op _ _
    · trivial

/-! ## Arrays -/

theorem usual_wholeNumber (what : String) (v : Value) (site : Token) :
    Usual (fun _ => True) (wholeNumber what v site) := by
  unfold wholeNumber
  split
  · split <;> trivial
  · trivial

theorem usual_arraySize (v : Value) (bracket : Token) :
    Usual (fun _ => True) (arraySize v bracket) := by
  have h := usual_wholeNumber "Array size" v bracket
  unfold arraySize
  split
  · rename_i he
    rw [he] at h
    exact h
  · split
    · trivial
    · split <;> trivial

theorem usual_asArray (v : Value) (bracket : Token) :
    Usual (fun _ => True) (asArray v bracket) := by
  unfold asArray
  split <;> trivial

theorem usual_asIndex (v : Value) (length : Nat) (bracket : Token) :
    Usual (fun _ => True) (asIndex v length bracket) := by
  have h := usual_wholeNumber "Index" v bracket
  unfold asIndex
  split
  · rename_i he
    rw [he] at h
    exact h
  · split <;> trivial

/-- The elements of an array are the given ones and `nil`. -/
theorem usual_arrayElements (size : Option Nat) (given : List Value) (bracket : Token) :
    Usual (fun es => ∀ (i : Nat) v, es[i]? = some v → v ∈ given ∨ v = .nil)
      (arrayElements size given bracket) := by
  unfold arrayElements
  split
  · intro i v hi
    exact .inl (List.mem_toArray.mp (Array.mem_of_getElem? hi))
  · split
    · trivial
    · intro i v hi
      rcases Array.mem_append.mp (Array.mem_of_getElem? hi) with h | h
      · exact .inl (List.mem_toArray.mp h)
      · exact .inr (Array.mem_replicate.mp h).2

/-- What a native function yields is a number. -/
theorem usual_native (n : Native) (now : ClockReading) (s : Store) (arguments : List Value) :
    Usual Value.Inert ((n.apply now s arguments).mapError .unplaced) := by
  cases n with
  | clock => cases now <;> trivial
  | len =>
      simp only [Native.apply, Store.lengthOf]
      split <;> trivial

/-! ## Names -/

section
variable {texts : List (List Stmt)} {t : Trail} {s : Store} {env : EnvironmentId}
  (hs : StoreOk texts t s)
include hs

/-- The chain of an environment is as long as there are constructs around it. -/
theorem reaches_of_lt {L : List Site} (hL : (t.world texts s).sites env = some L) {d : Nat}
    (hd : d < L.length) : ∃ f, s.ancestor? env d = some f := by
  have hlen : (s.chain env).length = L.length := Trail.length_mapM hL
  rw [Store.ancestor?_eq_getElem? hs.linked]
  exact ⟨_, List.getElem?_eq_getElem (hlen ▸ hd)⟩

/-- The depth that the resolver sets leads to an environment. -/
theorem reaches_of_refer {p : Place} {c : Context} {node : Node}
    (hv : visitAt texts p = some ⟨c, node⟩) (hL : (t.world texts s).sites env = some c.sites)
    {depth : Option Nat} (hfresh : (t.world texts s).Fresh → depth = none) (name : Token)
    (a : Bool) : Reaches (t.world texts s) s env (c.scopes.refer name depth a).1 := by
  intro d hd hf
  rw [hfresh hf] at hd
  exact reaches_of_lt hs hL ((visitAt_even hv).length ▸ Scopes.refer_lt hd)

/-- The same for `this` and `super`, which keep their depth outside of a class. -/
theorem reaches_of_keyword {p : Place} {c : Context} {node : Node}
    (hv : visitAt texts p = some ⟨c, node⟩) (hL : (t.world texts s).sites env = some c.sites)
    {keyword : Token} {depth depth' : Option Nat}
    (hd : depth' = depth ∨ depth' = (c.scopes.refer keyword depth false).1)
    (hfresh : (t.world texts s).Fresh → depth = none) :
    Reaches (t.world texts s) s env depth' := by
  rcases hd with rfl | rfl
  · intro d hd hf
    rw [hfresh hf] at hd
    cases hd
  · exact reaches_of_refer hs hv hL hfresh keyword false

theorem expected_accessAt {d : Nat} (hd : Reaches (t.world texts s) s env (some d))
    (name : Token) :
    Expected (t.world texts s) (ValueOk (t.world texts s)) (s.accessAt env d name) := by
  unfold Store.accessAt Store.scopeAt
  cases ha : s.ancestor? env d with
  | none => exact fun hfresh => nomatch (hd d rfl hfresh).choose_spec.symm.trans ha
  | some f =>
      dsimp only
      cases hv : s.getLocal? f name.lexeme with
      | none => trivial
      | some v => exact hs.bindings hv

theorem expected_lookUp {depth : Option Nat} (hd : Reaches (t.world texts s) s env depth)
    (name : Token) :
    Expected (t.world texts s) (ValueOk (t.world texts s))
      (Machine.lookUp s name depth env) := by
  cases depth with
  | some d => exact expected_accessAt hs hd name
  | none =>
      unfold Machine.lookUp Store.access
      dsimp only
      split
      · rename_i v hv
        obtain ⟨f, -, hf⟩ := List.exists_of_findSome?_eq_some hv
        exact hs.bindings hf
      · trivial

theorem expected_result (f : Closure) {v : Value} (hv : ValueOk (t.world texts s) v) :
    Expected (t.world texts s) (ValueOk (t.world texts s)) (Machine.result f v s) := by
  unfold Machine.result
  split
  · refine expected_accessAt hs (fun d hd _ => ?_) _
    cases hd
    exact ⟨f.environment, rfl⟩
  · exact hv

/-- What `super` finds: a method to be bound, and an instance. -/
theorem expected_superMethod {depth : Option Nat}
    (hd : Reaches (t.world texts s) s env depth) (keyword method : Token) :
    Expected (t.world texts s)
      (fun r => MethodOk (t.world texts s) r.1 ∧ ClassOk (t.world texts s) r.2.ofClass)
      (Machine.superMethod s keyword method depth env) := by
  cases depth with
  | none => trivial
  | some d =>
      have hreach : Reaches (t.world texts s) s env (some (d - 1)) := by
        intro n hn hf
        cases hn
        obtain ⟨f, hf⟩ := hd d rfl hf
        exact Store.ancestor?_of_le (Nat.sub_le d 1) hf
      have hclass := expected_accessAt hs hd keyword
      have hreceiver := expected_accessAt hs hreach (.implicitAt Store.receiverName keyword)
      unfold Machine.superMethod Machine.superclassAt Machine.receiverAt
      dsimp only
      cases hc : s.accessAt env d keyword with
      | error e =>
          rw [hc] at hclass
          exact hclass
      | ok u =>
          rw [hc] at hclass
          cases hi : s.accessAt env (d - 1) (.implicitAt Store.receiverName keyword) with
          | error e =>
              rw [hi] at hreceiver
              cases u with
              | callable u => cases u <;> first | exact hreceiver | trivial
              | _ => trivial
          | ok i =>
              rw [hi] at hreceiver
              cases u with
              | callable u =>
                  cases u with
                  | «class» c =>
                      cases i with
                      | «instance» i =>
                          dsimp only
                          cases hm : c.findMethod? method.lexeme with
                          | none => trivial
                          | some m => exact ⟨hclass _ m hm, hreceiver⟩
                      | _ => trivial
                  | _ => trivial
              | _ => trivial

/-- A property of an instance: a value, or a method to be bound. -/
theorem expected_property {i : Instance} (hi : ClassOk (t.world texts s) i.ofClass)
    {name : String} {property : Store.Property} (h : s.property? i name = some property) :
    match property with
    | .field v => ValueOk (t.world texts s) v
    | .method m => MethodOk (t.world texts s) m := by
  unfold Store.property? at h
  cases hf : (s.fieldsOf i).get? name with
  | some v =>
      rw [hf] at h
      cases h
      exact hs.fields hf
  | none =>
      rw [hf] at h
      obtain ⟨m, hm, rfl⟩ := Option.map_eq_some_iff.mp h
      exact hi _ m hm

end

end Lox
