/-
# Operations that keep a store coherent

`Steady` operations change what names, fields and elements stand for and leave
the world as it is; `Grown` ones make something with a number, which the trail
notes.
-/
import Lox.Proofs.Coherent

namespace Lox

variable {texts : List (List Stmt)} {t t' t'' : Trail} {s s' s'' : Store}

/-- Programs that came without depths find the environment `d` steps outwards. -/
def Reaches (w : World) (s : Store) (e : EnvironmentId) (d : Option Nat) : Prop :=
  ∀ n, d = some n → w.Fresh → ∃ f, s.ancestor? e n = some f

/-- `s'` is as coherent as `s` was, with the same world. -/
structure Steady (texts : List (List Stmt)) (t : Trail) (s s' : Store) : Prop where
  ok : StoreOk texts t s'
  world : t.world texts s' = t.world texts s

/-- `s'` is coherent with the longer trail `t'`. -/
structure Grown (texts : List (List Stmt)) (t : Trail) (s : Store) (t' : Trail) (s' : Store) :
    Prop where
  ok : StoreOk texts t' s'
  le : t.world texts s ≤ t'.world texts s'

theorem Steady.refl (h : StoreOk texts t s) : Steady texts t s s := ⟨h, rfl⟩

theorem Steady.trans (h : Steady texts t s s') (h' : Steady texts t s' s'') :
    Steady texts t s s'' :=
  ⟨h'.ok, h'.world.trans h.world⟩

theorem Steady.grown (h : Steady texts t s s') : Grown texts t s t s' :=
  ⟨h.ok, h.world ▸ World.le_refl _⟩

theorem Grown.trans (h : Grown texts t s t' s') (h' : Grown texts t' s' t'' s'') :
    Grown texts t s t'' s'' :=
  ⟨h'.ok, World.le_trans h.le h'.le⟩

namespace StoreOk

variable (h : StoreOk texts t s)
include h

/-! ## Steady operations -/

theorem put {v : Value} (hv : ValueOk (t.world texts s) v) (e : EnvironmentId) (n : String) :
    Steady texts t s (s.put e n v) := by
  have hw : t.world texts (s.put e n v) = t.world texts s :=
    Trail.world_congr fun f => Store.enclosing?_put ..
  refine ⟨⟨?_, ?_, ?_, h.code, hw ▸ h.outermost, ?_, ?_, ?_⟩, hw⟩
  · intro f p hp
    rw [Store.enclosing?_put] at hp
    exact h.linked f p hp
  · intro f hf hn
    rw [Store.enclosing?_put] at hn
    exact h.rooted f (by simpa using hf) hn
  · rw [h.origins, Store.size_put]
  · intro f m u hu
    rw [Store.getLocal?_put] at hu
    rw [hw]
    split at hu
    · cases hu
      exact hv
    · exact h.bindings hu
  · rw [hw]
    exact h.fields
  · rw [hw]
    exact h.arrays

theorem protect (e : EnvironmentId) (n : String) : Steady texts t s (s.protect e n) := by
  have hw : t.world texts (s.protect e n) = t.world texts s :=
    Trail.world_congr fun f => Store.enclosing?_protect ..
  refine ⟨⟨?_, ?_, ?_, h.code, hw ▸ h.outermost, ?_, ?_, ?_⟩, hw⟩
  · intro f p hp
    rw [Store.enclosing?_protect] at hp
    exact h.linked f p hp
  · intro f hf hn
    rw [Store.enclosing?_protect] at hn
    exact h.rooted f (by simpa using hf) hn
  · rw [h.origins, Store.size_protect]
  · intro f m u hu
    rw [Store.getLocal?_protect] at hu
    rw [hw]
    exact h.bindings hu
  · rw [hw]
    exact h.fields
  · rw [hw]
    exact h.arrays

theorem define {v : Value} (hv : ValueOk (t.world texts s) v) (e : EnvironmentId)
    (name : Token) : Expected (t.world texts s) (Steady texts t s) (s.define e name v) := by
  cases hd : s.define e name v with
  | ok s' =>
      obtain ⟨-, rfl⟩ := Store.define_eq_ok.mp hd
      exact h.put hv e name.lexeme
  | error err =>
      unfold Store.define at hd
      split at hd <;> cases hd
      trivial

theorem defineReadOnly {v : Value} (hv : ValueOk (t.world texts s) v) (e : EnvironmentId)
    (name : Token) :
    Expected (t.world texts s) (Steady texts t s) (s.defineReadOnly e name v) := by
  have hd := h.define hv e name
  unfold Store.defineReadOnly
  cases hs : s.define e name v with
  | ok s' =>
      rw [hs] at hd
      exact hd.trans (hd.ok.protect e name.lexeme)
  | error err =>
      rw [hs] at hd
      exact hd

theorem change {v : Value} (hv : ValueOk (t.world texts s) v) {e : EnvironmentId}
    {d : Option Nat} (hd : Reaches (t.world texts s) s e d) (name : Token) :
    Expected (t.world texts s) (Steady texts t s) (Machine.change s name d e v) := by
  cases d with
  | none =>
      unfold Machine.change Store.assign
      dsimp only
      split
      · exact h.put hv _ name.lexeme
      · trivial
  | some d =>
      unfold Machine.change Store.assignAt Store.scopeAt Store.assignLocal?
      dsimp only
      cases ha : s.ancestor? e d with
      | none =>
          intro hfresh
          obtain ⟨f, hf⟩ := hd d rfl hfresh
          cases hf.symm.trans ha
      | some f =>
          cases hb : s.binds f name.lexeme with
          | true =>
              simp only [hb, if_pos]
              exact h.put hv f name.lexeme
          | false =>
              simp only [hb, Bool.false_eq_true, if_neg, not_false_eq_true]
              trivial

theorem assignLocal? {e : EnvironmentId} {n : String} {v : Value}
    (hv : ValueOk (t.world texts s) v) (hs : s.assignLocal? e n v = some s') :
    Steady texts t s s' := by
  obtain ⟨-, rfl⟩ := Store.assignLocal?_eq_some.mp hs
  exact h.put hv e n

theorem setField {v : Value} (hv : ValueOk (t.world texts s) v) (i : Instance) (n : String) :
    Steady texts t s (s.setField i n v) := by
  have hw : t.world texts (s.setField i n v) = t.world texts s := Trail.world_congr fun _ => rfl
  refine ⟨⟨h.linked, h.rooted, h.origins, h.code, hw ▸ h.outermost, ?_, ?_, ?_⟩, hw⟩ <;> rw [hw]
  · exact h.bindings
  · intro j m u hu
    rw [Store.fieldsOf_setField] at hu
    split at hu
    · rw [Table.get?_set] at hu
      split at hu
      · cases hu
        exact hv
      · exact h.fields hu
    · exact h.fields hu
  · exact h.arrays

theorem newInstance (c : Class) : Steady texts t s (s.newInstance c).2 := by
  have hw : t.world texts (s.newInstance c).2 = t.world texts s := Trail.world_congr fun _ => rfl
  refine ⟨⟨h.linked, h.rooted, h.origins, h.code, hw ▸ h.outermost, ?_, ?_, ?_⟩, hw⟩ <;> rw [hw]
  · exact h.bindings
  · intro j m u hu
    rw [Store.fieldsOf_newInstance] at hu
    split at hu
    · cases hu
    · exact h.fields hu
  · exact h.arrays

theorem newArray {es : Array Value}
    (hes : ∀ (i : Nat) (v : Value), es[i]? = some v → ValueOk (t.world texts s) v) :
    Steady texts t s (s.newArray es).2 := by
  have hw : t.world texts (s.newArray es).2 = t.world texts s := Trail.world_congr fun _ => rfl
  refine ⟨⟨h.linked, h.rooted, h.origins, h.code, hw ▸ h.outermost, ?_, ?_, ?_⟩, hw⟩ <;> rw [hw]
  · exact h.bindings
  · exact h.fields
  · intro a i v hv
    rw [Store.element?_newArray] at hv
    split at hv
    · exact hes i v hv
    · exact h.arrays hv

theorem setElement? {a : ArrayId} {i : Nat} {v : Value} (hv : ValueOk (t.world texts s) v)
    (hs : s.setElement? a i v = some s') : Steady texts t s s' := by
  have hlater := fun b j => Store.element?_setElement? (b := b) (j := j) hs
  unfold Store.setElement? at hs
  split at hs
  · cases hs
    have hw : t.world texts { s with arrays := s.arrays.modify a (·.setIfInBounds i v) } =
        t.world texts s := Trail.world_congr fun _ => rfl
    refine ⟨⟨h.linked, h.rooted, h.origins, h.code, hw ▸ h.outermost, ?_, ?_, ?_⟩, hw⟩ <;> rw [hw]
    · exact h.bindings
    · exact h.fields
    · intro b j u hu
      rw [hlater] at hu
      split at hu
      · cases hu
        exact hv
      · exact h.arrays hu
  · cases hs

/-! ## Operations that make something -/

/-- A new environment, for the construct `site`, inside `e`. -/
theorem newEnvironment (env : Environment) {e : EnvironmentId} {L : List Site} (site : Site)
    (he : env.enclosing = some e) (hL : (t.world texts s).sites e = some L)
    (hb : ∀ n v, env.bindings.get? n = some v → ValueOk (t.world texts s) v) :
    Grown texts t s (t.make site) (s.newEnvironment env).2 := by
  have hlt : e < s.environments.size := h.origins ▸ Trail.sites_lt hL
  have hkeep : s.KeepsLinks (s.newEnvironment env).2 := fun f hf => by
    rw [Store.enclosing?_newEnvironment, if_neg (Nat.ne_of_lt hf)]
  have hle : t.world texts s ≤ (t.make site).world texts (s.newEnvironment env).2 :=
    Trail.world_le (t.extends_make site) hkeep (Nat.le_of_eq h.origins)
  refine ⟨⟨?_, ?_, ?_, h.code, hle.sites h.outermost, ?_, ?_, ?_⟩, hle⟩
  · intro f p hp
    rw [Store.enclosing?_newEnvironment] at hp
    split at hp
    · rename_i hf
      rw [he] at hp
      cases hp
      exact hf ▸ hlt
    · exact h.linked f p hp
  · intro f hf hn
    rw [Store.enclosing?_newEnvironment] at hn
    split at hn
    · rw [he] at hn
      cases hn
    · rename_i hne
      rw [Store.size_newEnvironment] at hf
      exact h.rooted f (Nat.lt_of_le_of_ne (Nat.le_of_lt_succ hf) hne) hn
  · simp [Trail.make, Store.newEnvironment, h.origins]
  · intro f m u hu
    rw [Store.getLocal?_newEnvironment] at hu
    split at hu
    · exact (hb m u hu).mono hle
    · exact (h.bindings hu).mono hle
  · intro i m u hu
    exact (h.fields hu).mono hle
  · intro a i u hu
    exact (h.arrays hu).mono hle

theorem sites_newEnvironment (env : Environment) {e : EnvironmentId} {L : List Site}
    (site : Site) (he : env.enclosing = some e) (hL : (t.world texts s).sites e = some L) :
    ((t.make site).world texts (s.newEnvironment env).2).sites (s.newEnvironment env).1 =
      some (site :: L) :=
  Trail.sites_newEnvironment site h.origins he hL

theorem newIdentity (p : Place) : Grown texts t s (t.declare p) s.newIdentity.2 := by
  have hle : t.world texts s ≤ (t.declare p).world texts s.newIdentity.2 :=
    Trail.world_le (t.extends_declare p) (fun _ _ => rfl) (Nat.le_of_eq h.origins)
  refine ⟨⟨h.linked, h.rooted, h.origins, ?_, hle.sites h.outermost, ?_, ?_, ?_⟩, hle⟩
  · simp [Trail.declare, Store.newIdentity, h.code]
  · exact fun hu => (h.bindings hu).mono hle
  · exact fun hu => (h.fields hu).mono hle
  · exact fun hu => (h.arrays hu).mono hle

theorem code_newIdentity (p : Place) :
    ((t.declare p).world texts s.newIdentity.2).code s.newIdentity.1 = some p := by
  simp [Trail.world, Trail.declare, Store.newIdentity, ← h.code]

/-- A function that is made from the declaration visited at `q`. -/
theorem runsIn_newClosure {q : Place} {c : Context} {kind : FunctionKind} {d : FunctionDecl}
    (hv : visitAt texts q = some ⟨c, .function kind d⟩) (e : EnvironmentId) (b : Bool) :
    RunsIn ((t.declare q).world texts (s.newClosure (c.function kind d) e b).2)
      (s.newClosure (c.function kind d) e b).1 q c.sites :=
  ⟨h.code_newIdentity q, c, kind, d, hv, rfl, rfl⟩

omit h in
theorem codeOf {f : Closure} {q : Place} {L : List Site}
    (hf : RunsIn (t.world texts s) f q L) : t.codeOf f = q := by
  have := hf.1
  simp only [Trail.world] at this
  rw [Trail.codeOf, this, Option.getD_some]

/-- A method that is bound to an instance has one more environment, for `this`. -/
theorem bindMethod {m : Closure} {i : Instance} (hm : MethodOk (t.world texts s) m)
    (hi : ClassOk (t.world texts s) i.ofClass) :
    Grown texts t s (t.bind m) (s.bindMethod m i).2 ∧
      ClosureOk ((t.bind m).world texts (s.bindMethod m i).2) (s.bindMethod m i).1 := by
  obtain ⟨q, j, L, hr, hL⟩ := hm
  have hq : t.bind m = (t.make (.receiver q)).declare (j :: q) := by
    rw [Trail.bind, StoreOk.codeOf hr]; rfl
  have hbind : ∀ n v, Table.get? [(Store.receiverName, Value.instance i)] n = some v →
      ValueOk (t.world texts s) v := by
    intro n v hv
    simp only [Table.get?] at hv
    split at hv
    · cases hv
      exact hi
    · cases hv
  have henv := h.newEnvironment ⟨[(Store.receiverName, .instance i)], [],
    some m.environment⟩ (.receiver q) rfl hL hbind
  have hsites := h.sites_newEnvironment ⟨[(Store.receiverName, .instance i)], [],
    some m.environment⟩ (.receiver q) rfl hL
  have hid := henv.ok.newIdentity (j :: q)
  obtain ⟨-, c, kind, d, hv, hd, hc⟩ := hr
  rw [hq]
  refine ⟨henv.trans hid, j :: q, .receiver q :: L, ⟨?_, c, kind, d, hv, hd, hc⟩, ?_⟩
  · exact henv.ok.code_newIdentity (j :: q)
  · exact hid.le.sites hsites

end StoreOk

end Lox
