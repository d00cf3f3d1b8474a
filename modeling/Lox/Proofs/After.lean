/-
# Moments that come later

`After` goes from a moment to a later one of the same session: by moves, by what
happens beside them and by further texts.  On the way notes are only added to; and since
no program can write `this` or `super` as a name, what they stand for in an environment
they stand for ever: `After.word`.
-/
import Lox.Proofs.Ready.Step

namespace Lox

/-- A word that no text can declare, assign to or set. -/
def Reserved (n : String) : Prop := ∀ x : Token, x.Plain → x.lexeme ≠ n

theorem reserved_receiverName : Reserved Store.receiverName := fun _ hx => hx.1

theorem reserved_superName : Reserved Machine.superName := fun _ hx => hx.2

/-- The trail after so many moves. -/
def Trail.run : Nat → Machine → Trail → Trail
  | 0, _, t => t
  | n + 1, m, t => run n m.step (t.step m)

namespace Session

/-- The moment of `texts'`, `t'` and `m'` comes after the one of `texts`, `t` and `m`, or is
the same. -/
inductive After (texts : List (List Stmt)) (t : Trail) (m : Machine) :
    List (List Stmt) → Trail → Machine → Prop
  | refl : After texts t m texts t m
  | move {texts' t' m'} : After texts t m texts' t' m' →
      After texts t m texts' (t'.step m') m'.step
  | aside {texts' t' m'} (output : Output) (events : List Event) (clock : Nat → ClockReading) :
      After texts t m texts' t' m' → After texts t m texts' t' (m'.aside output events clock)
  | next {texts' t' m' source body m''} : After texts t m texts' t' m' → m'.hasHalted = true →
      (read source).2 = .ok body → start source (conclude m').2 = .ok m'' →
      After texts t m (texts' ++ [body]) (t'.starting texts'.length) m''

variable {limit : Option Nat} {now : ClockReading} {texts texts' texts'' : List (List Stmt)}
  {t t' t'' : Trail} {m m' m'' : Machine}

/-- What comes after a moment is a moment. -/
theorem Moment.after (h : Moment limit now texts t m) (ha : After texts t m texts' t' m') :
    Moment limit now texts' t' m' := by
  induction ha with
  | refl => exact h
  | move _ ih => exact ih.move
  | aside output events clock _ ih => exact ih.aside output events clock
  | next _ hhalted hread hstart ih => exact ih.next hhalted hread hstart

namespace After

theorem trans (h : After texts t m texts' t' m') (h' : After texts' t' m' texts'' t'' m'') :
    After texts t m texts'' t'' m'' := by
  induction h' with
  | refl => exact h
  | move _ ih => exact ih.move
  | aside output events clock _ ih => exact ih.aside output events clock
  | next _ hhalted hread hstart ih => exact ih.next hhalted hread hstart

/-- Runs go on. -/
theorem run (texts : List (List Stmt)) (t : Trail) (m : Machine) (n : Nat) :
    After texts t m texts (t.run n m) (Machine.run n m) := by
  induction n generalizing t m with
  | zero => exact .refl
  | succ n ih =>
      rw [Machine.run_succ]
      exact (After.move .refl).trans (ih (t.step m) m.step)

/-- Notes are only added. -/
theorem «extends» (h : After texts t m texts' t' m') : t.Extends t' := by
  induction h with
  | refl => exact .of_eq rfl rfl
  | @move _ t' m' _ ih => exact ih.trans (Trail.extends_step m' t')
  | aside _ _ _ _ ih => exact ih
  | next _ _ _ _ ih => exact ih.trans (.of_eq rfl rfl)

end After

/-- A move leaves reserved words as they are. -/
theorem Moment.word_step (h : Moment limit now texts t m) {n : String} (hn : Reserved n)
    {e : EnvironmentId} {v : Value} (hv : m.state.store.getLocal? e n = some v) :
    m.step.state.store.getLocal? e n = some v := by
  rcases m.kept_step with hkept | ⟨f, k, u, hrebinds, hput⟩
  · exact hkept.names hv
  · obtain ⟨x, hx, hname⟩ := plain_of_rebinds h.sound.read h.coherent h.settled hrebinds
    rw [hput, Store.getLocal?_put, if_neg, hv]
    rintro ⟨-, -, rfl⟩
    exact hn x hx hname

/-- A reserved word stands for the same ever after. -/
theorem After.word (ha : After texts t m texts' t' m') (h : Moment limit now texts t m)
    {n : String} (hn : Reserved n) {e : EnvironmentId} {v : Value}
    (hv : m.state.store.getLocal? e n = some v) : m'.state.store.getLocal? e n = some v := by
  induction ha with
  | refl => exact hv
  | move ha ih => exact (h.after ha).word_step hn ih
  | aside _ _ _ _ ih => exact ih
  | next _ _ _ hstart ih => exact store_start hstart ▸ ih

end Session

end Lox
