/-
# Tables of named things

A table is a list of names with what each stands for.  `set` replaces an entry
or adds one at the end, so that a name stands for at most one thing; `get?` is
the view through which every other operation is described.
-/

namespace Lox

/-- Names, each with what it stands for. -/
abbrev Table (α : Type) := List (String × α)

namespace Table

variable {α : Type}

/-- What a name stands for. -/
def get? : Table α → String → Option α
  | [], _ => none
  | (k, a) :: t, n => if k = n then some a else get? t n

/-- Lets `n` stand for `a`. -/
def set : Table α → String → α → Table α
  | [], n, a => [(n, a)]
  | (k, b) :: t, n, a => if k = n then (k, a) :: t else (k, b) :: set t n a

/-- Whether a name stands for anything. -/
def has (t : Table α) (n : String) : Bool := (t.get? n).isSome

/-- The names, in order of their characters. -/
def names (t : Table α) : List String :=
  (t.map Prod.fst).mergeSort fun a b => decide (a ≤ b)

@[simp] theorem get?_nil (n : String) : get? ([] : Table α) n = none := rfl

@[simp] theorem get?_set_self (t : Table α) (n : String) (a : α) :
    (t.set n a).get? n = some a := by
  fun_induction set t n a <;> simp_all [get?]

theorem get?_set_of_ne (t : Table α) {n m : String} (a : α) (h : m ≠ n) :
    (t.set n a).get? m = t.get? m := by
  fun_induction set t n a <;> simp_all [get?, Ne.symm h]

theorem get?_set (t : Table α) (n m : String) (a : α) :
    (t.set n a).get? m = if m = n then some a else t.get? m := by
  split
  · subst_vars; exact get?_set_self ..
  · exact get?_set_of_ne _ _ ‹_›

end Table

end Lox
