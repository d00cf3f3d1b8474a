/-
# Numbers are told apart by their texts

The decimal that `shortest` takes lies in the interval of its double: the search either
stops at a point of a grid that was looked at, or at its last grid, which is finer than the
interval is wide.  The intervals of two doubles have no real in common, for of two that
touch only one has an even mantissa.  So the decimal says which double it is of, and as a
decimal can be read back from its text, so does the text: `text_injective`.

Reals are rational numbers here.  The exponents of doubles are few enough that the width of
the last grid is checked for each of them.
-/
import Lox.Number.Text
import Mathlib.Algebra.Order.Field.Power
import Mathlib.Data.List.TakeWhile
import Mathlib.Tactic.Linarith
import Mathlib.Tactic.NormNum
import Mathlib.Tactic.Positivity
import Mathlib.Tactic.Ring

namespace Lox.Number

/-! ## Exact values -/

/-- The number that a decimal is. -/
def Decimal.value (x : Decimal) : ℚ := x.coefficient * 10 ^ x.exponent

/-- A power is a quotient of powers with natural exponents. -/
theorem zpow_mul_pow_toNat {b : ℚ} (hb : b ≠ 0) (k : ℤ) :
    b ^ k * b ^ (-k).toNat = b ^ k.toNat := by
  rw [← zpow_natCast, ← zpow_natCast, ← zpow_add₀ hb]
  congr 1
  omega

namespace Interval

/-- A rational number lies in an interval. -/
def Contains (i : Interval) (x : ℚ) : Prop :=
  if i.closed then i.low ≤ x * i.denominator ∧ x * i.denominator ≤ i.high
  else i.low < x * i.denominator ∧ x * i.denominator < i.high

theorem contains_of_holds {i : Interval} {n : Nat} (h : i.holds n = true) : i.Contains n := by
  unfold holds at h
  unfold Contains
  split at h
  · rename_i hclosed
    rw [if_pos hclosed]
    simp only [Bool.and_eq_true, decide_eq_true_eq] at h
    exact_mod_cast h
  · rename_i hclosed
    rw [if_neg hclosed]
    simp only [Bool.and_eq_true, decide_eq_true_eq] at h
    exact_mod_cast h

theorem contains_of_between {i : Interval} {x : ℚ} (hlow : i.low < x * i.denominator)
    (hhigh : x * i.denominator < i.high) : i.Contains x := by
  unfold Contains
  split
  · exact ⟨hlow.le, hhigh.le⟩
  · exact ⟨hlow, hhigh⟩

/-- What lies in an interval in units of `10 ^ k` lies in the interval itself. -/
theorem contains_inUnits {i : Interval} {k : Int} {x : ℚ} :
    (i.inUnits k).Contains x ↔ i.Contains (x * 10 ^ k) := by
  have hup : (0 : ℚ) < 10 ^ (-k).toNat := by positivity
  have hscale : x * ((i.denominator : ℚ) * 10 ^ k.toNat) =
      x * 10 ^ k * i.denominator * 10 ^ (-k).toNat := by
    rw [← zpow_mul_pow_toNat (by norm_num) k]
    ring
  simp only [Contains, inUnits, Nat.pow_eq, Nat.cast_mul, Nat.cast_pow, Nat.cast_ofNat, hscale,
    mul_le_mul_iff_left₀ hup, mul_lt_mul_iff_left₀ hup]

theorem holds_of_neighbour? {i : Interval} {n : Nat} (h : i.neighbour? = some n) :
    i.holds n = true := by
  unfold neighbour? at h
  simp only at h
  split at h
  · rename_i hn hnext
    split at h
    · cases h
      exact (Bool.and_eq_true _ _ ▸ hn).2
    · cases h
      exact hnext
  · rename_i hn _
    cases h
    exact (Bool.and_eq_true _ _ ▸ hn).2
  · rename_i hnext
    cases h
    exact hnext
  · cases h

/-- The whole part of the value lies in the interval if a unit is less than the value is
above the lower end. -/
theorem contains_floor {i : Interval} {k : Int} (hpos : 0 < i.denominator)
    (hhigh : i.value < i.high) (hunit : i.denominator * (10 : ℚ) ^ k < i.value - i.low) :
    i.Contains (Decimal.value ⟨(i.inUnits k).value / (i.inUnits k).denominator, k⟩) := by
  set j := i.inUnits k with hj
  have hden : 0 < j.denominator := by
    simp only [hj, inUnits, Nat.pow_eq]
    positivity
  have hup : (0 : ℚ) < 10 ^ (-k).toNat := by positivity
  -- the value in units, and the units of the grid, over one denominator
  have hvalue : (j.value : ℚ) = i.value * 10 ^ (-k).toNat := by simp [hj, inUnits]
  have hdenominator : (j.denominator : ℚ) = i.denominator * (10 ^ k * 10 ^ (-k).toNat) := by
    rw [zpow_mul_pow_toNat (by norm_num) k]
    simp [hj, inUnits]
  have hle : (j.value / j.denominator : ℕ) * j.denominator ≤ (j.value : ℚ) := by
    exact_mod_cast Nat.div_mul_le_self _ _
  have hlt : (j.value : ℚ) < ((j.value / j.denominator : ℕ) + 1) * j.denominator := by
    exact_mod_cast Nat.lt_mul_of_div_lt (Nat.lt_succ_self _) hden
  generalize (j.value / j.denominator : ℕ) = n at hle hlt ⊢
  rw [hvalue, hdenominator] at hle hlt
  have hbelow : (n : ℚ) * 10 ^ k * i.denominator ≤ i.value :=
    le_of_mul_le_mul_right (by linarith) hup
  have habove : (i.value : ℚ) < (n + 1) * 10 ^ k * i.denominator :=
    lt_of_mul_lt_mul_right (by linarith) hup.le
  have hhigh : (i.value : ℚ) < i.high := by exact_mod_cast hhigh
  refine contains_of_between ?_ ?_
  · show (i.low : ℚ) < n * 10 ^ k * i.denominator
    linarith
  · show (n : ℚ) * 10 ^ k * i.denominator < i.high
    linarith

/-- The search ends in the interval if its last grid is fine enough. -/
theorem contains_search {i : Interval} (hpos : 0 < i.denominator) (hhigh : i.value < i.high)
    {k : Int} {tries : Nat}
    (hunit : i.denominator * (10 : ℚ) ^ (k - tries) < i.value - i.low) :
    i.Contains (i.search k tries).value := by
  induction tries generalizing k with
  | zero => exact contains_floor hpos hhigh (by simpa using hunit)
  | succ tries ih =>
      unfold search
      split
      · rename_i n hn
        exact contains_inUnits.mp (contains_of_holds (holds_of_neighbour? hn))
      · refine ih ?_
        have hk : k - 1 - (tries : ℤ) = k - (tries + 1 : ℕ) := by
          push_cast
          ring
        rwa [hk]

end Interval

/-! ## The intervals of doubles -/

/-- The mantissas and exponents of finite doubles. -/
structure Canonical (m : Nat) (e : Int) : Prop where
  small : m < 2 ^ 53
  lowest : lowestExponent ≤ e
  highest : e ≤ 971
  normal : lowestExponent < e → 2 ^ 52 ≤ m

/-- How far the interval of a double reaches down, in quarters of its last place. -/
def below (m : Nat) (e : Int) : Nat := if m = 2 ^ 52 ∧ e ≠ lowestExponent then 1 else 2

theorem below_le (m : Nat) (e : Int) : 1 ≤ below m e ∧ below m e ≤ 2 := by
  unfold below
  split <;> decide

/-- A number lies in the interval of the double `m * 2 ^ e`. -/
def Rounds (m : Nat) (e : Int) (x : ℚ) : Prop := (Interval.around m e).Contains x

section
variable {m m' : Nat} {e e' : Int} {x : ℚ}

/-- The ends of the interval, in quarters of the last place. -/
theorem rounds_iff (hm : m ≠ 0) : Rounds m e x ↔
    if m % 2 = 0 then (4 * m - below m e : ℚ) * 2 ^ e ≤ 4 * x ∧ 4 * x ≤ (4 * m + 2) * 2 ^ e
    else (4 * m - below m e : ℚ) * 2 ^ e < 4 * x ∧ 4 * x < (4 * m + 2) * 2 ^ e := by
  have hpos : (0 : ℚ) < 2 ^ (-e).toNat := by positivity
  have hbelow : below m e ≤ 4 * m := by
    have := below_le m e
    omega
  have hlow : (((Interval.around m e).low : ℕ) : ℚ) =
      (4 * m - below m e) * 2 ^ e * 2 ^ (-e).toNat := by
    rw [mul_assoc, zpow_mul_pow_toNat (by norm_num) e]
    simp only [Interval.around, Nat.pow_eq, Nat.cast_mul, Nat.cast_pow, Nat.cast_ofNat]
    rw [show (if m = 2 ^ 52 ∧ e ≠ lowestExponent then 1 else 2) = below m e from rfl,
      Nat.cast_sub hbelow]
    push_cast
    ring
  have hhigh : (((Interval.around m e).high : ℕ) : ℚ) =
      (4 * m + 2) * 2 ^ e * 2 ^ (-e).toNat := by
    rw [mul_assoc, zpow_mul_pow_toNat (by norm_num) e]
    simp [Interval.around]
  have hx : x * ((Interval.around m e).denominator : ℕ) = 4 * x * 2 ^ (-e).toNat := by
    simp only [Interval.around, Nat.pow_eq]
    push_cast
    ring
  have hclosed : (Interval.around m e).closed = decide (m % 2 = 0) := rfl
  simp only [Rounds, Interval.Contains, hlow, hhigh, hx, hclosed, decide_eq_true_eq,
    mul_le_mul_iff_left₀ hpos, mul_lt_mul_iff_left₀ hpos]

theorem Rounds.bounds (h : Rounds m e x) (hm : m ≠ 0) :
    (4 * m - below m e : ℚ) * 2 ^ e ≤ 4 * x ∧ 4 * x ≤ (4 * m + 2) * 2 ^ e := by
  rw [rounds_iff hm] at h
  split at h
  · exact h
  · exact ⟨h.1.le, h.2.le⟩

/-- The interval of a double with an odd mantissa is without its ends. -/
theorem Rounds.strict (h : Rounds m e x) (hodd : m % 2 ≠ 0) :
    (4 * m - below m e : ℚ) * 2 ^ e < 4 * x ∧ 4 * x < (4 * m + 2) * 2 ^ e := by
  rw [rounds_iff (by omega), if_neg hodd] at h
  exact h

theorem Rounds.pos (h : Rounds m e x) (hm : m ≠ 0) : 0 < x := by
  have hone : (1 : ℚ) ≤ m := by exact_mod_cast Nat.one_le_iff_ne_zero.mpr hm
  have hbelow : (below m e : ℚ) ≤ 2 := by exact_mod_cast (below_le m e).2
  have hunit : (0 : ℚ) < 2 ^ e := by positivity
  have hlow := (h.bounds hm).1
  have : (0 : ℚ) < (4 * m - below m e) * 2 ^ e := mul_pos (by linarith) hunit
  linarith

/-- Two doubles with the same exponent have no real in common: if their intervals touch,
one of the mantissas is odd. -/
theorem Rounds.not_of_lt (h : Rounds m e x) (hm : m ≠ 0) (hlt : m < m') : ¬ Rounds m' e x := by
  intro h'
  have hm' : m' ≠ 0 := by omega
  have hunit : (0 : ℚ) < 2 ^ e := by positivity
  have hbelow : (below m' e : ℚ) ≤ 2 := by exact_mod_cast (below_le m' e).2
  have hnext : (m : ℚ) + 1 ≤ m' := by exact_mod_cast hlt
  have hgap : (4 * m + 2 : ℚ) * 2 ^ e ≤ (4 * m' - below m' e) * 2 ^ e :=
    mul_le_mul_of_nonneg_right (by linarith) hunit.le
  by_cases hodd : m % 2 = 0
  · by_cases hodd' : m' % 2 = 0
    · have hnext : (m : ℚ) + 2 ≤ m' := by exact_mod_cast (by omega : m + 2 ≤ m')
      have hgap : (4 * m + 2 : ℚ) * 2 ^ e < (4 * m' - below m' e) * 2 ^ e :=
        mul_lt_mul_of_pos_right (by linarith) hunit
      linarith [(h.bounds hm).2, (h'.bounds hm').1]
    · linarith [(h.bounds hm).2, (h'.strict hodd').1]
  · linarith [(h.strict hodd).2, (h'.bounds hm').1]

/-- A double above the lowest exponent has a mantissa of full length, and the interval
reaches down from there by half a place, or from the smallest one by a quarter. -/
theorem Canonical.low_le (hc : Canonical m e) (hlow : lowestExponent < e) :
    (2 ^ 54 - 1 : ℚ) ≤ 4 * m - below m e := by
  have hnormal := hc.normal hlow
  have hbelow : 2 ^ 54 - 1 + below m e ≤ 4 * m := by
    unfold below
    split <;> omega
  have : ((2 ^ 54 - 1 + below m e : ℕ) : ℚ) ≤ (4 * m : ℕ) := by exact_mod_cast hbelow
  push_cast at this
  linarith

/-- What rounds to a double lies below the intervals of all larger exponents: only the largest
mantissa comes close to them, and that is odd. -/
theorem Rounds.lt_of_canonical (h : Rounds m e x) (hm : m ≠ 0) (hc : Canonical m e) :
    4 * x < (2 ^ 55 - 2) * 2 ^ e := by
  have hunit : (0 : ℚ) < 2 ^ e := by positivity
  have hsmall := hc.small
  by_cases hodd : m % 2 = 0
  · have hle : (m : ℚ) + 2 ≤ 2 ^ 53 := by exact_mod_cast (by omega : m + 2 ≤ 2 ^ 53)
    have hhigh : (4 * m + 2 : ℚ) * 2 ^ e < (2 ^ 55 - 2) * 2 ^ e :=
      mul_lt_mul_of_pos_right (by linarith) hunit
    linarith [(h.bounds hm).2]
  · have hle : (m : ℚ) + 1 ≤ 2 ^ 53 := by exact_mod_cast hsmall
    have hhigh : (4 * m + 2 : ℚ) * 2 ^ e ≤ (2 ^ 55 - 2) * 2 ^ e :=
      mul_le_mul_of_nonneg_right (by linarith) hunit.le
    linarith [(h.strict hodd).2]

/-- Two doubles with different exponents have no real in common. -/
theorem Rounds.not_of_exponent_lt (h : Rounds m e x) (hm : m ≠ 0) (hc : Canonical m e)
    (hc' : Canonical m' e') (hlt : e < e') : ¬ Rounds m' e' x := by
  intro h'
  have hlow := lt_of_le_of_lt hc.lowest hlt
  have hm' : m' ≠ 0 := by
    have := hc'.normal hlow
    omega
  have hdouble : (2 : ℚ) * 2 ^ e ≤ 2 ^ e' := by
    rw [mul_comm, ← zpow_add_one₀ (by norm_num)]
    exact zpow_le_zpow_right₀ (by norm_num) hlt
  have hgap : (2 ^ 55 - 2 : ℚ) * 2 ^ e ≤ 4 * x :=
    calc (2 ^ 55 - 2 : ℚ) * 2 ^ e = (2 ^ 54 - 1) * (2 * 2 ^ e) := by ring
      _ ≤ (2 ^ 54 - 1) * 2 ^ e' := mul_le_mul_of_nonneg_left hdouble (by norm_num)
      _ ≤ (4 * m' - below m' e') * 2 ^ e' :=
        mul_le_mul_of_nonneg_right (hc'.low_le hlow) (by positivity)
      _ ≤ 4 * x := (h'.bounds hm').1
  exact absurd (h.lt_of_canonical hm hc) (not_lt_of_ge hgap)

/-- No real is nearest to two doubles. -/
theorem Rounds.unique (h : Rounds m e x) (h' : Rounds m' e' x) (hm : m ≠ 0) (hm' : m' ≠ 0)
    (hc : Canonical m e) (hc' : Canonical m' e') : m = m' ∧ e = e' := by
  rcases lt_trichotomy e e' with hlt | rfl | hlt
  · exact absurd h' (h.not_of_exponent_lt hm hc hc' hlt)
  · rcases lt_trichotomy m m' with hlt | rfl | hlt
    · exact absurd h' (h.not_of_lt hm hlt)
    · exact ⟨rfl, rfl⟩
    · exact absurd h (h'.not_of_lt hm' hlt)
  · exact absurd h (h'.not_of_exponent_lt hm' hc' hc hlt)

end

/-! ## The shortest decimal -/

/-- The last grid that is searched for a number below `2 ^ n`. -/
def lastGrid (n : Int) : Int := n * 30103 / 100000 + 1 - 24

/-- A comparison of powers, in whole numbers. -/
theorem zpow_lt_of_pow_lt {k l : Int}
    (h : 4 * 10 ^ k.toNat * 2 ^ (-l).toNat < 2 ^ l.toNat * 10 ^ (-k).toNat) :
    4 * (10 : ℚ) ^ k < 2 ^ l := by
  have htwo : (0 : ℚ) < 2 ^ (-l).toNat := by positivity
  have hten : (0 : ℚ) < 10 ^ (-k).toNat := by positivity
  have hcast : (4 : ℚ) * 10 ^ k.toNat * 2 ^ (-l).toNat < 2 ^ l.toNat * 10 ^ (-k).toNat := by
    exact_mod_cast h
  rw [← zpow_mul_pow_toNat (by norm_num) k, ← zpow_mul_pow_toNat (by norm_num) l] at hcast
  refine lt_of_mul_lt_mul_right (lt_of_mul_lt_mul_right ?_ htwo.le) hten.le
  linarith

/-- The last grid for a number below `2 ^ n` is finer than a quarter of the lowest bit of
its mantissa, for every `n` that occurs. -/
theorem last_grid_fine {n : Int} (hlow : -1104 ≤ n) (hhigh : n < 1104) :
    4 * (10 : ℚ) ^ lastGrid n < 2 ^ (n - 53) := by
  -- there is room enough to compare the grid of the last number of sixteen with the first one
  have hall : ∀ i : Fin 138,
      4 * 10 ^ (lastGrid (16 * (i - 69) + 15)).toNat * 2 ^ (-(16 * (i - 69) - 53) : Int).toNat <
        2 ^ (16 * (i - 69) - 53 : Int).toNat * 10 ^ (-lastGrid (16 * (i - 69) + 15)).toNat := by
    decide +kernel
  have hblock := zpow_lt_of_pow_lt (hall ⟨(n / 16 + 69).toNat, by omega⟩)
  simp only [show ((n / 16 + 69).toNat : Int) - 69 = n / 16 by omega] at hblock
  calc 4 * (10 : ℚ) ^ lastGrid n ≤ 4 * 10 ^ lastGrid (16 * (n / 16) + 15) := by
        refine mul_le_mul_of_nonneg_left (zpow_le_zpow_right₀ (by norm_num) ?_) (by norm_num)
        unfold lastGrid
        omega
    _ < 2 ^ (16 * (n / 16) - 53) := hblock
    _ ≤ 2 ^ (n - 53) := zpow_le_zpow_right₀ (by norm_num) (by omega)

/-- The shortest decimal of a double rounds to the double. -/
theorem rounds_shortest {m : Nat} {e : Int} (hc : Canonical m e) (hm : m ≠ 0) :
    Rounds m e (shortest m e).value := by
  unfold shortest
  rw [if_neg hm]
  have hup : (0 : ℚ) < 2 ^ (-e).toNat := by positivity
  have hlog : m.log2 ≤ 52 := Nat.lt_succ_iff.mp ((Nat.log2_lt hm).mpr hc.small)
  have hgrid := last_grid_fine (n := (m.log2 : Int) + e + 1)
    (by have := hc.lowest; unfold lowestExponent at this; omega) (by have := hc.highest; omega)
  have hfine : 4 * (10 : ℚ) ^ (topExponent m e - 24) < 2 ^ e :=
    lt_of_lt_of_le hgrid (zpow_le_zpow_right₀ (by norm_num) (by omega))
  refine Interval.contains_search ?_ ?_ ?_
  · simp only [Interval.around, Nat.pow_eq]
    positivity
  · simp only [Interval.around, Nat.pow_eq]
    exact Nat.mul_lt_mul_of_pos_right (by omega) (by positivity)
  · have hbelow := below_le m e
    have hlow : ((Interval.around m e).low : ℚ) + 2 ^ e.toNat ≤ (Interval.around m e).value := by
      have : (Interval.around m e).low + 2 ^ e.toNat ≤ (Interval.around m e).value := by
        simp only [Interval.around, Nat.pow_eq, ← Nat.succ_mul]
        refine Nat.mul_le_mul_right _ ?_
        split <;> omega
      exact_mod_cast this
    have hden : ((Interval.around m e).denominator : ℚ) = 4 * 2 ^ (-e).toNat := by
      simp [Interval.around]
    rw [hden]
    calc (4 : ℚ) * 2 ^ (-e).toNat * 10 ^ (topExponent m e - (24 : ℕ))
        = 4 * 10 ^ (topExponent m e - 24) * 2 ^ (-e).toNat := by push_cast; ring
      _ < 2 ^ e * 2 ^ (-e).toNat := mul_lt_mul_of_pos_right hfine hup
      _ = 2 ^ e.toNat := zpow_mul_pow_toNat (by norm_num) e
      _ ≤ _ := by linarith

/-- The shortest decimal tells which double it is of. -/
theorem shortest_value_injective {m m' : Nat} {e e' : Int} (hc : Canonical m e)
    (hc' : Canonical m' e') (h : (shortest m e).value = (shortest m' e').value) :
    m = m' ∧ e = e' := by
  have hzero : ∀ {m e}, Canonical m e → m = 0 →
      e = lowestExponent ∧ (shortest m e).value = 0 := by
    rintro m e hc rfl
    refine ⟨?_, by simp [shortest, Decimal.value]⟩
    by_contra hne
    exact absurd (hc.normal (lt_of_le_of_ne hc.lowest (Ne.symm hne))) (by decide)
  by_cases hm : m = 0
  · obtain ⟨he, hvalue⟩ := hzero hc hm
    by_cases hm' : m' = 0
    · exact ⟨hm.trans hm'.symm, he.trans (hzero hc' hm').1.symm⟩
    · have hpos := (rounds_shortest hc' hm').pos hm'
      rw [← h, hvalue] at hpos
      exact absurd hpos (lt_irrefl 0)
  · have hr := rounds_shortest hc hm
    by_cases hm' : m' = 0
    · have hpos := hr.pos hm
      rw [h, (hzero hc' hm').2] at hpos
      exact absurd hpos (lt_irrefl 0)
    · rw [h] at hr
      exact hr.unique (rounds_shortest hc' hm') hm hm' hc hc'

/-! ## Decimals are read back -/

theorem ofDigits_eq (ds : List Char) : ofDigits ds = Nat.ofDigitChars 10 ds 0 := by
  simp [ofDigits, Nat.ofDigitChars, Nat.mul_comm]

theorem ofDigits_toDigits (n : Nat) : ofDigits (Nat.toDigits 10 n) = n := by
  rw [ofDigits_eq, Nat.ofDigitChars_ten_toDigits]

theorem ofDigits_zeros_append (k : Nat) (ds : List Char) :
    ofDigits (List.replicate k '0' ++ ds) = ofDigits ds := by
  simp [ofDigits_eq, Nat.ofDigitChars_append]

theorem ofDigits_append_zeros (ds : List Char) (k : Nat) :
    ofDigits (ds ++ List.replicate k '0') = ofDigits ds * 10 ^ k := by
  simp [ofDigits_eq, Nat.ofDigitChars_append, Nat.mul_comm]

/-- The characters write a number: as digits, or as digits with a point behind the first
of them or further on. -/
inductive Writes : List Char → ℚ → Prop
  | whole {ds} : ds ≠ [] → (∀ c ∈ ds, c.isDigit = true) → Writes ds (ofDigits ds)
  | point {ds es} : ds ≠ [] → (∀ c ∈ ds, c.isDigit = true) → (∀ c ∈ es, c.isDigit = true) →
      Writes (ds ++ '.' :: es) (ofDigits (ds ++ es) * 10 ^ (-es.length : ℤ))

namespace Writes

variable {cs : List Char} {q q' : ℚ}

theorem chars (h : Writes cs q) : ∀ c ∈ cs, c.isDigit = true ∨ c = '.' := by
  cases h with
  | whole _ hds => exact fun c hc => .inl (hds c hc)
  | point _ hds hes =>
      intro c hc
      rcases List.mem_append.mp hc with hc | hc
      · exact .inl (hds c hc)
      · rcases List.mem_cons.mp hc with rfl | hc
        · exact .inr rfl
        · exact .inl (hes c hc)

/-- What writes a number begins with a digit. -/
theorem head (h : Writes cs q) : ∃ c rest, cs = c :: rest ∧ c.isDigit = true := by
  cases h with
  | whole hne hds | point hne hds =>
      obtain ⟨c, rest, rfl⟩ := List.exists_cons_of_ne_nil hne
      exact ⟨c, _, rfl, hds c List.mem_cons_self⟩

/-- What writes a number is read as the number. -/
theorem read (h : Writes cs q) : ∃ x, decimal? cs = some x ∧ x.value = q := by
  have hspan : ∀ {ds : List Char}, (∀ c ∈ ds, c.isDigit = true) →
      ds.span Char.isDigit = (ds, []) := by
    intro ds hds
    rw [List.span_eq_takeWhile_dropWhile, List.takeWhile_eq_self_iff.mpr hds,
      List.dropWhile_eq_nil_iff.mpr hds]
  cases h with
  | whole hne hds =>
      refine ⟨⟨ofDigits cs, 0⟩, ?_, by simp [Decimal.value]⟩
      simp [decimal?, hspan hds, splitPlaces, exponent?, hne, -List.span_eq_takeWhile_dropWhile]
  | @point ds es hne hds hes =>
      have hpoint : (ds ++ '.' :: es).span Char.isDigit = (ds, '.' :: es) := by
        rw [List.span_eq_takeWhile_dropWhile, List.takeWhile_append_of_pos hds,
          List.dropWhile_append_of_pos hds]
        simp [show Char.isDigit '.' = false from rfl]
      refine ⟨⟨ofDigits (ds ++ es), -es.length⟩, ?_, rfl⟩
      simp [decimal?, hpoint, splitPlaces, hspan hes, exponent?, hne,
        -List.span_eq_takeWhile_dropWhile]

theorem unique (h : Writes cs q) (h' : Writes cs q') : q = q' := by
  obtain ⟨x, hx, rfl⟩ := h.read
  obtain ⟨x', hx', rfl⟩ := h'.read
  rw [hx] at hx'
  cases hx'
  rfl

end Writes

section
variable {ds : List Char} (hds : ∀ c ∈ ds, c.isDigit = true)
include hds

/-- Zeros behind digits are digits. -/
theorem isDigit_zeros_append (k : Nat) : ∀ c ∈ List.replicate k '0' ++ ds, c.isDigit = true := by
  intro c hc
  rcases List.mem_append.mp hc with hzero | hc
  · rw [List.eq_of_mem_replicate hzero]
    rfl
  · exact hds c hc

theorem isDigit_append_zeros (k : Nat) : ∀ c ∈ ds ++ List.replicate k '0', c.isDigit = true :=
  fun c hc => isDigit_zeros_append hds k c (List.mem_append.mpr (List.mem_append.mp hc).symm)

/-- Digits with zeros behind them. -/
theorem Writes.padded (hne : ds ≠ []) (k : Nat) :
    Writes (ds ++ List.replicate k '0') (ofDigits ds * 10 ^ k) := by
  have h := Writes.whole (by simp [hne]) (isDigit_append_zeros hds k)
  rwa [ofDigits_append_zeros, Nat.cast_mul, Nat.cast_pow, Nat.cast_ofNat] at h

/-- Digits with a point before the last `k` of them. -/
theorem Writes.pointed {k : Nat} (hk : k < ds.length) :
    Writes (ds.take (ds.length - k) ++ '.' :: ds.drop (ds.length - k))
      (ofDigits ds * 10 ^ (-k : ℤ)) := by
  have hne : ds.take (ds.length - k) ≠ [] := by
    refine List.ne_nil_of_length_pos ?_
    rw [List.length_take]
    omega
  have hlen : (ds.drop (ds.length - k)).length = k := by
    rw [List.length_drop]
    omega
  have h := Writes.point hne (fun c hc => hds c (List.mem_of_mem_take hc))
    (fun c (hc : c ∈ ds.drop (ds.length - k)) => hds c (List.mem_of_mem_drop hc))
  rwa [List.take_append_drop, hlen] at h

/-- Digits behind a point, with zeros before them up to `k` places. -/
theorem Writes.shifted {k : Nat} (hk : ds.length ≤ k) :
    Writes ('0' :: '.' :: (List.replicate (k - ds.length) '0' ++ ds))
      (ofDigits ds * 10 ^ (-k : ℤ)) := by
  have hlen : (List.replicate (k - ds.length) '0' ++ ds).length = k := by
    rw [List.length_append, List.length_replicate]
    omega
  have h := Writes.point (List.cons_ne_nil '0' []) (List.forall_mem_singleton.mpr rfl)
    (isDigit_zeros_append hds (k - ds.length))
  have hvalue : ofDigits (['0'] ++ (List.replicate (k - ds.length) '0' ++ ds)) = ofDigits ds :=
    (ofDigits_zeros_append 1 _).trans (ofDigits_zeros_append _ ds)
  rwa [hvalue, hlen] at h

end

/-- The text of a decimal writes it. -/
theorem Decimal.writes_text (x : Decimal) : Writes x.text.toList x.value := by
  have hdigits : ∀ c ∈ Nat.toDigits 10 x.coefficient, c.isDigit = true :=
    fun c hc => Nat.isDigit_of_mem_toDigits (by decide) (by decide) hc
  have hne : Nat.toDigits 10 x.coefficient ≠ [] := Nat.toDigits_ne_nil
  have hvalue : x.value = ofDigits (Nat.toDigits 10 x.coefficient) * 10 ^ x.exponent := by
    rw [ofDigits_toDigits, Decimal.value]
  rw [hvalue]
  unfold text
  simp only
  split
  · rename_i hnonneg
    have h := Writes.padded hdigits hne x.exponent.toNat
    rw [← zpow_natCast, Int.toNat_of_nonneg hnonneg] at h
    simpa [zeros] using h
  · rename_i hneg
    have hplaces : (-((-x.exponent).toNat : ℤ)) = x.exponent := by omega
    split
    · rename_i hlt
      have h := Writes.pointed hdigits hlt
      rw [hplaces] at h
      simpa using h
    · rename_i hge
      have h := Writes.shifted hdigits (Nat.le_of_not_lt hge)
      rw [hplaces] at h
      simpa [zeros] using h

/-! ## Doubles -/

/-- A double that is a number and not infinite. -/
def IsFinite (x : Float) : Prop :=
  (parts x).magnitude ≠ .infinite ∧ (parts x).magnitude ≠ .nan

instance (x : Float) : Decidable (IsFinite x) := inferInstanceAs (Decidable (_ ∧ _))

theorem IsFinite.parts_eq {x : Float} (h : IsFinite x) :
    ∃ s m e, Number.parts x = ⟨s, .finite m e⟩ := by
  obtain ⟨hinf, hnan⟩ := h
  rcases hp : Number.parts x with ⟨s, m | m⟩
  · exact ⟨_, _, _, rfl⟩
  · exact absurd (congrArg Parts.magnitude hp) hinf
  · exact absurd (congrArg Parts.magnitude hp) hnan

/-- The fields of a finite double: the sign, the exponent and the fraction. -/
theorem fields_of_parts {bits m : Nat} {s : Bool} {e : Int}
    (h : partsOfBits bits = ⟨s, .finite m e⟩) :
    s = decide (bits / 2 ^ 63 % 2 = 1) ∧ bits / 2 ^ 52 % 2 ^ 11 ≠ 2047 ∧
      (bits / 2 ^ 52 % 2 ^ 11 = 0 ∧ m = bits % 2 ^ 52 ∧ e = lowestExponent ∨
        0 < bits / 2 ^ 52 % 2 ^ 11 ∧ m = 2 ^ 52 + bits % 2 ^ 52 ∧
          e = lowestExponent + (bits / 2 ^ 52 % 2 ^ 11 - 1 : Nat)) := by
  unfold partsOfBits at h
  simp only [Nat.pow_eq] at h
  split at h
  · split at h <;> cases h
  · rename_i hfield
    split at h
    · cases h
      exact ⟨rfl, hfield, .inl ⟨‹_›, rfl, rfl⟩⟩
    · cases h
      exact ⟨rfl, hfield, .inr ⟨Nat.pos_of_ne_zero ‹_›, rfl, rfl⟩⟩

theorem canonical_parts {bits m : Nat} {s : Bool} {e : Int}
    (h : partsOfBits bits = ⟨s, .finite m e⟩) : Canonical m e := by
  obtain ⟨-, hfield, hme⟩ := fields_of_parts h
  have hlowest : lowestExponent = -1074 := rfl
  rw [hlowest] at hme
  constructor
  · omega
  · omega
  · omega
  · intro hlt
    omega

/-- A pattern of 64 bits is told by its parts, if these are finite. -/
theorem partsOfBits_injective {a b m : Nat} {s : Bool} {e : Int} (ha : a < 2 ^ 64)
    (hb : b < 2 ^ 64) (hpa : partsOfBits a = ⟨s, .finite m e⟩)
    (hpb : partsOfBits b = ⟨s, .finite m e⟩) : a = b := by
  obtain ⟨hsa, -, hmea⟩ := fields_of_parts hpa
  obtain ⟨hsb, -, hmeb⟩ := fields_of_parts hpb
  have hsign : a / 2 ^ 63 % 2 = 1 ↔ b / 2 ^ 63 % 2 = 1 := decide_eq_decide.mp (hsa.symm.trans hsb)
  omega

theorem toBits_injective {x y : Float} (h : x.toBits = y.toBits) : x = y := by
  obtain ⟨⟨a, ha⟩⟩ := x
  obtain ⟨⟨b, hb⟩⟩ := y
  cases h
  rfl

/-- The text of a finite number: a sign and what writes its size. -/
theorem IsFinite.text_eq {x : Float} (h : IsFinite x) :
    ∃ s m e cs, Number.parts x = ⟨s, .finite m e⟩ ∧ Writes cs (shortest m e).value ∧
      (text x).toList = if s then '-' :: cs else cs := by
  obtain ⟨s, m, e, hp⟩ := h.parts_eq
  refine ⟨s, m, e, _, hp, (shortest m e).writes_text, ?_⟩
  cases s <;> simp [Number.text, hp, Parts.text, Magnitude.text]

theorem IsFinite.chars {x : Float} (h : IsFinite x) :
    ∀ c ∈ (text x).toList, c.isDigit = true ∨ c = '.' ∨ c = '-' := by
  obtain ⟨s, m, e, cs, -, hw, ht⟩ := h.text_eq
  intro c hc
  rw [ht] at hc
  have hcs : c ∈ cs → c.isDigit = true ∨ c = '.' ∨ c = '-' := fun hc =>
    (hw.chars c hc).imp_right .inl
  cases s with
  | false => exact hcs hc
  | true => exact (List.mem_cons.mp hc).elim (fun h => .inr (.inr h)) hcs

/-- The text of a finite number begins with a digit or a minus. -/
theorem IsFinite.head {x : Float} (h : IsFinite x) :
    ∃ c rest, (text x).toList = c :: rest ∧ (c.isDigit = true ∨ c = '-') := by
  obtain ⟨s, m, e, cs, -, hw, ht⟩ := h.text_eq
  obtain ⟨c, rest, rfl, hc⟩ := hw.head
  cases s with
  | false => exact ⟨c, rest, ht, .inl hc⟩
  | true => exact ⟨'-', c :: rest, ht, .inr rfl⟩

/-- A finite number is told by its text. -/
theorem text_injective {x y : Float} (hx : IsFinite x) (hy : IsFinite y) (h : text x = text y) :
    x = y := by
  obtain ⟨s, m, e, cs, hpx, hwx, htx⟩ := hx.text_eq
  obtain ⟨s', m', e', cs', hpy, hwy, hty⟩ := hy.text_eq
  obtain ⟨c, rest, rfl, hc⟩ := hwx.head
  obtain ⟨c', rest', rfl, hc'⟩ := hwy.head
  have hminus : Char.isDigit '-' = false := by decide
  rw [h, hty] at htx
  -- only the text of a negative number begins with a minus
  have hs : s' = s ∧ c' :: rest' = c :: rest := by
    cases s <;> cases s'
    · exact ⟨rfl, htx⟩
    · cases htx
      rw [hminus] at hc
      cases hc
    · cases htx
      rw [hminus] at hc'
      cases hc'
    · exact ⟨rfl, (List.cons.inj htx).2⟩
  obtain ⟨rfl, heq⟩ := hs
  rw [heq] at hwy
  obtain ⟨rfl, rfl⟩ := shortest_value_injective (canonical_parts hpx) (canonical_parts hpy)
    (hwx.unique hwy)
  refine toBits_injective (UInt64.toNat_inj.mp ?_)
  exact partsOfBits_injective x.toBits.toNat_lt y.toBits.toNat_lt hpx hpy

end Lox.Number
