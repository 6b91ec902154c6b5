import Treewalk.Power

/-!
# Rounding to 53 significant bits

Finite binary64 numbers are whole multiples of `2 ^ -1074`, here called quanta. Every operation
computes an exact quotient of natural numbers of quanta and rounds it once, by `roundQuotient`:
to the nearest number with at most 53 significant bits, an exact tie going to the even neighbour.

Main statements: `significant_roundQuotient`, a rounded quotient has at most 53 significant bits,
and `roundQuotient_of_significant`, a number that has no more is kept.
-/

namespace Treewalk.Binary64

/-- The quanta in the number one. -/
def one : Nat := 2 ^ 1074

/-- The first number of quanta that is too large for a finite number. -/
def overflow : Nat := 2 ^ 2098

/-- At most 53 significant bits. -/
def Significant (n : Nat) : Prop := ∃ m q, m < 2 ^ 53 ∧ n = m * 2 ^ q

/-- The quotient rounded to the nearest natural number, a half going to the even one. -/
def divNearest (num den : Nat) : Nat :=
  if 2 * (num % den) < den ∨ 2 * (num % den) = den ∧ num / den % 2 = 0 then num / den
  else num / den + 1

/-- The low binary places that a number gives up to keep 53 significant bits. -/
def excess (n : Nat) : Nat := n.log2 + 1 - 53

/-- The quotient rounded to the nearest number with at most 53 significant bits. -/
def roundQuotient (num den : Nat) : Nat :=
  divNearest num (den <<< excess (num / den)) <<< excess (num / den)

@[simp] theorem one_pos : 0 < one := by
  unfold one; generalize 1074 = k; exact Nat.two_pow_pos k

@[simp] theorem overflow_pos : 0 < overflow := by
  unfold overflow; generalize 2098 = k; exact Nat.two_pow_pos k

@[simp] theorem significant_zero : Significant 0 := ⟨0, 0, by decide, by decide⟩

theorem divNearest_le (num den : Nat) : divNearest num den ≤ num / den + 1 := by
  unfold divNearest; split <;> omega

theorem le_divNearest (num den : Nat) : num / den ≤ divNearest num den := by
  unfold divNearest; split <;> omega

@[simp] theorem divNearest_one (n : Nat) : divNearest n 1 = n := by
  simp [divNearest, Nat.mod_one]

theorem divNearest_mul_right (n : Nat) {den : Nat} (h : 0 < den) :
    divNearest (n * den) den = n := by
  simp [divNearest, h]

/-- Without its excess places a number has at most 53 bits. -/
theorem div_two_pow_excess_lt (n : Nat) : n / 2 ^ excess n < 2 ^ 53 := by
  rw [Nat.div_lt_iff_lt_mul (Nat.two_pow_pos _), ← Nat.pow_add]
  have h : n < 2 ^ (n.log2 + 1) := Nat.lt_log2_self
  refine Nat.lt_of_lt_of_le h (Nat.pow_le_pow_right (by decide) ?_)
  unfold excess
  omega

/-- A rounded quotient has at most 53 significant bits. -/
theorem significant_roundQuotient (num den : Nat) : Significant (roundQuotient num den) := by
  have hle : divNearest num (den <<< excess (num / den)) ≤ 2 ^ 53 := by
    have h := div_two_pow_excess_lt (num / den)
    rw [Nat.div_div_eq_div_mul, ← Nat.shiftLeft_eq] at h
    have := divNearest_le num (den <<< excess (num / den))
    omega
  rw [roundQuotient, Nat.shiftLeft_eq]
  by_cases h : divNearest num (den <<< excess (num / den)) < 2 ^ 53
  · exact ⟨_, _, h, rfl⟩
  · refine ⟨1, 53 + excess (num / den), by decide, ?_⟩
    rw [Nat.le_antisymm hle (Nat.le_of_not_lt h), Nat.pow_add, Nat.one_mul]

/-- A significant number is a multiple of its excess power. -/
theorem two_pow_excess_dvd {n : Nat} (h : Significant n) : 2 ^ excess n ∣ n := by
  obtain ⟨m, q, hm, rfl⟩ := h
  by_cases hz : m = 0
  · simp [hz]
  have hlt : m * 2 ^ q < 2 ^ (53 + q) := by
    rw [Nat.pow_add]; exact Nat.mul_lt_mul_of_pos_right hm (Nat.two_pow_pos q)
  have hne : m * 2 ^ q ≠ 0 := Nat.mul_ne_zero hz (Nat.ne_of_gt (Nat.two_pow_pos q))
  have hq : excess (m * 2 ^ q) ≤ q := by
    have := (Nat.log2_lt hne).2 hlt
    unfold excess
    omega
  exact Nat.dvd_trans (Nat.pow_dvd_pow 2 hq) (Nat.dvd_mul_left _ _)

/-- A whole number that needs no rounding is kept. -/
theorem roundQuotient_of_significant {n : Nat} (h : Significant n) {den : Nat} (hd : 0 < den) :
    roundQuotient (n * den) den = n := by
  obtain ⟨k, hk⟩ := two_pow_excess_dvd h
  rw [roundQuotient, Nat.mul_div_cancel _ hd]
  generalize excess n = e at hk ⊢
  subst hk
  have hp : 0 < den * 2 ^ e := Nat.mul_pos hd (Nat.two_pow_pos e)
  rw [Nat.shiftLeft_eq, Nat.shiftLeft_eq,
    show 2 ^ e * k * den = k * (den * 2 ^ e) by
      rw [Nat.mul_comm (2 ^ e) k, Nat.mul_assoc, Nat.mul_comm (2 ^ e) den],
    divNearest_mul_right k hp, Nat.mul_comm]

end Treewalk.Binary64
