import Mathlib.Data.Nat.Cast.Order.Field
import Treewalk.Proofs.Number.Nearest

/-!
# Rounding to the nearest number

A number is rounded to the nearest multiple of its unit in the last place, a tie going to the even
multiple. The unit is such that 53 significant bits remain, but not less than a quantum. From half
a unit beyond the largest number on, an infinity takes the place of the multiple.

* `Binary64.IsRounded`: the number that a rational number is rounded to.
* `Binary64.IsRounded.equal_iff`: there is one such number, up to the sign of zero.
* `Binary64.IsRounded.abs_sub_le`: no binary number is nearer.

Main statements: `Binary64.isRounded_ofQuotient`, `Binary64.isRounded_ofInt` and
`Binary64.isRounded_ofDecimal`, the quotients, integers and decimals that are rounded so.
-/

namespace Treewalk.Binary64

variable {num den : ℕ} {x : ℚ} {v w : Binary64}

/-- Where infinities begin: half a unit beyond the largest number. -/
def limit : ℚ := 2 ^ 1024 - 2 ^ 970

/-- The unit in the last place of a number. -/
def ulp (x : ℚ) : ℚ := 2 ^ max (Int.log 2 |x| - 52) (-1074)

/-- The binary number that a rational number is rounded to. A zero may have either sign. -/
inductive IsRounded (x : ℚ) : Binary64 → Prop
  | infinite {negative : Bool} (beyond : limit ≤ if negative then -x else x) :
    IsRounded x (.infinite negative)
  | finite {negative : Bool} {m : Magnitude} (within : |x| < limit)
    (nearest : IsNearest (ulp x) x (m.signed negative / one)) : IsRounded x (.finite negative m)

/-! ## Rounded quotients -/

/-- The even numbers that a rounded quotient does not stay below. -/
theorem le_divNearest_iff {n : ℕ} (hn : Even n) (hd : 0 < den) :
    n ≤ divNearest num den ↔ 2 * (n * den) ≤ 2 * num + den := by
  obtain ⟨hle, htie⟩ := divNearest_spec num hd
  rw [Int.even_coe_nat] at htie
  generalize divNearest num den = j at hle htie ⊢
  obtain ⟨hlow, hhigh⟩ := abs_le.1 (show |(num : ℤ) - j * den| ≤ den / 2 by omega)
  constructor
  · intro h
    have hmul : n * den ≤ j * den := Nat.mul_le_mul_right den h
    zify at hmul ⊢
    omega
  · intro h
    by_contra hlt
    have hmul : (j + 1) * den ≤ n * den := Nat.mul_le_mul_right den (Nat.lt_of_not_le hlt)
    have hstep : (j + 1) * den = j * den + den := Nat.succ_mul j den
    -- The quotient is half way between `j` and `n`, so `j` is even as well.
    have hnext : n * den = (j + 1) * den := by
      zify at h hmul hstep ⊢
      omega
    obtain rfl : n = j + 1 := Nat.eq_of_mul_eq_mul_right hd hnext
    have htwice : 2 * |(num : ℤ) - j * den| = den := by
      rw [abs_of_nonneg (by zify at h hstep; omega)]
      zify at h hstep
      omega
    exact absurd hn (Nat.not_even_iff_odd.2 (htie htwice).add_one)

/-- The significant bits of a number that gives up places. -/
theorem excess_spec (n : ℕ) :
    n < 2 ^ (53 + excess n) ∧ (excess n ≠ 0 → 2 ^ (52 + excess n) ≤ n) := by
  rw [excess]
  constructor
  · exact lt_of_lt_of_le Nat.lt_log2_self (Nat.pow_le_pow_right (by decide) (by omega))
  · intro h
    have hn : n ≠ 0 := by
      rintro rfl
      exact h (by decide)
    rw [show 52 + (n.log2 + 1 - 53) = n.log2 by omega]
    exact Nat.log2_self_le hn

theorem roundQuotient_eq (num den : ℕ) :
    roundQuotient num den =
      divNearest num (den * 2 ^ excess (num / den)) * 2 ^ excess (num / den) := by
  rw [roundQuotient, Nat.shiftLeft_eq, Nat.shiftLeft_eq]

/-- A quotient that gives up places is not rounded to fewer bits. -/
theorem two_pow_le_roundQuotient (hd : 0 < den) (h : excess (num / den) ≠ 0) :
    2 ^ (52 + excess (num / den)) ≤ roundQuotient num den := by
  have hlow := (excess_spec (num / den)).2 h
  rw [Nat.le_div_iff_mul_le hd] at hlow
  rw [roundQuotient_eq, pow_add]
  generalize excess (num / den) = e at hlow ⊢
  refine Nat.mul_le_mul_right _ (le_trans ?_ (le_divNearest ..))
  rwa [Nat.le_div_iff_mul_le (Nat.mul_pos hd (Nat.two_pow_pos e)), mul_left_comm, ← pow_add,
    mul_comm]

/-- The powers of two above the significant bits that a rounded quotient stays below. -/
theorem roundQuotient_lt_iff (hd : 0 < den) (k : ℕ) :
    roundQuotient num den < 2 ^ (k + 54) ↔ num + 2 ^ k * den < 2 ^ (k + 54) * den := by
  obtain ⟨hhigh, hlow⟩ := excess_spec (num / den)
  rw [Nat.div_lt_iff_lt_mul hd] at hhigh
  rw [Nat.le_div_iff_mul_le hd] at hlow
  rw [← not_iff_not, not_lt, not_lt]
  rcases Nat.lt_or_ge (k + 1) (excess (num / den)) with he | he
  · have hne : excess (num / den) ≠ 0 := by omega
    have hpow : 2 ^ (k + 54) ≤ 2 ^ (52 + excess (num / den)) :=
      Nat.pow_le_pow_right (by decide) (by omega)
    exact iff_of_true (hpow.trans (two_pow_le_roundQuotient hd hne))
      (((Nat.mul_le_mul_right den hpow).trans (hlow hne)).trans (Nat.le_add_right ..))
  · rw [roundQuotient_eq]
    generalize excess (num / den) = e at hhigh he ⊢
    obtain ⟨i, hi⟩ := Nat.exists_eq_add_of_le he
    have hpow : 2 ^ (k + 54) = 2 * (2 ^ 52 * 2 ^ i) * 2 ^ e := by
      rw [show k + 54 = 1 + (52 + i) + e by omega, pow_add, pow_add, pow_add, pow_one]
    have hright : 2 ^ (k + 54) * den = 2 ^ 54 * (2 ^ k * den) := by
      rw [pow_add]
      ring
    have hleft : 2 * (2 ^ 52 * 2 ^ i) * (den * 2 ^ e) = 2 ^ 54 * (2 ^ k * den) := by
      rw [← hright, hpow]
      ring
    rw [hright, hpow, Nat.mul_le_mul_right_iff (Nat.two_pow_pos e),
      le_divNearest_iff (even_two_mul _) (Nat.mul_pos hd (Nat.two_pow_pos e)), hleft]
    rcases Nat.eq_zero_or_pos i with rfl | hpos
    · have hunit : den * 2 ^ e = 2 * (2 ^ k * den) := by
        rw [show e = k + 1 by omega, pow_succ]
        ring
      omega
    · -- The quotient is below half of the power, so both sides fail.
      have hunit : den * 2 ^ e ≤ 2 ^ k * den := by
        rw [mul_comm]
        exact Nat.mul_le_mul_right den (Nat.pow_le_pow_right (by decide) (by omega))
      have hnum : num < 2 ^ 53 * (den * 2 ^ e) := by
        rwa [pow_add, mul_assoc, mul_comm (2 ^ e)] at hhigh
      omega

/-- A quotient of quanta is rounded to an infinity from the limit on. -/
theorem roundQuotient_lt_overflow_iff (num : ℕ) (hd : 0 < den) :
    roundQuotient num den < overflow ↔ (num : ℚ) / den / one < limit := by
  have hden : (0 : ℚ) < den := Nat.cast_pos.2 hd
  have hone : (0 : ℚ) < one := Nat.cast_pos.2 one_pos
  have hlimit : limit * one = 2 ^ (2044 + 54) - 2 ^ 2044 := by
    rw [limit, one, Nat.cast_pow, Nat.cast_ofNat, sub_mul, ← pow_add, ← pow_add]
  rw [div_lt_iff₀ hone, hlimit, div_lt_iff₀ hden, sub_mul, lt_sub_iff_add_lt,
    overflow, show 2098 = 2044 + 54 from rfl, roundQuotient_lt_iff hd]
  generalize 2044 = k
  exact_mod_cast Iff.rfl

theorem one_eq_zpow : (one : ℚ) = 2 ^ (1074 : ℤ) := by
  rw [one, Nat.cast_pow, Nat.cast_ofNat, ← zpow_natCast, Nat.cast_ofNat]

/-- The order of magnitude of a quotient, counted from a power of two on. -/
theorem log_quotient (hn : 0 < num) (hd : 0 < den) (k : ℤ) :
    max (Int.log 2 ((num : ℚ) / den / 2 ^ k) - 52) (-k) = excess (num / den) - k := by
  have hden : (0 : ℚ) < den := Nat.cast_pos.2 hd
  have hlow : ((num / den : ℕ) : ℚ) ≤ num / den := Nat.cast_div_le
  have hhigh : (num : ℚ) / den < (num / den : ℕ) + 1 := by
    rw [div_lt_iff₀' hden]
    exact_mod_cast Nat.lt_mul_div_succ num hd
  have hquotient : (0 : ℚ) < num / den := div_pos (Nat.cast_pos.2 hn) hden
  have hscale : (0 : ℚ) < 2 ^ k := zpow_pos two_pos k
  generalize (num : ℚ) / den = q at hlow hhigh hquotient ⊢
  generalize num / den = n at hlow hhigh ⊢
  rw [excess]
  by_cases hzero : n = 0
  · subst hzero
    have hlt : q / 2 ^ k < (2 : ℕ) ^ (-k) := by
      rw [Nat.cast_ofNat, zpow_neg, div_eq_mul_inv]
      exact mul_lt_of_lt_one_left (inv_pos.2 hscale) (by simpa using hhigh)
    have hlog := (Int.lt_zpow_iff_log_lt (by decide) (div_pos hquotient hscale)).1 hlt
    rw [show Nat.log2 0 + 1 - 53 = 0 by decide]
    omega
  · have hlog : Int.log 2 (q / 2 ^ k) = n.log2 - k := by
      refine log_eq (by decide) ?_ ?_
      · rw [le_div_iff₀ hscale, Nat.cast_ofNat, ← zpow_add₀ two_ne_zero, sub_add_cancel,
          zpow_natCast]
        exact le_trans (by exact_mod_cast Nat.log2_self_le hzero) hlow
      · rw [div_lt_iff₀ hscale, Nat.cast_ofNat, ← zpow_add₀ two_ne_zero,
          show (n.log2 : ℤ) - k + 1 + k = (n.log2 + 1 : ℕ) by push_cast; ring, zpow_natCast]
        exact lt_of_lt_of_le hhigh (by exact_mod_cast Nat.lt_log2_self)
    rw [hlog]
    omega

/-- The unit in the last place of a quotient of quanta, by the places that it gives up. -/
theorem ulp_quotient (hn : 0 < num) (hd : 0 < den) :
    ulp ((num : ℚ) / den / one) = 2 ^ excess (num / den) / one := by
  have hx : (0 : ℚ) < num / den / one :=
    div_pos (div_pos (Nat.cast_pos.2 hn) (Nat.cast_pos.2 hd)) (Nat.cast_pos.2 one_pos)
  rw [ulp, abs_of_pos hx, one_eq_zpow, log_quotient hn hd, zpow_sub₀ two_ne_zero, zpow_natCast]

/-- A number of half a unit at most is rounded to zero. -/
theorem isNearest_zero {unit : ℚ} (h : |x| ≤ unit / 2) : IsNearest unit x 0 :=
  ⟨0, by rw [Int.cast_zero, zero_mul], by rwa [sub_zero], fun _ => Even.zero⟩

theorem ulp_pos (x : ℚ) : 0 < ulp x := zpow_pos two_pos _

theorem isNearest_roundQuotient (num : ℕ) (hd : 0 < den) :
    IsNearest (ulp ((num : ℚ) / den / one)) (num / den / one) (roundQuotient num den / one) := by
  rw [roundQuotient_eq]
  rcases Nat.eq_zero_or_pos num with rfl | hn
  · rw [divNearest, Nat.zero_mod, Nat.zero_div, if_pos (.inl (Nat.mul_pos hd (Nat.two_pow_pos _))),
      Nat.zero_div, zero_mul, Nat.cast_zero, zero_div, zero_div]
    exact isNearest_zero (by rw [abs_zero]; exact (half_pos (ulp_pos 0)).le)
  · rw [ulp_quotient hn hd]
    have hpow : 0 < 2 ^ excess (num / den) := Nat.two_pow_pos _
    have hone : (0 : ℚ) < one := Nat.cast_pos.2 one_pos
    generalize excess (num / den) = e at hpow ⊢
    have hunit : (0 : ℚ) < 2 ^ e / one := div_pos (pow_pos two_pos e) hone
    have hx : (num : ℚ) / (den * 2 ^ e : ℕ) * (2 ^ e / one) = num / den / one := by
      push_cast
      field_simp
    convert isNearest_divNearest (Nat.mul_pos hd hpow) hunit hx using 1
    push_cast
    ring

/-- Rounding of numbers that are not negative. -/
theorem isRounded_ofQuotient_false (num : ℕ) (hd : 0 < den) :
    IsRounded ((num : ℚ) / den / one) (ofQuotient false num den) := by
  have hx : 0 ≤ (num : ℚ) / den / one :=
    div_nonneg (div_nonneg num.cast_nonneg den.cast_nonneg) one.cast_nonneg
  have hlimit := roundQuotient_lt_overflow_iff num hd
  cases Nat.lt_or_ge (roundQuotient num den) overflow with
  | inl h =>
    rw [ofQuotient, dif_pos h]
    refine .finite (by rwa [abs_of_nonneg hx, ← hlimit]) ?_
    rw [Magnitude.signed, if_neg Bool.false_ne_true, Int.cast_natCast]
    exact isNearest_roundQuotient num hd
  | inr h =>
    rw [ofQuotient, dif_neg (Nat.not_lt.2 h)]
    exact .infinite (not_lt.1 (mt hlimit.2 (Nat.not_lt.2 h)))

/-! ## Signs -/

theorem ulp_neg (x : ℚ) : ulp (-x) = ulp x := by
  rw [ulp, ulp, abs_neg]

theorem signed_not (negative : Bool) (m : Magnitude) :
    m.signed (!negative) = -m.signed negative := by
  cases negative with
  | false => rfl
  | true => exact (neg_neg _).symm

/-- The opposite number. -/
theorem IsRounded.neg (h : IsRounded x v) : IsRounded (-x) v.neg := by
  cases h with
  | @infinite negative beyond =>
    refine .infinite ?_
    cases negative with
    | false =>
      rw [neg_neg]
      exact beyond
    | true => exact beyond
  | finite within nearest =>
    refine .finite (by rwa [abs_neg]) ?_
    rw [ulp_neg, signed_not, Int.cast_neg, neg_div]
    exact nearest.neg

theorem neg_ofQuotient (num den : ℕ) :
    (ofQuotient false num den).neg = ofQuotient true num den := by
  cases Nat.lt_or_ge (roundQuotient num den) overflow with
  | inl h => rw [ofQuotient, ofQuotient, dif_pos h, dif_pos h, Binary64.neg, Bool.not_false]
  | inr h =>
    have h : ¬roundQuotient num den < overflow := Nat.not_lt.2 h
    rw [ofQuotient, ofQuotient, dif_neg h, dif_neg h, Binary64.neg, Bool.not_false]

/-- Quotients of quanta are rounded to the nearest number. -/
theorem isRounded_ofQuotient (negative : Bool) {n : ℕ} {unit : ℚ} (hd : 0 < den)
    (hx : (num : ℚ) / den / one = n * unit) :
    IsRounded (Numeral.signed negative n * unit) (ofQuotient negative num den) := by
  have h := isRounded_ofQuotient_false num hd
  rw [hx] at h
  rw [Numeral.signed_mul]
  cases negative with
  | false => exact h
  | true => exact neg_ofQuotient num den ▸ h.neg

/-- Integers are rounded to the nearest number. -/
theorem isRounded_ofInt (k : ℤ) : IsRounded k (ofInt k) := by
  have hone : (one : ℚ) ≠ 0 := Nat.cast_ne_zero.2 one_pos.ne'
  have hx : ((k.natAbs * one : ℕ) : ℚ) / (1 : ℕ) / one = k.natAbs * 1 := by
    rw [Nat.cast_one, div_one, Nat.cast_mul, mul_div_cancel_right₀ _ hone, mul_one]
  have h := isRounded_ofQuotient (k < 0) Nat.one_pos hx
  rwa [Numeral.signed_natAbs, mul_one] at h

/-! ## There is one rounded number -/

theorem one_le_limit : 1 ≤ limit := by
  have hpow : (1 : ℚ) ≤ 2 ^ 970 := one_le_pow₀ one_le_two
  calc 1 ≤ (2 : ℚ) ^ 970 := hpow
    _ ≤ 2 ^ 970 * (2 ^ 54 - 1) := le_mul_of_one_le_right (zero_le_one.trans hpow) (by norm_num)
    _ = limit := by rw [limit, mul_sub_one, ← pow_add]

theorem limit_le_abs {negative : Bool} (h : limit ≤ if negative then -x else x) : limit ≤ |x| := by
  cases negative with
  | false => exact h.trans (le_abs_self x)
  | true => exact h.trans (neg_le_abs x)

/-- Beyond the limit there is one infinity. -/
theorem beyond_iff {a b : Bool} (h : limit ≤ if a then -x else x) :
    (limit ≤ if b then -x else x) ↔ a = b := by
  refine ⟨fun h' => ?_, fun hab => hab ▸ h⟩
  have hpos := one_le_limit
  cases a with
  | false =>
    cases b with
    | false => rfl
    | true =>
      rw [if_neg Bool.false_ne_true] at h
      rw [if_pos rfl] at h'
      linarith
  | true =>
    cases b with
    | false =>
      rw [if_pos rfl] at h
      rw [if_neg Bool.false_ne_true] at h'
      linarith
    | true => rfl

/-- There is one rounded number, up to the sign of zero. -/
theorem IsRounded.equal_iff (h : IsRounded x v) : IsRounded x w ↔ v.equal w = true := by
  rw [equal, decide_eq_true_eq]
  cases h with
  | @infinite a beyond =>
    cases w with
    | nan => exact iff_of_false (fun h => by cases h) (by simp [compare?])
    | infinite b =>
      have hiff : IsRounded x (.infinite b) ↔ limit ≤ if b then -x else x :=
        ⟨fun h => by cases h; assumption, .infinite⟩
      rw [hiff, beyond_iff beyond, compare?]
      cases a <;> cases b <;> simp
    | finite b n =>
      refine iff_of_false (fun h => ?_) (by cases a <;> simp [compare?])
      cases h with
      | finite within nearest => exact absurd (limit_le_abs beyond) (not_le.2 within)
  | @finite a m within nearest =>
    cases w with
    | nan => exact iff_of_false (fun h => by cases h) (by simp [compare?])
    | infinite b =>
      refine iff_of_false (fun h => ?_) (by cases b <;> simp [compare?])
      cases h with
      | infinite beyond => exact absurd (limit_le_abs beyond) (not_le.2 within)
    | finite b n =>
      have hone : (one : ℚ) ≠ 0 := Nat.cast_ne_zero.2 one_pos.ne'
      rw [compare?, Option.some_inj, Int.compare_eq_eq]
      constructor
      · intro h
        cases h with
        | finite _ nearest' =>
          have heq := nearest.unique (ulp_pos x) nearest'
          rwa [div_left_inj' hone, Int.cast_inj] at heq
      · exact fun heq => .finite within (heq ▸ nearest)

/-- Numbers that are rounded to one number are rounded to the same ones. -/
theorem IsRounded.congr {y : ℚ} (hx : IsRounded x v) (hy : IsRounded y v) :
    IsRounded x w ↔ IsRounded y w :=
  hx.equal_iff.trans hy.equal_iff.symm

/-! ## No number is nearer -/

/-- A number with 53 significant bits is a multiple of the unit of any order of magnitude that it
does not stay below. -/
theorem Significant.multiple_or_lt {n : ℕ} (h : Significant n) (e k : ℤ) :
    (∃ j : ℤ, (n : ℚ) / 2 ^ k = j * 2 ^ max (e - 52) (-k)) ∨
      (n : ℚ) / 2 ^ k < 2 ^ e ∧ max (e - 52) (-k) = e - 52 := by
  obtain ⟨m, q, hm, rfl⟩ := h
  have hvalue : ((m * 2 ^ q : ℕ) : ℚ) / 2 ^ k = m * 2 ^ (q - k) := by
    rw [zpow_sub₀ two_ne_zero, zpow_natCast, mul_div_assoc', Nat.cast_mul, Nat.cast_pow,
      Nat.cast_ofNat]
  rw [hvalue]
  rcases le_or_gt (max (e - 52) (-k)) (q - k) with hle | hlt
  · obtain ⟨i, hi⟩ := Int.le.dest hle
    refine .inl ⟨m * 2 ^ i, ?_⟩
    rw [← hi, zpow_add₀ two_ne_zero, zpow_natCast]
    push_cast
    ring
  · have hmax : max (e - 52) (-k) = e - 52 := by omega
    refine .inr ⟨?_, hmax⟩
    calc (m : ℚ) * 2 ^ (q - k) < 2 ^ 53 * 2 ^ (q - k) :=
          mul_lt_mul_of_pos_right (by exact_mod_cast hm) (zpow_pos two_pos _)
      _ ≤ 2 ^ 53 * 2 ^ (e - 53) := by
          refine mul_le_mul_of_nonneg_left ?_ (by norm_num)
          exact zpow_le_zpow_right₀ one_le_two (by omega)
      _ = 2 ^ e := by
          rw [← zpow_natCast, ← zpow_add₀ two_ne_zero]
          congr 1
          push_cast
          ring

/-- A multiple of the unit of a number, as large as the order of magnitude of the number. -/
theorem exists_multiple_of_log {unit : ℚ} (hx : x ≠ 0) (hunit : unit = 2 ^ (Int.log 2 |x| - 52)) :
    ∃ j : ℤ, |x - j * unit| = |x| - 2 ^ Int.log 2 |x| := by
  have hlog : (2 : ℚ) ^ Int.log 2 |x| ≤ |x| :=
    by exact_mod_cast Int.zpow_log_le_self (b := 2) (by decide) (abs_pos.2 hx)
  have hpow : (2 : ℚ) ^ 52 * unit = 2 ^ Int.log 2 |x| := by
    rw [hunit, ← zpow_natCast, ← zpow_add₀ two_ne_zero]
    congr 1
    push_cast
    ring
  rw [← hpow] at hlog ⊢
  rcases abs_cases x with ⟨habs, hsign⟩ | ⟨habs, hsign⟩
  · refine ⟨2 ^ 52, ?_⟩
    rw [habs] at hlog ⊢
    push_cast
    exact abs_of_nonneg (by linarith)
  · refine ⟨-2 ^ 52, ?_⟩
    rw [habs] at hlog ⊢
    push_cast
    rw [abs_of_nonpos (by linarith)]
    ring

/-- No binary number is nearer than the one that a number is rounded to. -/
theorem IsRounded.abs_sub_le {a : Bool} {m : Magnitude} (h : IsRounded x (.finite a m)) (b : Bool)
    (n : Magnitude) : |x - m.signed a / one| ≤ |x - n.signed b / one| := by
  cases h with
  | finite within nearest =>
    have hsign : (n.signed b : ℚ) / one = Numeral.signed b n.quanta * (1 / one) := by
      rw [mul_one_div, Magnitude.signed, Numeral.signed]
    have hone : (0 : ℚ) < 1 / one := one_div_pos.2 (Nat.cast_pos.2 one_pos)
    have hmultiple := n.significant.multiple_or_lt (Int.log 2 |x|) 1074
    rw [← one_eq_zpow, ← mul_one_div] at hmultiple
    rw [hsign]
    obtain ⟨j, hj⟩ | ⟨hlt, hmax⟩ := hmultiple
    · rw [Numeral.signed_mul, hj, ← neg_mul, ← Int.cast_neg, ← ite_mul, ← apply_ite]
      exact nearest.abs_sub_le_multiple (ulp_pos x) _
    · by_cases hx : x = 0
      · have hzero := nearest.abs_sub_le_multiple (ulp_pos x) 0
        rw [Int.cast_zero, zero_mul, hx, sub_zero, abs_zero] at hzero
        rw [hx]
        exact hzero.trans (abs_nonneg _)
      · -- A number below the unit's place is farther than the place itself.
        have hunit : ulp x = 2 ^ (Int.log 2 |x| - 52) := by rw [ulp, hmax]
        obtain ⟨j, hj⟩ := exists_multiple_of_log hx hunit
        have hfar := abs_sub_abs_le_abs_sub x (Numeral.signed b n.quanta * (1 / one))
        rw [Numeral.abs_signed_mul b n.quanta hone] at hfar
        linarith [nearest.abs_sub_le_multiple (ulp_pos x) j]

/-! ## Rounded decimals -/

theorem two_pow_le_ten_pow {i j : ℕ} (h : 2 ^ i ≤ 10 ^ j) : (2 : ℚ) ^ i ≤ 10 ^ j := by
  exact_mod_cast h

theorem limit_le_ten_pow : limit ≤ 10 ^ 310 :=
  (sub_le_self _ (pow_nonneg zero_le_two _)).trans (two_pow_le_ten_pow (by decide +kernel))

/-- A power of ten that is less than half a quantum. -/
theorem ten_zpow_le_ulp (x : ℚ) : 10 ^ (-330 : ℤ) ≤ ulp x / 2 := by
  have hhalf : (2 : ℚ) ^ (-1075 : ℤ) = 2 ^ (-1074 : ℤ) / 2 := by
    rw [show (-1075 : ℤ) = -1074 - 1 from rfl, zpow_sub_one₀ two_ne_zero, div_eq_mul_inv]
  have hpow : (10 : ℚ) ^ (-330 : ℤ) ≤ 2 ^ (-1075 : ℤ) := by
    rw [zpow_neg, zpow_neg, zpow_ofNat, zpow_ofNat]
    exact inv_anti₀ (pow_pos two_pos _) (two_pow_le_ten_pow (by decide +kernel))
  have hulp : (2 : ℚ) ^ (-1074 : ℤ) ≤ ulp x := zpow_le_zpow_right₀ one_le_two (le_max_right ..)
  exact hpow.trans (hhalf ▸ div_le_div_of_nonneg_right hulp zero_le_two)

variable {n : ℕ} {unit : ℚ}

/-- Large numbers are rounded to infinities. -/
theorem isRounded_infinite {negative : Bool} (h : 10 ^ 310 ≤ n * unit) :
    IsRounded (Numeral.signed negative n * unit) (.infinite negative) := by
  have hlimit : limit ≤ n * unit := limit_le_ten_pow.trans h
  refine .infinite ?_
  rw [Numeral.signed_mul]
  cases negative with
  | false => exact hlimit
  | true =>
    rw [if_pos rfl, if_pos rfl, neg_neg]
    exact hlimit

/-- Small numbers are rounded to zero. -/
theorem isRounded_zero {negative sign : Bool} (hunit : 0 < unit)
    (h : n * unit ≤ 10 ^ (-330 : ℤ)) :
    IsRounded (Numeral.signed negative n * unit) (.zero sign) := by
  rw [← Numeral.abs_signed_mul negative n hunit] at h
  have hlimit : (10 : ℚ) ^ (-330 : ℤ) < limit :=
    (zpow_lt_one_of_neg₀ (by norm_num) (by norm_num)).trans_le one_le_limit
  have hzero : Magnitude.zero.signed sign = 0 := by cases sign <;> rfl
  refine .finite (h.trans_lt hlimit) ?_
  rw [hzero, Int.cast_zero, zero_div]
  exact isNearest_zero (h.trans (ten_zpow_le_ulp _))

theorem ten_pow_le_mul {k : ℕ} {e : ℤ} (hn : 10 ^ k ≤ n) (he : 310 ≤ k + e) :
    10 ^ 310 ≤ (n : ℚ) * 10 ^ e :=
  calc (10 : ℚ) ^ 310 = 10 ^ (310 : ℤ) := (zpow_natCast 10 310).symm
    _ ≤ 10 ^ (k + e) := zpow_le_zpow_right₀ (by norm_num) he
    _ = (10 ^ k : ℕ) * 10 ^ e := by
      rw [zpow_add₀ (by norm_num), zpow_natCast, Nat.cast_pow, Nat.cast_ofNat]
    _ ≤ n * 10 ^ e := mul_le_mul_of_nonneg_right (Nat.cast_le.2 hn) (zpow_nonneg (by norm_num) e)

theorem mul_le_ten_zpow {k : ℕ} {e : ℤ} (hn : n < 10 ^ k) (he : k + e ≤ -330) :
    (n : ℚ) * 10 ^ e ≤ 10 ^ (-330 : ℤ) :=
  calc (n : ℚ) * 10 ^ e ≤ (10 ^ k : ℕ) * 10 ^ e :=
        mul_le_mul_of_nonneg_right (Nat.cast_le.2 hn.le) (zpow_nonneg (by norm_num) e)
    _ = 10 ^ (k + e) := by
      rw [zpow_add₀ (by norm_num), zpow_natCast, Nat.cast_pow, Nat.cast_ofNat]
    _ ≤ 10 ^ (-330 : ℤ) := zpow_le_zpow_right₀ (by norm_num) he

/-- Decimals are rounded to the nearest number. -/
theorem isRounded_ofDecimal (negative : Bool) (digits : ℕ) (exponent : ℤ) :
    IsRounded (Numeral.signed negative digits * 10 ^ exponent)
      (ofDecimal negative digits exponent) := by
  have hunit : (0 : ℚ) < 10 ^ exponent := zpow_pos (by norm_num) exponent
  have hone : (one : ℚ) ≠ 0 := Nat.cast_ne_zero.2 one_pos.ne'
  unfold ofDecimal
  split_ifs with hzero hlarge hsmall hexponent
  · subst hzero
    refine isRounded_zero hunit ?_
    rw [Nat.cast_zero, zero_mul]
    exact zpow_nonneg (by norm_num) _
  · exact isRounded_infinite (ten_pow_le_mul (tenBelow_le hzero) hlarge.le)
  · exact isRounded_zero hunit (mul_le_ten_zpow (lt_tenAbove digits) hsmall.le)
  · refine isRounded_ofQuotient negative Nat.one_pos ?_
    obtain ⟨k, rfl⟩ := Int.eq_ofNat_of_zero_le hexponent
    rw [Nat.cast_one, div_one, Nat.cast_mul, mul_div_cancel_right₀ _ hone, Int.toNat_natCast,
      zpow_natCast, Nat.cast_mul, Nat.cast_pow, Nat.cast_ofNat]
  · refine isRounded_ofQuotient negative (Nat.pow_pos (by decide)) ?_
    obtain ⟨k, hk⟩ : ∃ k : ℕ, exponent = -k := ⟨(-exponent).toNat, by omega⟩
    rw [hk, neg_neg, Int.toNat_natCast, zpow_neg, zpow_natCast, div_right_comm, Nat.cast_mul,
      mul_div_cancel_right₀ _ hone, Nat.cast_pow, Nat.cast_ofNat, div_eq_mul_inv]

end Treewalk.Binary64
