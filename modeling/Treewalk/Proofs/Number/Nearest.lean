import Mathlib.Algebra.Order.Field.Rat
import Mathlib.Data.Int.Log
import Mathlib.Data.Rat.Floor
import Mathlib.Tactic.FieldSimp
import Mathlib.Tactic.Linarith
import Mathlib.Tactic.Positivity
import Treewalk.Numeral

/-!
# Rounding to significant digits

Binary numbers are rounded to the nearest multiple of a power of ten, a tie going to the even
multiple. The power of ten for a number of significant digits follows from the order of magnitude
of the number, but rounding can raise it by one. The rounded number is then a power of ten itself,
so rounding to the multiples of the power that is one higher gives it again.

* `IsNearest.unique`: there is one nearest multiple.
* `Binary64.decimalExponent_eq`: the power of ten of the first digit is the decimal logarithm.

Main statements: `Binary64.roundedDigits_spec` and `Binary64.divNearest_eq_roundedDigits`.
-/

namespace Treewalk

/-! ## Numbers with a sign -/

namespace Numeral

/-- The sign of a product is that of its first factor. -/
theorem signed_mul (negative : Bool) (n : ℕ) (unit : ℚ) :
    (signed negative n : ℚ) * unit = if negative then -(n * unit) else n * unit := by
  rw [signed]
  cases negative with
  | false => rw [if_neg Bool.false_ne_true, if_neg Bool.false_ne_true, Int.cast_natCast]
  | true => rw [if_pos rfl, if_pos rfl, Int.cast_neg, Int.cast_natCast, neg_mul]

theorem abs_signed_mul (negative : Bool) (n : ℕ) {unit : ℚ} (hunit : 0 < unit) :
    |(signed negative n : ℚ) * unit| = n * unit := by
  have habs : |(n : ℚ) * unit| = n * unit := abs_of_nonneg (mul_nonneg n.cast_nonneg hunit.le)
  rw [signed_mul]
  split
  · rw [abs_neg, habs]
  · exact habs

theorem signed_mul_neg_iff {negative : Bool} {n : ℕ} (hn : 0 < n) {unit : ℚ} (hunit : 0 < unit) :
    (signed negative n : ℚ) * unit < 0 ↔ negative = true := by
  have hmul : (0 : ℚ) < n * unit := mul_pos (Nat.cast_pos.2 hn) hunit
  rw [signed_mul]
  split
  · next h => exact iff_of_true (neg_neg_of_pos hmul) h
  · next h => exact iff_of_false hmul.not_gt h

end Numeral

/-! ## Nearest multiples -/

/-- The multiple of a unit nearest to a number; of two that are equally near, the even one. -/
def IsNearest (unit x d : ℚ) : Prop :=
  ∃ k : ℤ, d = k * unit ∧ |x - d| ≤ unit / 2 ∧ (|x - d| = unit / 2 → Even k)

namespace IsNearest

variable {unit unit' x d d' : ℚ}

theorem neg (h : IsNearest unit x d) : IsNearest unit (-x) (-d) := by
  obtain ⟨k, hd, hle, htie⟩ := h
  have habs : |-x - -d| = |x - d| := by rw [← abs_neg, neg_sub_neg, ← neg_sub x d, neg_neg]
  refine ⟨-k, by rw [hd]; push_cast; ring, habs ▸ hle, fun he => (htie (habs ▸ he)).neg⟩

/-- There is one nearest multiple. -/
theorem unique (hu : 0 < unit) (h : IsNearest unit x d) (h' : IsNearest unit x d') : d = d' := by
  obtain ⟨k, rfl, hle, htie⟩ := h
  obtain ⟨k', rfl, hle', htie'⟩ := h'
  by_contra hne
  have hk : k ≠ k' := fun hk => hne (by rw [hk])
  -- Two multiples are a unit apart or more, so both errors are half a unit.
  have hdist : ((|k - k'| : ℤ) : ℚ) * unit ≤ |x - k * unit| + |x - k' * unit| := by
    calc ((|k - k'| : ℤ) : ℚ) * unit = |k * unit - k' * unit| := by
          rw [← sub_mul, abs_mul, abs_of_pos hu, Int.cast_abs, Int.cast_sub]
      _ ≤ |k * unit - x| + |x - k' * unit| := abs_sub_le _ _ _
      _ = |x - k * unit| + |x - k' * unit| := by rw [abs_sub_comm]
  have hone : (1 : ℚ) ≤ (|k - k'| : ℤ) := by exact_mod_cast Int.one_le_abs (sub_ne_zero.2 hk)
  have hunit : unit ≤ ((|k - k'| : ℤ) : ℚ) * unit := le_mul_of_one_le_left hu.le hone
  have hbound : ((|k - k'| : ℤ) : ℚ) * unit ≤ 1 * unit := by linarith
  have hdiff : |k - k'| ≤ 1 := by exact_mod_cast le_of_mul_le_mul_right hbound hu
  have heven : Even (k - k') := (htie (by linarith)).sub (htie' (by linarith))
  obtain ⟨j, hj⟩ := heven
  have := abs_le.1 hdiff
  omega

/-- No multiple is nearer. -/
theorem abs_sub_le_multiple (hu : 0 < unit) (h : IsNearest unit x d) (j : ℤ) :
    |x - d| ≤ |x - j * unit| := by
  obtain ⟨k, rfl, hle, -⟩ := h
  by_cases hjk : j = k
  · rw [hjk]
  · have hone : (1 : ℚ) ≤ (|j - k| : ℤ) := by exact_mod_cast Int.one_le_abs (sub_ne_zero.2 hjk)
    have hdist : unit ≤ |j * unit - k * unit| := by
      rw [← sub_mul, abs_mul, abs_of_pos hu, ← Int.cast_sub, ← Int.cast_abs]
      exact le_mul_of_one_le_left hu.le hone
    have htriangle : |j * unit - k * unit| ≤ |j * unit - x| + |x - k * unit| := abs_sub_le _ _ _
    rw [abs_sub_comm _ x] at htriangle
    linarith

/-- A nearest multiple is nearest among the multiples of a larger unit if it is one of them. -/
theorem coarser (h : IsNearest unit x d) (hlt : unit < unit') {k : ℤ} (hk : d = k * unit') :
    IsNearest unit' x d := by
  obtain ⟨-, -, hle, -⟩ := h
  exact ⟨k, hk, by linarith, fun he => absurd he (by linarith)⟩

end IsNearest

namespace Binary64

/-- A rounded quotient is off by half the divisor at most, and even if it is off by as much. -/
theorem divNearest_spec (num : ℕ) {den : ℕ} (hd : 0 < den) :
    2 * |(num : ℤ) - divNearest num den * den| ≤ den ∧
      (2 * |(num : ℤ) - divNearest num den * den| = den → Even (divNearest num den : ℤ)) := by
  have hdiv : (num : ℤ) = (num / den : ℕ) * den + (num % den : ℕ) := by
    exact_mod_cast (Nat.div_add_mod' num den).symm
  have hmod : (num % den : ℕ) < den := Nat.mod_lt num hd
  unfold divNearest
  split
  · next h =>
    rw [hdiv, add_sub_cancel_left, Nat.abs_cast, Int.even_coe_nat, Nat.even_iff]
    omega
  · next h =>
    have herror : (num : ℤ) - (num / den + 1 : ℕ) * den = (num % den : ℕ) - den := by
      rw [hdiv]
      push_cast
      ring
    rw [herror, abs_of_nonpos (by omega), Int.even_coe_nat, Nat.even_iff]
    omega

theorem isNearest_divNearest {num den : ℕ} (hd : 0 < den) {unit x : ℚ} (hu : 0 < unit)
    (hx : (num : ℚ) / den * unit = x) : IsNearest unit x (divNearest num den * unit) := by
  obtain ⟨hle, htie⟩ := divNearest_spec num hd
  have hden : (0 : ℚ) < den := Nat.cast_pos.2 hd
  have herror : |x - divNearest num den * unit| =
      |(num : ℤ) - divNearest num den * den| * (unit / den) := by
    have hfactor : x - divNearest num den * unit =
        ((num : ℤ) - divNearest num den * den : ℤ) * (unit / den) := by
      rw [← hx]
      push_cast
      field_simp
    rw [hfactor, abs_mul, abs_of_pos (div_pos hu hden), Int.cast_abs]
  have hhalf : unit / 2 = (den / 2 : ℚ) * (unit / den) := by field_simp
  have hscale : (0 : ℚ) < unit / den := div_pos hu hden
  refine ⟨divNearest num den, by push_cast; rfl, ?_, fun he => htie ?_⟩
  · rw [herror, hhalf]
    refine mul_le_mul_of_nonneg_right ?_ hscale.le
    have : (2 * |(num : ℤ) - divNearest num den * den| : ℚ) ≤ den := by exact_mod_cast hle
    linarith
  · rw [herror, hhalf] at he
    have he := mul_right_cancel₀ hscale.ne' he
    have : (2 * |(num : ℤ) - divNearest num den * den| : ℚ) = den := by linarith
    exact_mod_cast this

/-! ## The order of magnitude -/

theorem zpow_add_nat (e : ℤ) (i : ℕ) : (10 : ℚ) ^ (e + i) = 10 ^ i * 10 ^ e := by
  rw [zpow_add₀ (by norm_num), zpow_natCast, mul_comm]

/-- A logarithm, by the powers on either side. -/
theorem log_eq {b : ℕ} (hb : 1 < b) {x : ℚ} {e : ℤ} (hx : (b : ℚ) ^ e ≤ x)
    (hlt : x < (b : ℚ) ^ (e + 1)) : Int.log b x = e := by
  have hpos : 0 < x := lt_of_lt_of_le (zpow_pos (Nat.cast_pos.2 (by omega)) e) hx
  have hle : e ≤ Int.log b x := (Int.zpow_le_iff_le_log hb hpos).1 hx
  have hlt : Int.log b x < e + 1 := (Int.lt_zpow_iff_log_lt hb hpos).1 hlt
  omega

/-- The decimal logarithm, by the powers of ten on either side. -/
theorem log_ten_eq {x : ℚ} {e : ℤ} (hx : 10 ^ e ≤ x) (hlt : x < 10 ^ (e + 1)) :
    Int.log 10 x = e :=
  log_eq (by decide) (by exact_mod_cast hx) (by exact_mod_cast hlt)

/-- The powers of ten on either side of a number. -/
theorem pow_decimalLength {n : ℕ} (hn : n ≠ 0) :
    10 ^ (decimalLength n - 1) ≤ n ∧ n < 10 ^ decimalLength n := by
  obtain ⟨k, hk⟩ : ∃ k, decimalLength n = k + 1 :=
    Nat.exists_eq_succ_of_ne_zero (decimalLength_pos n).ne'
  rw [hk, Nat.add_sub_cancel]
  refine ⟨?_, (decimalLength_le_iff n k).1 hk.le⟩
  cases k with
  | zero => omega
  | succ k =>
    by_contra hlt
    have := (decimalLength_le_iff n k).2 (Nat.lt_of_not_le hlt)
    omega

/-- The power of ten of the first digit is the decimal logarithm. -/
theorem decimalExponent_eq {quanta : ℕ} (hq : quanta ≠ 0) :
    decimalExponent quanta = Int.log 10 ((quanta : ℚ) / one) := by
  have hone : (0 : ℚ) < one := Nat.cast_pos.2 one_pos
  have hscaled : one ≤ quanta * 10 ^ 330 :=
    Nat.le_trans (by decide +kernel) (Nat.le_mul_of_pos_left _ (Nat.pos_of_ne_zero hq))
  have hn : quanta * 10 ^ 330 / one ≠ 0 := (Nat.div_pos hscaled one_pos).ne'
  obtain ⟨hle, hlt⟩ := pow_decimalLength hn
  have hpos := decimalLength_pos (quanta * 10 ^ 330 / one)
  rw [decimalExponent]
  generalize decimalLength (quanta * 10 ^ 330 / one) = k at hle hlt hpos ⊢
  rw [Nat.le_div_iff_mul_le one_pos] at hle
  rw [Nat.div_lt_iff_lt_mul one_pos] at hlt
  -- The offset is made a variable, so that its power of ten is not evaluated.
  obtain ⟨p, hp⟩ : ∃ p : ℕ, 330 = p := ⟨330, rfl⟩
  have hp' : (331 : ℤ) = p + 1 := by omega
  rw [hp] at hle hlt
  have hten : (0 : ℚ) < 10 ^ (p : ℤ) := zpow_pos (by norm_num) _
  rw [hp']
  symm
  apply log_ten_eq
  · rw [le_div_iff₀ hone, show (k : ℤ) - (p + 1) = (k - 1 : ℕ) - (p : ℤ) by omega,
      zpow_sub₀ (by norm_num), div_mul_eq_mul_div, div_le_iff₀ hten]
    exact_mod_cast hle
  · rw [div_lt_iff₀ hone, show (k : ℤ) - (p + 1) + 1 = k - (p : ℤ) by ring,
      zpow_sub₀ (by norm_num), div_mul_eq_mul_div, lt_div_iff₀ hten]
    exact_mod_cast hlt

/-- The steps in a number, times the length of a step. -/
theorem inSteps_spec (quanta : ℕ) (exponent : ℤ) :
    0 < (inSteps quanta exponent).2 ∧
      ((inSteps quanta exponent).1 : ℚ) / (inSteps quanta exponent).2 * 10 ^ exponent =
        quanta / one := by
  have hone : (one : ℚ) ≠ 0 := Nat.cast_ne_zero.2 one_pos.ne'
  rw [inSteps]
  split
  · next h =>
    obtain ⟨n, rfl⟩ := Int.eq_ofNat_of_zero_le h
    refine ⟨Nat.mul_pos one_pos (Nat.pow_pos (by decide)), ?_⟩
    rw [Int.toNat_natCast, zpow_natCast]
    push_cast
    field_simp
  · next h =>
    obtain ⟨n, hn⟩ : ∃ n : ℕ, exponent = -n := ⟨(-exponent).toNat, by omega⟩
    refine ⟨one_pos, ?_⟩
    rw [hn, neg_neg, Int.toNat_natCast, zpow_neg, zpow_natCast]
    push_cast
    field_simp

theorem isNearest_nearestSteps (quanta : ℕ) (exponent : ℤ) :
    IsNearest (10 ^ exponent) (quanta / one) (nearestSteps quanta exponent * 10 ^ exponent) := by
  obtain ⟨hpos, heq⟩ := inSteps_spec quanta exponent
  exact isNearest_divNearest hpos (zpow_pos (by norm_num) exponent) heq

/-! ## Significant digits -/

/-- A number is rounded to `k + 1` digits, or to a power of ten. -/
theorem nearestSteps_bounds {quanta : ℕ} (hq : quanta ≠ 0) (k : ℕ) :
    10 ^ k ≤ nearestSteps quanta (Int.log 10 ((quanta : ℚ) / one) - k) ∧
      nearestSteps quanta (Int.log 10 ((quanta : ℚ) / one) - k) ≤ 10 ^ (k + 1) := by
  have hx : (0 : ℚ) < quanta / one :=
    div_pos (Nat.cast_pos.2 (Nat.pos_of_ne_zero hq)) (Nat.cast_pos.2 one_pos)
  have hlow := Int.zpow_log_le_self (b := 10) (by decide) hx
  have hhigh := Int.lt_zpow_succ_log_self (b := 10) (by decide) ((quanta : ℚ) / one)
  obtain ⟨j, hj, hle, -⟩ :=
    isNearest_nearestSteps quanta (Int.log 10 ((quanta : ℚ) / one) - k)
  generalize (quanta : ℚ) / one = x at *
  generalize he : Int.log 10 x = e at *
  generalize nearestSteps quanta (e - k) = n at *
  have hunit : (0 : ℚ) < 10 ^ (e - k) := zpow_pos (by norm_num) _
  have hlow : 10 ^ k * 10 ^ (e - k) ≤ x := by
    rw [← zpow_add_nat, sub_add_cancel]
    exact_mod_cast hlow
  have hhigh : x < 10 ^ (k + 1) * 10 ^ (e - k) := by
    rw [← zpow_add_nat, Nat.cast_succ, ← add_assoc, sub_add_cancel]
    exact_mod_cast hhigh
  obtain ⟨hle, hge⟩ := abs_le.1 hle
  generalize (10 : ℚ) ^ (e - k) = unit at *
  have hlow' : (10 ^ k : ℚ) < n + 1 := by
    refine lt_of_mul_lt_mul_right ?_ hunit.le
    linarith
  have hhigh' : (n : ℚ) < 10 ^ (k + 1) + 1 := by
    refine lt_of_mul_lt_mul_right ?_ hunit.le
    linarith
  constructor
  · exact Nat.lt_succ_iff.1 (by exact_mod_cast hlow')
  · exact Nat.lt_succ_iff.1 (by exact_mod_cast hhigh')

/-- A digit too many is taken off without a change of the value. The value is then a multiple of
the larger unit as well. -/
theorem carried_spec {k n : ℕ} {e : ℤ} {x : ℚ} (hlow : 10 ^ k ≤ n) (hhigh : n ≤ 10 ^ (k + 1))
    (hnear : IsNearest (10 ^ (e - k)) x (n * 10 ^ (e - k))) :
    let digits := (carried (k + 1) n e).1
    let exponent := (carried (k + 1) n e).2
    IsNearest (10 ^ (e - k)) x (digits * 10 ^ (exponent - k)) ∧
      IsNearest (10 ^ (exponent - k)) x (digits * 10 ^ (exponent - k)) ∧
      10 ^ k ≤ digits ∧ digits < 10 ^ (k + 1) := by
  rw [carried, Nat.add_sub_cancel]
  by_cases hn : n = 10 ^ (k + 1)
  · rw [if_pos hn]
    dsimp only
    have hten : (10 : ℚ) ^ (e + 1 - k) = 10 * 10 ^ (e - k) := by
      rw [show e + 1 - k = e - k + 1 by ring, zpow_add_one₀ (by norm_num), mul_comm]
    have hunit : (0 : ℚ) < 10 ^ (e - k) := zpow_pos (by norm_num) _
    have hvalue : (n : ℚ) * 10 ^ (e - k) = (10 ^ k : ℕ) * 10 ^ (e + 1 - k) := by
      rw [hn, hten]
      push_cast
      ring
    rw [hvalue] at hnear
    refine ⟨hnear, hnear.coarser (by linarith) (k := (10 ^ k : ℕ)) ?_, le_rfl,
      Nat.pow_lt_pow_right (by decide) k.lt_succ_self⟩
    rw [Int.cast_natCast]
  · rw [if_neg hn]
    exact ⟨hnear, hnear, hlow, lt_of_le_of_ne hhigh hn⟩

/-- The rounded digits are the multiple of their unit that is nearest, for the unit that the
number has and for the unit that the digits have; and they are as many as wanted. -/
theorem roundedDigits_spec {quanta k digits : ℕ} {exponent : ℤ} (hq : quanta ≠ 0)
    (h : roundedDigits (k + 1) quanta = (digits, exponent)) :
    let x : ℚ := quanta / one
    IsNearest (10 ^ (Int.log 10 x - k)) x (digits * 10 ^ (exponent - k)) ∧
      IsNearest (10 ^ (exponent - k)) x (digits * 10 ^ (exponent - k)) ∧
      10 ^ k ≤ digits ∧ digits < 10 ^ (k + 1) := by
  have hk : ((k + 1 : ℕ) : ℤ) - 1 = k := by omega
  obtain ⟨hlow, hhigh⟩ := nearestSteps_bounds hq k
  have hnear := isNearest_nearestSteps quanta (Int.log 10 ((quanta : ℚ) / one) - k)
  have hcarried := carried_spec hlow hhigh hnear
  rw [roundedDigits, decimalExponent_eq hq, hk] at h
  rwa [h] at hcarried

/-- The decimal logarithm of digits of which the first has a given power of ten. -/
theorem log_digits {k digits : ℕ} {exponent : ℤ} (hlow : 10 ^ k ≤ digits)
    (hhigh : digits < 10 ^ (k + 1)) :
    Int.log 10 ((digits : ℚ) * 10 ^ (exponent - k)) = exponent := by
  have hunit : (0 : ℚ) < 10 ^ (exponent - k) := zpow_pos (by norm_num) _
  apply log_ten_eq
  · rw [← sub_add_cancel exponent (k : ℤ), zpow_add_nat, sub_add_cancel]
    exact mul_le_mul_of_nonneg_right (by exact_mod_cast hlow) hunit.le
  · rw [show exponent + 1 = exponent - k + (k + 1 : ℕ) by push_cast; ring, zpow_add_nat]
    exact mul_lt_mul_of_pos_right (by exact_mod_cast hhigh) hunit

/-- **Rounding at a place.** A number rounded to the place of its last significant digit has the
same digits as if it is rounded to that many significant digits. -/
theorem divNearest_eq_roundedDigits {quanta k digits : ℕ} {exponent : ℤ} (hq : quanta ≠ 0)
    (h : roundedDigits (k + 1) quanta = (digits, exponent)) {places : ℕ}
    (hplaces : (places : ℤ) = k - exponent) :
    divNearest (quanta * 10 ^ places) one = digits := by
  obtain ⟨-, hrounded, -⟩ := roundedDigits_spec hq h
  have hexponent : exponent - k = -(places : ℤ) := by omega
  rw [hexponent] at hrounded
  have hunit : (0 : ℚ) < 10 ^ (-(places : ℤ)) := zpow_pos (by norm_num) _
  have hone : (one : ℚ) ≠ 0 := Nat.cast_ne_zero.2 one_pos.ne'
  have hscaled : ((quanta * 10 ^ places : ℕ) : ℚ) / one * 10 ^ (-(places : ℤ)) = quanta / one := by
    rw [zpow_neg, zpow_natCast]
    push_cast
    field_simp
  have hfixed := isNearest_divNearest one_pos hunit hscaled
  exact Nat.cast_injective (mul_right_cancel₀ hunit.ne' (hfixed.unique hunit hrounded))

end Binary64

end Treewalk
