import Treewalk.Binary64.Basic

/-!
# Decimal digits of binary numbers

`ofDecimal` reads `digits * 10 ^ exponent` as the nearest binary number. In the other direction
`decimalExponent` is the power of ten of the first significant digit, and `roundedDigits` rounds a
magnitude to a number of significant digits.

Main statements: `tenBelow_le` and `lt_tenAbove`, powers of ten on either side of a number, and
`decimalLength_le_iff`, a number has at most `k` digits exactly when it is below `10 ^ k`.
-/

namespace Treewalk.Binary64

/-- The count of decimal digits, one division for each; zero has one. -/
def countDigits (n : Nat) : Nat :=
  if n < 10 then 1 else countDigits (n / 10) + 1

theorem countDigits_of_lt {n : Nat} (h : n < 10) : countDigits n = 1 := by
  rw [countDigits, if_pos h]

theorem countDigits_of_le {n : Nat} (h : 10 ≤ n) : countDigits n = countDigits (n / 10) + 1 := by
  rw [countDigits, if_neg (Nat.not_lt.2 h)]

theorem countDigits_div {n k : Nat} (h : 10 ^ k ≤ n) :
    countDigits n = k + countDigits (n / 10 ^ k) := by
  induction k generalizing n with
  | zero => simp
  | succ k ih =>
    have hk : 10 ^ k ≤ n / 10 := by
      rw [Nat.le_div_iff_mul_le (by decide), ← Nat.pow_succ]; exact h
    have hn : 10 ≤ n := Nat.le_trans (Nat.le_self_pow (by omega) 10) h
    have hpow : 10 * 10 ^ k = 10 ^ (k + 1) := by rw [Nat.pow_succ, Nat.mul_comm]
    rw [countDigits_of_le hn, ih hk, Nat.div_div_eq_div_mul, hpow]
    omega

/-- A power of ten that a number above zero does not stay below. -/
def tenBelow (n : Nat) : Nat := 3 * n.log2 / 10

/-- A power of ten that a number stays below. -/
def tenAbove (n : Nat) : Nat := (n.log2 + 1) / 3 + 1

theorem tenBelow_le {n : Nat} (h : n ≠ 0) : 10 ^ tenBelow n ≤ n := by
  have hk : 10 * tenBelow n ≤ 3 * n.log2 := Nat.mul_div_le (3 * n.log2) 10
  have hpow : (10 ^ tenBelow n) ^ 10 ≤ (2 ^ n.log2) ^ 10 := by
    rw [← Nat.pow_mul, ← Nat.pow_mul, Nat.mul_comm (tenBelow n)]
    calc 10 ^ (10 * tenBelow n) ≤ 10 ^ (3 * n.log2) := Nat.pow_le_pow_right (by decide) hk
      _ = (10 ^ 3) ^ n.log2 := Nat.pow_mul 10 3 n.log2
      _ ≤ (2 ^ 10) ^ n.log2 := Nat.pow_le_pow_left (by decide) n.log2
      _ = 2 ^ (n.log2 * 10) := by rw [← Nat.pow_mul, Nat.mul_comm]
  exact Nat.le_trans ((Nat.pow_le_pow_iff_left (by decide)).1 hpow) (Nat.log2_self_le h)

theorem lt_tenAbove (n : Nat) : n < 10 ^ tenAbove n := by
  have hk : n.log2 + 1 ≤ 3 * tenAbove n := by unfold tenAbove; omega
  calc n < 2 ^ (n.log2 + 1) := Nat.lt_log2_self
    _ ≤ 2 ^ (3 * tenAbove n) := Nat.pow_le_pow_right (by decide) hk
    _ = (2 ^ 3) ^ tenAbove n := Nat.pow_mul 2 3 (tenAbove n)
    _ ≤ 10 ^ tenAbove n := Nat.pow_le_pow_left (by decide) (tenAbove n)

/-- The count of decimal digits. Most of them are counted with one division. -/
def decimalLength (n : Nat) : Nat := tenBelow n + countDigits (n / 10 ^ tenBelow n)

theorem decimalLength_eq (n : Nat) : decimalLength n = countDigits n := by
  by_cases h : n = 0
  · subst h; simp [decimalLength, tenBelow]
  · rw [decimalLength, ← countDigits_div (tenBelow_le h)]

theorem decimalLength_of_lt {n : Nat} (h : n < 10) : decimalLength n = 1 := by
  rw [decimalLength_eq, countDigits_of_lt h]

theorem decimalLength_of_le {n : Nat} (h : 10 ≤ n) :
    decimalLength n = decimalLength (n / 10) + 1 := by
  rw [decimalLength_eq, decimalLength_eq, countDigits_of_le h]

theorem decimalLength_pos (n : Nat) : 0 < decimalLength n := by
  rw [decimalLength_eq, countDigits]; split <;> omega

theorem decimalLength_le_iff (n k : Nat) : decimalLength n ≤ k + 1 ↔ n < 10 ^ (k + 1) := by
  induction k generalizing n with
  | zero =>
    by_cases h : n < 10
    · simp [decimalLength_of_lt h, h]
    · have := decimalLength_pos (n / 10)
      rw [decimalLength_of_le (Nat.not_lt.1 h)]
      omega
  | succ k ih =>
    by_cases h : n < 10
    · have : 10 ≤ 10 ^ (k + 1 + 1) := Nat.le_self_pow (by omega) 10
      rw [decimalLength_of_lt h]
      omega
    · rw [decimalLength_of_le (Nat.not_lt.1 h), Nat.add_le_add_iff_right, ih,
        Nat.div_lt_iff_lt_mul (by decide), ← Nat.pow_succ]

/-- The number nearest to `digits * 10 ^ exponent`. An exponent far out of range is decided
without computing the power. -/
def ofDecimal (negative : Bool) (digits : Nat) (exponent : Int) : Binary64 :=
  if digits = 0 then zero negative
  else if 310 < tenBelow digits + exponent then .infinite negative
  else if tenAbove digits + exponent < -330 then zero negative
  else if 0 ≤ exponent then ofQuotient negative (digits * 10 ^ exponent.toNat * one) 1
  else ofQuotient negative (digits * one) (10 ^ (-exponent).toNat)

/-- The power of ten of the first significant digit of a number of quanta above zero. -/
def decimalExponent (quanta : Nat) : Int :=
  decimalLength (quanta * 10 ^ 330 / one) - 331

/-- The number of steps of `10 ^ exponent` in a number of quanta, as numerator and denominator. -/
def inSteps (quanta : Nat) (exponent : Int) : Nat × Nat :=
  if 0 ≤ exponent then (quanta, one * 10 ^ exponent.toNat)
  else (quanta * 10 ^ (-exponent).toNat, one)

/-- The number of steps of `10 ^ exponent` nearest to a number of quanta, ties to even. -/
def nearestSteps (quanta : Nat) (exponent : Int) : Nat :=
  divNearest (inSteps quanta exponent).1 (inSteps quanta exponent).2

/-- Digits and the power of ten of the first, where rounding can have made one digit too many. -/
def carried (count digits : Nat) (exponent : Int) : Nat × Int :=
  if digits = 10 ^ count then (10 ^ (count - 1), exponent + 1) else (digits, exponent)

/-- The first `count` significant digits, rounded to the nearest with ties to even, and the power
of ten of the first one after rounding. -/
def roundedDigits (count : Nat) (quanta : Nat) : Nat × Int :=
  let exponent := decimalExponent quanta
  carried count (nearestSteps quanta (exponent - (count - 1))) exponent

/-- A text with a character dropped from its end as often as it stands there. -/
def trimEnd (c : Char) (cs : List Char) : List Char := (cs.reverse.dropWhile (· = c)).reverse

/-- The decimal digits of a number with the zeros at its end dropped. -/
def significantDigits (digits : Nat) : List Char := trimEnd '0' (Nat.toDigits 10 digits)

/-- Digits with a decimal point after the first; no point after a lone digit. -/
def scientificDigits : List Char → List Char
  | [] => []
  | [d] => [d]
  | d :: rest => d :: '.' :: rest

/-- Digits at a power of ten: the digits before the point, then those behind it. -/
def positionalDigits (digits : List Char) (exponent : Int) : List Char × List Char :=
  if exponent < 0 then
    (['0'], List.replicate (-exponent - 1).toNat '0' ++ digits)
  else
    let whole := exponent.toNat + 1
    (digits.take whole ++ List.replicate (whole - digits.length) '0', digits.drop whole)

/-- A minus sign if wanted. -/
def signText (negative : Bool) : String := if negative then "-" else ""

end Treewalk.Binary64
