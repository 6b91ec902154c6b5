import Mathlib.Algebra.Order.Ring.Int
import Mathlib.Tactic.NormNum
import Treewalk.Value.Binary

/-!
# Whole numbers go without the tag

A number that goes without the tag is meant to be an integer. The tag is set for numbers out of the
range of the signed 64-bit integers, but nothing keeps a fraction from going without: only numbers
made of whole ones are known to be whole. Whole numbers are closed under negation and under steps,
whatever the rounding does at the end of the range, and results of arithmetic are whole in any case.

* `Number.IsWhole.negate`, `Number.IsWhole.step`, `Number.isWhole_arithmetic`, `Number.isWhole_int`.
* `Number.IsWhole.isExact`: a whole number without the tag is the integer that it is taken for.
* `Number.IsWhole.not_panics`: no remainder by a whole number panics.
-/

namespace Treewalk

namespace Binary64

/-! ## Whole numbers under rounding -/

theorem isIntegral_finite {negative : Bool} {m : Magnitude} :
    isIntegral (.finite negative m) = true ↔ one ∣ m.quanta := by
  rw [isIntegral, decide_eq_true_eq, Nat.dvd_iff_mod_eq_zero]

/-- Rounding keeps multiples of the number one. -/
theorem one_dvd_roundQuotient {n : Nat} (h : one ∣ n) : one ∣ roundQuotient n 1 := by
  rw [roundQuotient, Nat.div_one, Nat.shiftLeft_eq, Nat.shiftLeft_eq, Nat.one_mul]
  generalize excess n = e
  unfold one at h ⊢
  generalize 1074 = k at h ⊢
  rcases Nat.le_total e k with he | he
  · -- The places given up are zero.
    obtain ⟨m, rfl⟩ := Nat.dvd_trans (Nat.pow_dvd_pow 2 he) h
    rw [Nat.mul_comm (2 ^ e) m] at h ⊢
    rwa [divNearest_mul_right m (Nat.two_pow_pos e)]
  · exact Nat.dvd_trans (Nat.pow_dvd_pow 2 he) (Nat.dvd_mul_left _ _)

theorem isIntegral_ofQuotient (negative : Bool) {n : Nat} (h : one ∣ n) :
    (ofQuotient negative n 1).isIntegral = true ∨ ofQuotient negative n 1 = .infinite negative := by
  rw [ofQuotient]
  split
  · exact .inl (isIntegral_finite.2 (one_dvd_roundQuotient h))
  · exact .inr rfl

/-- An integer is made a whole number, or an infinity if it is too large. -/
theorem isIntegral_ofInt (i : Int) :
    (ofInt i).isIntegral = true ∨ ofInt i = .infinite (i < 0) :=
  isIntegral_ofQuotient _ (Nat.dvd_mul_left one i.natAbs)

theorem isIntegral_neg (x : Binary64) : x.neg.isIntegral = x.isIntegral := by
  cases x <;> rfl

theorem one_dvd_signed {negative : Bool} {m : Magnitude} (h : one ∣ m.quanta) :
    (one : Int) ∣ m.signed negative := by
  have h : (one : Int) ∣ (m.quanta : Int) := Int.natCast_dvd_natCast.2 h
  rw [Magnitude.signed]
  split
  · exact (Int.dvd_neg).2 h
  · exact h

/-- The sum of whole numbers is whole, or an infinity if it is too large. -/
theorem isIntegral_add {x y : Binary64} (hx : x.isIntegral = true) (hy : y.isIntegral = true) :
    (x.add y).isIntegral = true ∨ ∃ negative, x.add y = .infinite negative := by
  cases x with
  | nan | infinite => cases hx
  | finite a x =>
    cases y with
    | nan | infinite => cases hy
    | finite b y =>
      have hsum : (one : Int) ∣ x.signed a + y.signed b :=
        Int.dvd_add (one_dvd_signed (isIntegral_finite.1 hx))
          (one_dvd_signed (isIntegral_finite.1 hy))
      rw [add]
      split
      · exact .inl (isIntegral_finite.2 (Nat.dvd_zero _))
      · exact (isIntegral_ofQuotient _ (Int.natCast_dvd.1 hsum)).imp_right fun h => ⟨_, h⟩

/-- A whole number plus an integer is whole where it does not leave the range of the integers. -/
theorem isIntegral_add_ofInt {x : Binary64} (hx : x.isIntegral = true) {i : Int}
    (hf : (x.add (.ofInt i)).fitsInt64 = true) : (x.add (.ofInt i)).isIntegral = true := by
  rcases isIntegral_ofInt i with hi | hi
  · rcases isIntegral_add hx hi with h | ⟨negative, h⟩
    · exact h
    · rw [h] at hf
      cases hf
  · rw [hi] at hf
    cases x with
    | nan | infinite => cases hx
    | finite a x => cases hf

/-- Whether a number is an integer. -/
def IsInt (x : Binary64) (i : Int) : Prop :=
  ∃ negative m, x = .finite negative m ∧ m.signed negative = i * one

/-- A whole number in the range of the integers is the integer that it is truncated to. -/
theorem isInt_toInt64 {x : Binary64} (hf : x.fitsInt64 = true) (hx : x.isIntegral = true) :
    x.IsInt x.toInt64 ∧ -2 ^ 63 ≤ x.toInt64 ∧ x.toInt64 < 2 ^ 63 := by
  cases x with
  | nan | infinite => cases hx
  | finite negative m =>
    obtain ⟨k, hk⟩ := isIntegral_finite.1 hx
    have hone : (0 : Int) < one := Int.natCast_pos.2 one_pos
    have htrunc : m.signed negative = truncate negative m * one := by
      rw [Magnitude.signed, truncate, hk, Nat.mul_div_cancel_left k one_pos]
      split
      · rw [Nat.cast_mul, Int.neg_mul, Int.mul_comm]
      · rw [Nat.cast_mul, Int.mul_comm]
    rw [fitsInt64, htrunc, Bool.and_eq_true, decide_eq_true_eq, decide_eq_true_eq] at hf
    push_cast at hf
    have hlow : -2 ^ 63 ≤ truncate negative m :=
      Int.le_of_mul_le_mul_right (by rw [Int.neg_mul]; exact hf.1) hone
    have hhigh : truncate negative m < 2 ^ 63 := Int.lt_of_mul_lt_mul_right hf.2 hone.le
    have heq : toInt64 (.finite negative m) = truncate negative m := by
      rw [toInt64]
      omega
    rw [heq]
    exact ⟨⟨negative, m, rfl, htrunc⟩, hlow, hhigh⟩

/-- The number zero, of either sign. -/
theorem IsInt.equal_zero {x : Binary64} (h : x.IsInt 0) : x.equal (.zero false) = true := by
  obtain ⟨negative, m, rfl, hs⟩ := h
  rw [Int.zero_mul] at hs
  rw [equal, zero, compare?, hs]
  rfl

end Binary64

namespace Number

variable {n : Number}

/-- Whether a number is whole if it goes without the tag. -/
def IsWhole (n : Number) : Prop := n.isFloat = false → n.raw.isIntegral = true

/-- Whether a number without the tag is the integer that it is taken for, of 64 bits. -/
def IsExact (n : Number) : Prop :=
  n.isFloat = false → n.raw.IsInt n.toInt ∧ -2 ^ 63 ≤ n.toInt ∧ n.toInt < 2 ^ 63

theorem isWhole_tagged {raw : Binary64} {isFloat : Bool}
    (h : isFloat = false → raw.fitsInt64 = true → raw.isIntegral = true) :
    (tagged raw isFloat).IsWhole := by
  intro ht
  rw [isFloat_tagged, Bool.or_eq_false_iff, Bool.not_eq_false'] at ht
  exact h ht.1 ht.2

theorem isWhole_int (i : Int) : (int i).IsWhole :=
  isWhole_tagged fun _ hf => by
    rcases Binary64.isIntegral_ofInt i with h | h
    · exact h
    · rw [h] at hf
      cases hf

/-- Results of arithmetic are whole: the tag is set where there is a fraction. -/
theorem isWhole_arithmetic (raw : Binary64) (a b : Number) : (arithmetic raw a b).IsWhole :=
  isWhole_tagged fun ht _ => by
    rw [Bool.or_eq_false_iff, Bool.not_eq_false'] at ht
    exact ht.2

theorem IsWhole.negate (h : n.IsWhole) : n.negate.IsWhole :=
  isWhole_tagged fun ht _ => (Binary64.isIntegral_neg n.raw).trans (h ht)

/-- A step by a whole number. -/
theorem IsWhole.step (h : n.IsWhole) (delta : Int) : (n.step delta).IsWhole :=
  isWhole_tagged fun ht hf => Binary64.isIntegral_add_ofInt (h ht) hf

/-- A whole number without the tag is the integer that it is taken for. -/
theorem IsWhole.isExact (h : n.IsWhole) : n.IsExact :=
  fun ht => Binary64.isInt_toInt64 (n.fits ht) (h ht)

/-- Among whole numbers without the tag only zero is taken for zero. -/
theorem IsWhole.toInt_ne_zero (h : n.IsWhole) (ht : n.isFloat = false) (hz : n.isZero = false) :
    n.toInt ≠ 0 := by
  intro h0
  have hn := (h.isExact ht).1
  rw [h0] at hn
  rw [isZero, hn.equal_zero] at hz
  cases hz

/-- No remainder by a whole number panics. -/
theorem IsWhole.not_panics {op : BinaryOperator} {a b : Number} (h : b.IsWhole) :
    ¬op.numericPanics a b = true := by
  intro hp
  simp only [BinaryOperator.numericPanics, Bool.and_eq_true, Bool.not_eq_true',
    Bool.or_eq_false_iff, beq_iff_eq] at hp
  obtain ⟨⟨⟨-, -, ht⟩, hz⟩, h0⟩ := hp
  exact h.toInt_ne_zero ht hz h0

end Number

end Treewalk
