import Treewalk.Proofs.Number.Integers

/-!
# Remainders are exact

The remainder of two whole numbers without the tag is taken of their exact values, and the result
is made a number again. Nothing is lost: a remainder has no more significant bits than the number
or the divisor. Either the number is a multiple of the lesser power of two of the two, and its
remainder is no larger than itself; or the divisor is, and the remainder is below it.

* `Binary64.significant_mod`: a remainder of significant numbers is significant.
* `Binary64.IsInt.tmod`: an integer remainder of exact values is one again.

Main statement: `remainder_exact`.
-/

namespace Treewalk

namespace Binary64

/-- A remainder of numbers with at most 53 significant bits has no more. -/
theorem significant_mod {m n : ℕ} (hm : Significant m) (hn : Significant n) :
    Significant (m % n) := by
  obtain ⟨a, p, ha, rfl⟩ := hm
  obtain ⟨b, q, hb, rfl⟩ := hn
  rcases Nat.le_total p q with h | h
  · -- The divisor is a multiple of the power of two in the number.
    obtain ⟨d, rfl⟩ := Nat.exists_eq_add_of_le h
    refine ⟨a % (b * 2 ^ d), p, (Nat.mod_le _ _).trans_lt ha, ?_⟩
    rw [Nat.add_comm p d, pow_add, ← Nat.mul_assoc, Nat.mul_mod_mul_right]
  · obtain ⟨d, rfl⟩ := Nat.exists_eq_add_of_le h
    rcases Nat.eq_zero_or_pos b with rfl | hpos
    · exact ⟨a, q + d, ha, by simp⟩
    · refine ⟨a * 2 ^ d % b, q, (Nat.mod_lt _ hpos).trans hb, ?_⟩
      rw [Nat.add_comm q d, pow_add, ← Nat.mul_assoc, Nat.mul_mod_mul_right]

end Binary64

namespace Magnitude

/-- The remainder of a magnitude by another. -/
def mod (m n : Magnitude) : Magnitude where
  quanta := m.quanta % n.quanta
  in_range := (Nat.mod_le _ _).trans_lt m.in_range
  significant := Binary64.significant_mod m.significant n.significant

/-- With the sign of the number, it is the remainder of the quotient rounded to zero. -/
theorem signed_mod (a b : Bool) (m n : Magnitude) :
    (m.mod n).signed a = (m.signed a).tmod (n.signed b) := by
  cases a <;> cases b <;> simp only [signed, mod, Int.ofNat_tmod] <;> simp

end Magnitude

namespace Binary64

variable {x y : Binary64} {j k : ℤ}

/-- The remainder of exact values is an exact value. -/
theorem IsInt.tmod (hx : x.IsInt j) (hy : y.IsInt k) :
    (Binary64.ofInt (j.tmod k)).IsInt (j.tmod k) := by
  obtain ⟨a, m, -, hm⟩ := hx
  obtain ⟨b, n, -, hn⟩ := hy
  have hone : (0 : ℤ) < one := Int.natCast_pos.2 one_pos
  have hmod : (m.mod n).signed a = j.tmod k * one := by
    rw [Magnitude.signed_mod a b, hm, hn, Int.mul_comm j, Int.mul_comm k,
      Int.mul_tmod_mul_of_pos j k hone, Int.mul_comm]
  exact IsInt.ofInt ⟨a, m.mod n, rfl, hmod⟩

/-- Which exact values are in the range of the integers. -/
theorem IsInt.fitsInt64 (hx : x.IsInt k) (hlow : -2 ^ 63 ≤ k) (hhigh : k < 2 ^ 63) :
    x.fitsInt64 = true := by
  obtain ⟨negative, m, rfl, hm⟩ := hx
  have hone : (0 : ℤ) < one := Int.natCast_pos.2 one_pos
  rw [Binary64.fitsInt64, hm, Bool.and_eq_true, decide_eq_true_eq, decide_eq_true_eq]
  push_cast
  rw [← Int.neg_mul]
  exact ⟨Int.mul_le_mul_of_nonneg_right hlow hone.le, Int.mul_lt_mul_of_pos_right hhigh hone⟩

end Binary64

/-- **Remainders are exact.** Two whole numbers without the tag, the second not zero, are integers
of 64 bits. Their remainder is a number without the tag, and its value is the integer remainder of
theirs: zero or of the sign of the first, smaller than the second, and congruent to the first. It is
also the remainder of words of 64 bits, which does not overflow, not even for the least integer and
minus one. -/
theorem remainder_exact {a b : Number} (ha : a.isFloat = false) (haw : a.raw.isIntegral = true)
    (hb : b.isFloat = false) (hbw : b.raw.isIntegral = true) (hz : b.isZero = false) :
    let j := a.toInt
    let k := b.toInt
    a.raw.IsInt j ∧ b.raw.IsInt k ∧ k ≠ 0 ∧ ∃ (r : ℤ) (n : Number),
      BinaryOperator.apply .mod (.number a) (.number b) = .ok (.number n) ∧
        n.isFloat = false ∧ n.raw.IsInt r ∧
        (r = 0 ∨ r.sign = j.sign) ∧ |r| < |k| ∧ k ∣ j - r ∧
        r = (Int64.ofInt j % Int64.ofInt k).toInt := by
  intro j k
  obtain ⟨hj, hjlow, hjhigh⟩ : a.raw.IsInt j ∧ -2 ^ 63 ≤ j ∧ j < 2 ^ 63 :=
    Binary64.isInt_toInt64 (a.fits ha) haw
  obtain ⟨hk, hklow, hkhigh⟩ : b.raw.IsInt k ∧ -2 ^ 63 ≤ k ∧ k < 2 ^ 63 :=
    Binary64.isInt_toInt64 (b.fits hb) hbw
  have hne : k ≠ 0 := Number.IsWhole.toInt_ne_zero (fun _ => hbw) hb hz
  have happly : BinaryOperator.apply .mod (.number a) (.number b) =
      .ok (.number (.int (j.tmod k))) := by
    change BinaryOperator.numeric .mod a b = _
    simp [BinaryOperator.numeric, ha, hb, hz, j, k]
  clear_value j k
  have hr := hj.tmod hk
  have hnat : (j.tmod k).natAbs < k.natAbs := by
    rw [Int.natAbs_tmod]
    exact Nat.mod_lt _ (Int.natAbs_pos.2 hne)
  refine ⟨hj, hk, hne, j.tmod k, .int (j.tmod k), happly, ?_, ?_, ?_, ?_,
    Int.dvd_self_sub_of_tmod_eq rfl, ?_⟩
  · have hfits := hr.fitsInt64 (by omega) (by omega)
    simp [Number.int, hfits]
  · rw [Number.raw_int]
    exact hr
  · rw [← Int.sign_eq_zero_iff_zero, Int.sign_tmod]
    split <;> simp
  · rw [Int.abs_eq_natAbs, Int.abs_eq_natAbs]
    exact Int.ofNat_lt.2 hnat
  · rw [Int64.toInt_mod, Int64.toInt_ofInt_of_le hjlow hjhigh,
      Int64.toInt_ofInt_of_le hklow hkhigh]

/-- The least integer and minus one have the remainder zero. Beyond `2 ^ 53`, where not every
integer is a number, remainders are exact too. -/
theorem remainder_exact_least :
    let least : Number := .int (-2 ^ 63)
    let large : Number := .int (2 ^ 60 + 2 ^ 8)
    least.isFloat = false ∧ least.raw.isIntegral = true ∧
      (∃ n : Number, BinaryOperator.apply .mod (.number least) (.number (.int (-1))) =
        .ok (.number n) ∧ n.isFloat = false ∧ n.raw.IsInt 0) ∧
      ∃ n : Number, BinaryOperator.apply .mod (.number least) (.number large) =
        .ok (.number n) ∧ n.isFloat = false ∧ n.raw.IsInt (-2 ^ 60 + 7 * 2 ^ 8) := by
  intro least large
  have hn : least.isFloat = false := by decide +kernel
  have hw : least.raw.isIntegral = true := by decide +kernel
  have hleast : least.toInt = -2 ^ 63 := by decide +kernel
  have hlarge : large.toInt = 2 ^ 60 + 2 ^ 8 := by decide +kernel
  have hone : (Number.int (-1)).toInt = -1 := by decide +kernel
  obtain ⟨-, -, -, r, n, happly, ht, hr, -, -, -, hword⟩ := remainder_exact (b := .int (-1)) hn hw
    (by decide +kernel) (by decide +kernel) (by decide +kernel)
  obtain ⟨-, -, -, r', n', happly', ht', hr', -, -, -, hword'⟩ := remainder_exact (b := large) hn hw
    (by decide +kernel) (by decide +kernel) (by decide +kernel)
  rw [hleast, hone] at hword
  rw [hleast, hlarge] at hword'
  have hzero : r = 0 := hword.trans (by decide)
  have hrest : r' = -2 ^ 60 + 7 * 2 ^ 8 := hword'.trans (by decide)
  exact ⟨hn, hw, ⟨n, happly, ht, hzero ▸ hr⟩, n', happly', ht', hrest ▸ hr'⟩

end Treewalk
