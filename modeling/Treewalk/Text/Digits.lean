import Treewalk.Power

/-!
# Decimal digits

Lists of digits and the numbers that they spell. Long lists are read by halves, which costs far
less than digit by digit.

Main statement: `spelled_eq_foldl`, the number spelled is ten times that of all digits but the last
plus the last.
-/

namespace Treewalk.Text

/-- The value of a digit. -/
def digitValue (c : Char) : Nat := c.toNat - '0'.toNat

/-- A number with one more digit at its end. -/
def appendDigit (n : Nat) (c : Char) : Nat := 10 * n + digitValue c

/-- The digits read at once. -/
def block : Nat := 16

/-- Reads digits off the front of a list, `2 ^ depth` blocks if there are so many: the number that
they spell, ten to the power of how many they are, and the rest of the list. -/
def readDigits : (depth : Nat) → List Char → Nat × Nat × List Char
  | 0, cs =>
    let digits := cs.take block
    (digits.foldl appendDigit 0, 10 ^ digits.length, cs.drop block)
  | depth + 1, cs =>
    let (high, p, cs) := readDigits depth cs
    let (low, q, cs) := readDigits depth cs
    (high * q + low, p * q, cs)

/-- The number that a list of digits spells. -/
def spelled (cs : List Char) : Nat := (readDigits ((cs.length / block).log2 + 1) cs).1

theorem foldl_appendDigit (n : Nat) (cs : List Char) :
    cs.foldl appendDigit n = n * 10 ^ cs.length + cs.foldl appendDigit 0 := by
  induction cs generalizing n with
  | nil => simp
  | cons c cs ih =>
    rw [List.foldl_cons, List.foldl_cons, ih, ih (appendDigit 0 c), List.length_cons, Nat.pow_succ]
    simp only [appendDigit]
    grind

theorem readDigits_eq (depth : Nat) (cs : List Char) :
    readDigits depth cs =
      ((cs.take (2 ^ depth * block)).foldl appendDigit 0,
        10 ^ (cs.take (2 ^ depth * block)).length, cs.drop (2 ^ depth * block)) := by
  induction depth generalizing cs with
  | zero => simp [readDigits]
  | succ depth ih =>
    have htwo : 2 ^ (depth + 1) * block = 2 ^ depth * block + 2 ^ depth * block := by
      rw [Nat.pow_succ, Nat.mul_two, Nat.add_mul]
    rw [htwo]
    simp only [readDigits, ih, List.take_add, List.foldl_append, List.length_append, Nat.pow_add,
      List.drop_drop]
    rw [foldl_appendDigit ((cs.take (2 ^ depth * block)).foldl appendDigit 0)]

/-- A list of digits spells ten times the number of all digits but the last, plus the last. -/
theorem spelled_eq_foldl (cs : List Char) : spelled cs = cs.foldl appendDigit 0 := by
  have hlen : cs.length < 2 ^ ((cs.length / block).log2 + 1) * block :=
    (Nat.div_lt_iff_lt_mul (by decide)).1 Nat.lt_log2_self
  rw [spelled, readDigits_eq, List.take_of_length_le (Nat.le_of_lt hlen)]

theorem spelled_append (cs ds : List Char) :
    spelled (cs ++ ds) = spelled cs * 10 ^ ds.length + spelled ds := by
  rw [spelled_eq_foldl, spelled_eq_foldl, spelled_eq_foldl, List.foldl_append, foldl_appendDigit]

theorem isDigit_of_mem_toDigits {n : Nat} {c : Char} (h : c ∈ Nat.toDigits 10 n) :
    c.isDigit = true :=
  Nat.isDigit_of_mem_toDigits (by decide) (by decide) h

/-- The decimal digits of a number spell it. -/
@[simp] theorem spelled_toDigits (n : Nat) : spelled (Nat.toDigits 10 n) = n :=
  (spelled_eq_foldl _).trans Nat.ofDigitChars_ten_toDigits

end Treewalk.Text
