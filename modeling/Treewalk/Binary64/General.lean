import Treewalk.Binary64.Decimal

/-!
# The general format

Numbers are shown to programs with six significant digits, the zeros at the end of a fraction
dropped: positional while the power of ten of the first digit is at least `-4` and below `6`,
scientific with a signed exponent of two or more digits otherwise. The power of ten is that of the
rounded number, so `999999.5` is shown as `1e+06`.

The scientific digits are always made, for their power of ten. A positional text is not made of
them: the number is rounded anew, at the place where its last digit is.
-/

namespace Treewalk.Binary64

/-- The significant digits of the general format. -/
def generalPrecision : Nat := 6

/-- The last decimal digits of a number. -/
def lastDigits : (count n : Nat) → List Char
  | 0, _ => []
  | count + 1, n => lastDigits count (n / 10) ++ [Nat.digitChar (n % 10)]

@[simp] theorem length_lastDigits (count n : Nat) : (lastDigits count n).length = count := by
  induction count generalizing n with
  | zero => rfl
  | succ count ih => rw [lastDigits, List.length_append, ih, List.length_singleton]

theorem isDigit_of_mem_lastDigits {count n : Nat} {c : Char} (h : c ∈ lastDigits count n) :
    c.isDigit = true := by
  induction count generalizing n with
  | zero => cases h
  | succ count ih =>
    obtain h | h := List.mem_append.1 h
    · exact ih h
    · rw [List.mem_singleton.1 h, Nat.isDigit_digitChar, decide_eq_true_eq]
      exact Nat.mod_lt n (by decide)

/-- The digits of a number, with a point before the last `places` of them if there are any. -/
def pointed (places n : Nat) : List Char :=
  Nat.toDigits 10 (n / 10 ^ places) ++ if places = 0 then [] else '.' :: lastDigits places n

/-- A magnitude above zero with one digit before the point and `places` behind it, and the power
of ten that this is to be multiplied by. -/
def scientific (places quanta : Nat) : List Char × Int :=
  let rounded := roundedDigits (places + 1) quanta
  (pointed places rounded.1, rounded.2)

/-- A magnitude with `places` digits behind the point. -/
def fixed (places quanta : Nat) : List Char :=
  pointed places (divNearest (quanta * 10 ^ places) one)

/-- Digits without the zeros at the end of a fraction, and without the point if that leaves none.
A whole number keeps its zeros. -/
def stripZeros (cs : List Char) : List Char :=
  if cs.contains '.' then trimEnd '.' (trimEnd '0' cs) else cs

/-- An exponent with its sign and at least two digits. -/
def exponentText (exponent : Int) : String :=
  let digits := toString exponent.natAbs
  (if exponent < 0 then "-" else "+") ++ (if digits.length < 2 then "0" ++ digits else digits)

/-- A magnitude above zero in the general format, without its sign. -/
def generalMagnitude (quanta : Nat) : String :=
  let mantissa := (scientific (generalPrecision - 1) quanta).1
  let exponent := (scientific (generalPrecision - 1) quanta).2
  if exponent < -4 ∨ (generalPrecision : Int) ≤ exponent then
    String.ofList (stripZeros mantissa) ++ "e" ++ exponentText exponent
  else
    String.ofList (stripZeros (fixed ((generalPrecision : Int) - 1 - exponent).toNat quanta))

/-- The text of a number in the general format. Not-a-number has no sign here, so the sign that a
word of 64 bits may give it is not shown. -/
def generalText : Binary64 → String
  | .nan => "nan"
  | .infinite negative => signText negative ++ "inf"
  | .finite negative m =>
    signText negative ++ if m.quanta = 0 then "0" else generalMagnitude m.quanta

end Treewalk.Binary64
