import Treewalk.Binary64.Decimal
import Treewalk.Number
import Treewalk.Text.Blank
import Treewalk.Text.Digits

/-!
# Numerals

A string is equal to a number if it is a numeral for it. Blank characters around the numeral do not
count. With a decimal point it is a float: digits with one point and at least one digit in all,
then an optional exponent, whose size is bounded. Without one it is an integer of 64 bits: digits
only. Either may have a sign.
-/

namespace Treewalk.Numeral

/-- The sign at the front of a numeral and the rest. -/
def splitSign : List Char → Bool × List Char
  | '-' :: cs => (true, cs)
  | '+' :: cs => (false, cs)
  | cs => (false, cs)

/-- The digits of a numeral, if there are some and nothing else is among them. -/
def digits? (cs : List Char) : Option (List Char) :=
  if !cs.isEmpty && cs.all Char.isDigit then some cs else none

/-- A signed number. -/
def signed (negative : Bool) (n : Nat) : Int := if negative then -(n : Int) else n

/-- A number is its size with its sign. -/
@[simp] theorem signed_natAbs (k : Int) : signed (decide (k < 0)) k.natAbs = k := by
  by_cases h : k < 0
  · rw [signed, if_pos (decide_eq_true h), Int.ofNat_natAbs_of_nonpos (Int.le_of_lt h), Int.neg_neg]
  · rw [signed, if_neg (by simpa using h), Int.natAbs_of_nonneg (Int.not_lt.1 h)]

/-- A signed integer of any size: a sign or none, then one or more digits. -/
def integer? (cs : List Char) : Option Int :=
  let (negative, cs) := splitSign cs
  (digits? cs).map fun digits => signed negative (Text.spelled digits)

/-- The size that an exponent's digits stop at. -/
def exponentLimit : Nat := 2 ^ 16

/-- The size of an exponent. The digits behind the one that brings it to its limit do not count. -/
def exponentSize (digits : List Char) : Nat :=
  digits.foldl (fun n c => if n < exponentLimit then Text.appendDigit n c else n) 0

/-- The exponent behind a float's digits: nothing, or `e` or `E`, a sign or none, and digits. -/
def exponent? : List Char → Option Int
  | [] => some 0
  | 'e' :: cs | 'E' :: cs =>
    let (negative, cs) := splitSign cs
    (digits? cs).map fun digits => signed negative (exponentSize digits)
  | _ => none

/-- A float with a decimal point. -/
def float? (cs : List Char) : Option Binary64 := do
  let (negative, cs) := splitSign cs
  let whole := cs.takeWhile Char.isDigit
  let .cons '.' cs := cs.dropWhile Char.isDigit | none
  let fraction := cs.takeWhile Char.isDigit
  let digits := whole ++ fraction
  if digits.isEmpty then none
  else
    let exponent ← exponent? (cs.dropWhile Char.isDigit)
    some (Binary64.ofDecimal negative (Text.spelled digits) (exponent - fraction.length))

/-- The number that a text is a numeral for. -/
def parse? (text : String) : Option Number :=
  let cs := Text.trim text.toList
  if cs.contains '.' then (float? cs).map Number.float
  else do
    let value ← integer? cs
    if -2 ^ 63 ≤ value ∧ value < 2 ^ 63 then some (Number.int value) else none

end Treewalk.Numeral
