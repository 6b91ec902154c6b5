import Treewalk.Binary64.General

/-!
# Numbers

Integers and floats share one representation. The tag `isFloat` decides how a number is shown and
whether `%` takes it. Only a number that a signed 64-bit integer can hold goes without the tag, so
an integer that grows out of that range becomes a float.
-/

namespace Treewalk

/-- A number with its tag. -/
structure Number where
  raw : Binary64
  isFloat : Bool
  fits : isFloat = false → raw.fitsInt64 = true
  deriving DecidableEq

namespace Number

/-- A number, tagged if asked for or if it is out of the range of the integers. -/
def tagged (raw : Binary64) (isFloat : Bool) : Number :=
  ⟨raw, isFloat || !raw.fitsInt64, by simp⟩

/-- An integer. -/
def int (value : Int) : Number := tagged (.ofInt value) false

/-- A float. -/
def float (value : Binary64) : Number := ⟨value, true, by simp⟩

/-- `1` for true and `0` for false. -/
def ofBool (b : Bool) : Number := int (if b then 1 else 0)

/-- The result of an operation on two numbers: a float if one of them is, or if it has a
fractional part. -/
def arithmetic (raw : Binary64) (a b : Number) : Number :=
  tagged raw (a.isFloat || b.isFloat || !raw.isIntegral)

/-- The integer part, within the signed 64-bit integers. -/
def toInt (n : Number) : Int := n.raw.toInt64

/-- Whether the number is zero, of either sign. -/
def isZero (n : Number) : Bool := n.raw.equal (.zero false)

/-- Whether the number is one. -/
def isOne (n : Number) : Bool := n.raw.equal (.ofInt 1)

/-- The opposite number, with the same tag while it fits. -/
def negate (n : Number) : Number := tagged n.raw.neg n.isFloat

/-- The number plus a whole number, with the same tag while it fits. -/
def step (n : Number) (delta : Int) : Number := tagged (n.raw.add (.ofInt delta)) n.isFloat

/-- Numerical equality of two numbers with the same tag. -/
def same (a b : Number) : Bool := a.raw.equal b.raw && a.isFloat == b.isFloat

/-- What a program sees of a number: floats in the general format, others as integers. -/
def text (n : Number) : String := if n.isFloat then n.raw.generalText else toString n.toInt

@[simp] theorem raw_tagged (raw : Binary64) (isFloat : Bool) : (tagged raw isFloat).raw = raw := rfl

@[simp] theorem isFloat_tagged (raw : Binary64) (isFloat : Bool) :
    (tagged raw isFloat).isFloat = (isFloat || !raw.fitsInt64) := rfl

@[simp] theorem raw_int (value : Int) : (int value).raw = .ofInt value := raw_tagged ..

@[simp] theorem raw_float (raw : Binary64) : (float raw).raw = raw := rfl

@[simp] theorem isFloat_float (raw : Binary64) : (float raw).isFloat = true := rfl

theorem same_comm (a b : Number) : a.same b = b.same a := by
  rw [same, same, Binary64.equal_comm, Bool.beq_comm]

theorem same_trans {a b c : Number} (hab : a.same b = true) (hbc : b.same c = true) :
    a.same c = true := by
  simp only [same, Bool.and_eq_true, beq_iff_eq] at hab hbc ⊢
  exact ⟨Binary64.equal_trans hab.1 hbc.1, hab.2.trans hbc.2⟩

theorem same_self_iff (n : Number) : n.same n = true ↔ n.raw ≠ .nan := by
  simp [same, Binary64.equal_self_iff]

end Number

end Treewalk
