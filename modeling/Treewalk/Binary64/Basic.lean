import Treewalk.Binary64.Rounding

/-!
# Binary floating-point numbers of 64 bits

A number is not-a-number, an infinity, or a sign with a magnitude in quanta of `2 ^ -1074`.
Arithmetic is exact on quanta and rounds once, so `add`, `sub`, `mul` and `div` give the nearest
number to the exact result. There is one not-a-number; it is unequal to everything.

Main statements: `compare?_swap`, exchanging two numbers reverses their order; `equal_comm` and
`equal_trans`, and `equal_self_iff`, which says that only not-a-number is unequal to itself.
-/

namespace Treewalk

/-- The magnitude of a finite number: a number of quanta that 53 significant bits can hold. -/
structure Magnitude where
  quanta : Nat
  in_range : quanta < Binary64.overflow
  significant : Binary64.Significant quanta
  deriving DecidableEq

/-- A binary floating-point number of 64 bits. Zero has a sign. -/
inductive Binary64 where
  | nan
  | infinite (negative : Bool)
  | finite (negative : Bool) (magnitude : Magnitude)
  deriving DecidableEq

namespace Magnitude

@[ext] theorem ext_quanta {a b : Magnitude} (h : a.quanta = b.quanta) : a = b := by
  cases a; cases b; cases h; rfl

/-- No quanta at all. -/
def zero : Magnitude := ⟨0, Binary64.overflow_pos, Binary64.significant_zero⟩

/-- The value of the magnitude with its sign, in quanta. -/
def signed (negative : Bool) (m : Magnitude) : Int :=
  if negative then -(m.quanta : Int) else m.quanta

end Magnitude

namespace Binary64

/-- Zero, with a sign. -/
def zero (negative : Bool) : Binary64 := .finite negative .zero

/-- The number nearest to a quotient of quanta; too large a quotient gives an infinity. -/
def ofQuotient (negative : Bool) (num den : Nat) : Binary64 :=
  if h : roundQuotient num den < overflow then
    .finite negative ⟨roundQuotient num den, h, significant_roundQuotient num den⟩
  else .infinite negative

/-- The number nearest to an integer. -/
def ofInt (i : Int) : Binary64 := ofQuotient (i < 0) (i.natAbs * one) 1

/-- The number with the opposite sign. -/
def neg : Binary64 → Binary64
  | .nan => .nan
  | .infinite n => .infinite !n
  | .finite n m => .finite (!n) m

/-- The sum, rounded. An exact zero is negative only if both terms are. -/
def add : Binary64 → Binary64 → Binary64
  | .nan, _ | _, .nan => .nan
  | .infinite a, .infinite b => if a = b then .infinite a else .nan
  | .infinite a, .finite _ _ => .infinite a
  | .finite _ _, .infinite b => .infinite b
  | .finite a x, .finite b y =>
    let sum := x.signed a + y.signed b
    if sum = 0 then zero (a && b) else ofQuotient (sum < 0) sum.natAbs 1

/-- The difference, rounded. -/
def sub (x y : Binary64) : Binary64 := x.add y.neg

/-- The product, rounded. An infinity times zero is not a number. -/
def mul : Binary64 → Binary64 → Binary64
  | .nan, _ | _, .nan => .nan
  | .infinite a, .infinite b => .infinite (a != b)
  | .infinite a, .finite b x | .finite a x, .infinite b =>
    if x.quanta = 0 then .nan else .infinite (a != b)
  | .finite a x, .finite b y => ofQuotient (a != b) (x.quanta * y.quanta) one

/-- The quotient, rounded. -/
def div : Binary64 → Binary64 → Binary64
  | .nan, _ | _, .nan => .nan
  | .infinite _, .infinite _ => .nan
  | .infinite a, .finite b _ => .infinite (a != b)
  | .finite a _, .infinite b => zero (a != b)
  | .finite a x, .finite b y =>
    if y.quanta = 0 then if x.quanta = 0 then .nan else .infinite (a != b)
    else ofQuotient (a != b) (x.quanta * one) y.quanta

/-- The order of two numbers; `none` if one of them is not a number. Both zeros are equal. -/
def compare? : Binary64 → Binary64 → Option Ordering
  | .nan, _ | _, .nan => none
  | .infinite a, .infinite b => some (if a = b then .eq else if a then .lt else .gt)
  | .infinite a, .finite _ _ => some (if a then .lt else .gt)
  | .finite _ _, .infinite b => some (if b then .gt else .lt)
  | .finite a x, .finite b y => some (compare (x.signed a) (y.signed b))

/-- Numerical equality. -/
def equal (x y : Binary64) : Bool := compare? x y = some .eq

/-- Whether the first number is less. -/
def less (x y : Binary64) : Bool := compare? x y = some .lt

/-- Whether the first number is at most the second. -/
def lessEqual (x y : Binary64) : Bool := x.less y || x.equal y

theorem compare?_swap (x y : Binary64) : compare? y x = (compare? x y).map Ordering.swap := by
  cases x with
  | nan => cases y <;> rfl
  | infinite a =>
    cases y with
    | nan => rfl
    | infinite b => cases a <;> cases b <;> rfl
    | finite b y => cases a <;> rfl
  | finite a x =>
    cases y with
    | nan => rfl
    | infinite b => cases b <;> rfl
    | finite b y => simp [compare?, Int.compare_swap]

theorem equal_comm (x y : Binary64) : x.equal y = y.equal x := by
  rw [equal, equal, compare?_swap x y]
  rcases compare? x y with _ | _ | _ | _ <;> rfl

theorem equal_self_iff (x : Binary64) : x.equal x = true ↔ x ≠ .nan := by
  cases x <;> simp [equal, compare?]

theorem equal_infinite (a b : Bool) : (infinite a).equal (infinite b) = true ↔ a = b := by
  cases a <;> cases b <;> decide

theorem equal_finite (a b : Bool) (x y : Magnitude) :
    (finite a x).equal (finite b y) = true ↔ x.signed a = y.signed b := by
  simp [equal, compare?]

theorem equal_trans {x y z : Binary64} (hxy : x.equal y = true) (hyz : y.equal z = true) :
    x.equal z = true := by
  cases x with
  | nan => cases y <;> cases hxy
  | infinite a =>
    cases y with
    | nan => cases hxy
    | infinite b =>
      obtain rfl := (equal_infinite a b).1 hxy
      exact hyz
    | finite b y => cases a <;> cases hxy
  | finite a x =>
    cases y with
    | nan => cases hxy
    | infinite b => cases b <;> cases hxy
    | finite b y =>
      cases z with
      | nan => cases hyz
      | infinite c => cases c <;> cases hyz
      | finite c z =>
        rw [equal_finite] at hxy hyz ⊢
        exact hxy.trans hyz

/-- The integer part of a finite number with its sign, the fraction dropped. -/
def truncate (negative : Bool) (m : Magnitude) : Int :=
  if negative then -((m.quanta / one : Nat) : Int) else (m.quanta / one : Nat)

/-- Whether the number is a whole number. -/
def isIntegral : Binary64 → Bool
  | .finite _ m => m.quanta % one = 0
  | _ => false

/-- Whether the number is finite, at least `-2 ^ 63` and below `2 ^ 63`. -/
def fitsInt64 : Binary64 → Bool
  | .finite negative m =>
    -(2 ^ 63 * one : Nat) ≤ m.signed negative && m.signed negative < (2 ^ 63 * one : Nat)
  | _ => false

/-- The integer part, held within the signed 64-bit integers; zero for not-a-number. -/
def toInt64 : Binary64 → Int
  | .nan => 0
  | .infinite negative => if negative then -2 ^ 63 else 2 ^ 63 - 1
  | .finite negative m => max (-2 ^ 63) (min (2 ^ 63 - 1) (truncate negative m))

/-! ### Words -/

/-- The number that a word of 64 bits denotes: a sign, 11 bits of exponent, 52 of fraction. -/
def ofBits (word : UInt64) : Binary64 :=
  let w := word.toNat
  let negative : Bool := 2 ^ 63 ≤ w
  let exponent := w / 2 ^ 52 % 2 ^ 11
  let fraction := w % 2 ^ 52
  if exponent = 2047 then if fraction = 0 then .infinite negative else .nan
  else if exponent = 0 then ofQuotient negative fraction 1
  else ofQuotient negative ((2 ^ 52 + fraction) <<< (exponent - 1)) 1

/-- The word of a number without its sign: exponent and fraction. -/
def Magnitude.fields (m : Magnitude) : Nat :=
  if m.quanta < 2 ^ 52 then m.quanta
  else excess m.quanta * 2 ^ 52 + m.quanta >>> excess m.quanta

/-- The word of a number; `none` for not-a-number, which has many. -/
def toBits? : Binary64 → Option UInt64
  | .nan => none
  | .infinite negative => some (UInt64.ofNat (negative.toNat * 2 ^ 63 + 2047 * 2 ^ 52))
  | .finite negative m => some (UInt64.ofNat (negative.toNat * 2 ^ 63 + Magnitude.fields m))

end Binary64

end Treewalk
