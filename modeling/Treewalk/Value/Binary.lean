import Treewalk.Error
import Treewalk.Numeral

/-!
# Binary operators on values

Both operands are values already. The logical operators look at truthiness and never fail. The
others go by the types of the operands: two numbers, or a number and a boolean, are computed with;
with a string only `+` and equality are defined; all but equality of two nulls is false; every
other pair is refused.

A remainder is taken of the integer parts. The check for a zero divisor looks at the number itself,
so a divisor between minus one and one that goes without the tag passes it, and the remainder by
zero that is left then has no result: it is a panic. `panics` says when, and `apply` is of no
account there.
-/

namespace Treewalk

namespace BinaryOperator

/-- The logical operators; any operator but `&&` counts as `||`. -/
def logical (op : BinaryOperator) (a b : Bool) : Bool :=
  match op with
  | .and => a && b
  | _ => a || b

/-- The operators on numbers. A remainder of floats is refused before a zero divisor is. Where
`numericPanics` holds there is no result, and what this gives is never looked at. -/
def numeric (op : BinaryOperator) (a b : Number) : Except ErrorCause Value :=
  match op with
  | .add => .ok (.number (.arithmetic (a.raw.add b.raw) a b))
  | .sub => .ok (.number (.arithmetic (a.raw.sub b.raw) a b))
  | .mul => .ok (.number (.arithmetic (a.raw.mul b.raw) a b))
  | .div =>
    if b.isZero then .error .divisionByZero
    else .ok (.number (.arithmetic (a.raw.div b.raw) a b))
  | .mod =>
    if a.isFloat || b.isFloat then .error (.typeError .modulusOfFloat)
    else if b.isZero then .error .divisionByZero
    else .ok (.number (.int (a.toInt.tmod b.toInt)))
  | .eq => .ok (.bool (a.raw.equal b.raw))
  | .strictEq => .ok (.bool (a.raw.equal b.raw && a.isFloat == b.isFloat))
  | .lt => .ok (.bool (a.raw.less b.raw))
  | .le => .ok (.bool (a.raw.lessEqual b.raw))
  | .gt => .ok (.bool (b.raw.less a.raw))
  | .ge => .ok (.bool (b.raw.lessEqual a.raw))
  | .and | .or => .ok (.bool (op.logical a.isOne b.isOne))

/-- Whether an operator on numbers panics: a remainder whose divisor is not zero, but has the
integer part zero. -/
def numericPanics (op : BinaryOperator) (a b : Number) : Bool :=
  op == .mod && !(a.isFloat || b.isFloat) && !b.isZero && b.toInt == 0

/-- Whether a string is a numeral for a number. -/
def denotes (s : String) (n : Number) : Bool :=
  (Numeral.parse? s).any fun m => m.raw.equal n.raw

/-- The operators on two values of which one is a string. -/
def withString (op : BinaryOperator) (left right : Value) : Except ErrorCause Value :=
  match op, left, right with
  | .add, .string a, .string b => .ok (.string (a ++ b))
  | .add, .string s, .number n => .ok (.string (s ++ n.text))
  | .add, .number n, .string s => .ok (.string (n.text ++ s))
  | .eq, .string a, .string b => .ok (.bool (a == b))
  | .eq, .string s, .number n => .ok (.bool (denotes s n))
  | .eq, .number n, .string s => .ok (.bool (denotes s n))
  | .strictEq, .string a, .string b => .ok (.bool (a == b))
  | .strictEq, _, _ => .ok (.bool false)
  | _, _, _ => .error (.invalidOperands op left.type right.type)

/-- The operators that go by the types of their operands. -/
def byType (op : BinaryOperator) (left right : Value) : Except ErrorCause Value :=
  match left, right with
  | .number a, .number b => op.numeric a b
  | .number a, .bool b => op.numeric a (.ofBool b)
  | .bool a, .number b => op.numeric (.ofBool a) b
  | .string _, _ => op.withString left right
  | _, .string _ => op.withString left right
  | .null, .null => .ok (.bool op.isEquality)
  | _, _ => .error (.invalidOperands op left.type right.type)

/-- The value of an operator on two values. -/
def apply (op : BinaryOperator) (left right : Value) : Except ErrorCause Value :=
  if op.isLogical then .ok (.bool (op.logical left.isTruthy right.isTruthy))
  else op.byType left right

/-- Whether an operator on two values panics. -/
def panics (op : BinaryOperator) (left right : Value) : Bool :=
  match left, right with
  | .number a, .number b => op.numericPanics a b
  | .number a, .bool b => op.numericPanics a (.ofBool b)
  | .bool a, .number b => op.numericPanics (.ofBool a) b
  | _, _ => false

/-- Operands that make an operator panic are numbers, or booleans that stand for numbers. -/
theorem numbers_of_panics {op : BinaryOperator} {left right : Value}
    (h : op.panics left right = true) :
    ∃ a b, left.number? = some a ∧ right.number? = some b ∧ op.numericPanics a b = true := by
  unfold panics at h
  split at h
  · exact ⟨_, _, rfl, rfl, h⟩
  · exact ⟨_, _, rfl, rfl, h⟩
  · exact ⟨_, _, rfl, rfl, h⟩
  · cases h

theorem apply_of_isLogical {op : BinaryOperator} (h : op.isLogical) (left right : Value) :
    op.apply left right = .ok (.bool (op.logical left.isTruthy right.isTruthy)) := by
  rw [apply, if_pos h]

end BinaryOperator

end Treewalk
