import Treewalk.Error

/-!
# Unary operators on values

Negation as a truth value takes any value, the other operators numbers only. For an update this
gives the new value; writing it back is not done here.
-/

namespace Treewalk.UnaryOperator

/-- The value of an operator on a value; for an update, the stepped number. -/
def apply (op : UnaryOperator) (v : Value) : Except ErrorCause Value :=
  match op, v with
  | .not, v => .ok (.bool !v.isTruthy)
  | .plus, .number n => .ok (.number n)
  | .neg, .number n => .ok (.number n.negate)
  | .preIncrement, .number n => .ok (.number (n.step 1))
  | .postIncrement, .number n => .ok (.number (n.step 1))
  | .preDecrement, .number n => .ok (.number (n.step (-1)))
  | .postDecrement, .number n => .ok (.number (n.step (-1)))
  | op, v => .error (.typeError (.unaryOperand op v.type))

end Treewalk.UnaryOperator
