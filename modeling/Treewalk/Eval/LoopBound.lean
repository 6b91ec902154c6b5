import Treewalk.Error

/-!
# Loop bounds

The bound of a counted loop is an integer that is not negative, or a boolean: true for a loop
without end, false for none at all.
-/

namespace Treewalk

/-- How often a counted loop runs. -/
inductive LoopBound where
  | unbounded
  | times (count : Nat)
  deriving DecidableEq, Repr

namespace LoopBound

/-- Whether the run with an index, counted from zero, takes place. -/
def allows (b : LoopBound) (index : Int) : Bool :=
  match b with
  | unbounded => true
  | times count => index < count

/-- The bound that a value stands for. -/
def ofValue : Value → Except ErrorCause LoopBound
  | .bool true => .ok unbounded
  | .bool false => .ok (times 0)
  | .number n =>
    if n.isFloat then .error (.typeError (.loopBound .number))
    else if n.toInt < 0 then .error (.invalidBound n.toInt)
    else .ok (times n.toInt.toNat)
  | v => .error (.typeError (.loopBound v.type))

@[simp] theorem allows_times (count : Nat) (index : Nat) :
    (times count).allows index = decide (index < count) := by
  simp [allows]

end LoopBound

end Treewalk
