import Treewalk.Error

/-!
# Properties of values

Only objects have properties. A key that a program computes has to be a string.
-/

namespace Treewalk.Value

/-- The value of a property. -/
def property (v : Value) (key : String) : Except ErrorCause Value :=
  match v with
  | .object _ properties =>
    match properties.get? key with
    | some b => .ok b.value
    | none => .error (.undefinedProperty key)
  | other => .error (.typeError (.propertyAccess key other.type))

/-- The key that a computed value stands for. -/
def asKey (v : Value) : Except ErrorCause String :=
  match v with
  | .string s => .ok s
  | other => .error (.typeError (.computedKey other.type))

end Treewalk.Value
