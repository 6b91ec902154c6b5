import Treewalk.Number
import Treewalk.Syntax.Node
import Treewalk.Table.Basic

/-!
# Values

What programs compute with. Values never change: an object is a table fixed when it is made, and
assigning to a variable replaces its value. Objects and native functions carry an identity, which
tells how many owners an object has and whether two natives are the same one. A function value
pairs code with the scope that it was declared in.
-/

namespace Treewalk

/-- The identity of a scope. -/
structure ScopeId where
  index : Nat
  deriving DecidableEq, Repr

/-- The identity of an object. -/
structure ObjectId where
  index : Nat
  deriving DecidableEq, Repr

/-- A function that the host supplies, known to it by its number. -/
structure NativeFunction where
  number : Nat
  name : String
  deriving DecidableEq, Repr

/-- A function of the program: a name, code, and the scope that the code can see. -/
structure Closure where
  name : String
  code : Code
  scope : ScopeId

/-- A name bound to a content, which a constant keeps. -/
structure BindingOf (α : Type) where
  name : String
  isConst : Bool
  value : α

/-- A value. -/
inductive Value where
  | number (n : Number)
  | bool (b : Bool)
  | null
  | string (s : String)
  | object (id : ObjectId) (properties : Table (BindingOf Value))
  | native (f : NativeFunction)
  | function (f : Closure)

/-- A name bound to a value. -/
abbrev Binding := BindingOf Value

/-- The types that programs can tell apart. -/
inductive ValueType where
  | number | boolean | null | string | object | native | function
  deriving DecidableEq, Repr

/-- What messages call a type. -/
def ValueType.name : ValueType → String
  | .number => "number"
  | .boolean => "boolean"
  | .null => "null"
  | .string => "string"
  | .object => "object"
  | .native => "native function"
  | .function => "function"

/-- The number of parameters. -/
def Closure.arity (f : Closure) : Nat := f.code.params.length

/-- Functions are equal when they share their name, code and scope. -/
def Closure.same (f g : Closure) : Bool :=
  f.name == g.name && f.code.label == g.code.label && f.scope == g.scope

/-- The same binding with another value. -/
def BindingOf.withValue {α β : Type} (b : BindingOf α) (value : β) : BindingOf β :=
  ⟨b.name, b.isConst, value⟩

namespace Value

/-- An integer. -/
def int (i : Int) : Value := .number (.int i)

/-- The type of a value. -/
def type : Value → ValueType
  | number _ => .number
  | bool _ => .boolean
  | null => .null
  | string _ => .string
  | object .. => .object
  | native _ => .native
  | function _ => .function

/-- Whether a condition holds. A number holds only if it is one; other values hold, except null
and false. -/
def isTruthy : Value → Bool
  | null => false
  | number n => n.isOne
  | bool b => b
  | _ => true

/-- The number that arithmetic takes a value for: booleans count as zero and one. -/
def number? : Value → Option Number
  | number n => some n
  | bool b => some (.ofBool b)
  | _ => none

/-- The text of a string. -/
def string? : Value → Option String
  | string s => some s
  | _ => none

@[simp] theorem isTruthy_bool (b : Bool) : (bool b).isTruthy = b := rfl

@[simp] theorem number?_number (n : Number) : (number n).number? = some n := rfl

@[simp] theorem string?_string (s : String) : (string s).string? = some s := rfl

theorem eq_number {v : Value} (h : v.type = .number) : ∃ n, v = .number n := by
  cases v with
  | number n => exact ⟨n, rfl⟩
  | _ => cases h

theorem eq_string {v : Value} (h : v.type = .string) : ∃ s, v = .string s := by
  cases v with
  | string s => exact ⟨s, rfl⟩
  | _ => cases h

theorem eq_null {v : Value} (h : v.type = .null) : v = .null := by
  cases v with
  | null => rfl
  | _ => cases h

end Value

end Treewalk
