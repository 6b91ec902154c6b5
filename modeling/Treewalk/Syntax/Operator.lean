/-!
# Operators

The binary and unary operators of the language, with the symbols that programs and messages use.
-/

namespace Treewalk

/-- The binary operators: arithmetic, logical, comparison. -/
inductive BinaryOperator where
  | add | sub | mul | div | mod
  | and | or
  | eq | strictEq | lt | le | gt | ge
  deriving DecidableEq, Repr

/-- The unary operators. The last four update a variable and give its new or its old value. -/
inductive UnaryOperator where
  | not | plus | neg
  | preIncrement | preDecrement | postIncrement | postDecrement
  deriving DecidableEq, Repr

namespace BinaryOperator

/-- All binary operators. -/
def all : List BinaryOperator :=
  [.add, .sub, .mul, .div, .mod, .and, .or, .eq, .strictEq, .lt, .le, .gt, .ge]

/-- How a program writes the operator. -/
def symbol : BinaryOperator → String
  | .add => "+" | .sub => "-" | .mul => "*" | .div => "/" | .mod => "%"
  | .and => "&&" | .or => "||"
  | .eq => "==" | .strictEq => "===" | .lt => "<" | .le => "<=" | .gt => ">" | .ge => ">="

/-- The operator's name in the text of a tree. -/
def name : BinaryOperator → String
  | .add => "Add" | .sub => "Sub" | .mul => "Mul" | .div => "Div" | .mod => "Mod"
  | .and => "And" | .or => "Or"
  | .eq => "Eq" | .strictEq => "StrictEq"
  | .lt => "Lt" | .le => "LtEq" | .gt => "Gt" | .ge => "GtEq"

/-- The operator that a program writes with this symbol. -/
def ofSymbol? (s : String) : Option BinaryOperator := all.find? (·.symbol = s)

/-- Whether the operator is `==` or `===`. -/
def isEquality : BinaryOperator → Bool
  | .eq | .strictEq => true
  | _ => false

/-- Whether the operator is `&&` or `||`. -/
def isLogical : BinaryOperator → Bool
  | .and | .or => true
  | _ => false

@[simp] theorem ofSymbol?_symbol (op : BinaryOperator) : ofSymbol? op.symbol = some op := by
  cases op <;> decide

end BinaryOperator

namespace UnaryOperator

/-- How a program writes the operator; increments and decrements are written alike on either
side. -/
def symbol : UnaryOperator → String
  | .not => "!" | .plus => "+" | .neg => "-"
  | .preIncrement | .postIncrement => "++"
  | .preDecrement | .postDecrement => "--"

/-- The operator's name in the text of a tree. -/
def name : UnaryOperator → String
  | .not => "Not" | .plus => "Plus" | .neg => "Neg"
  | .preIncrement => "PreIncrement" | .preDecrement => "PreDecrement"
  | .postIncrement => "PostIncrement" | .postDecrement => "PostDecrement"

/-- Whether the operator updates a variable. -/
def isUpdate : UnaryOperator → Bool
  | .preIncrement | .preDecrement | .postIncrement | .postDecrement => true
  | _ => false

/-- Whether the operator gives the updated value. -/
def isPrefixUpdate : UnaryOperator → Bool
  | .preIncrement | .preDecrement => true
  | _ => false

end UnaryOperator

end Treewalk
