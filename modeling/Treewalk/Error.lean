import Treewalk.Value.Basic

/-!
# Errors

Every error ends the evaluation. An error has a cause, and a line once a node has been found that
raised it. The words of all messages are in `TypeFault.message` and `ErrorCause.message`.

Main statement: `line_atLine`, the first line stays.
-/

namespace Treewalk

/-- What a value of the wrong type was used for. -/
inductive TypeFault where
  | modulusOfFloat
  | unaryOperand (op : UnaryOperator) (type : ValueType)
  | propertyAccess (key : String) (type : ValueType)
  | computedKey (type : ValueType)
  /-- A loop bound that is a float, or neither a number nor a boolean. -/
  | loopBound (type : ValueType)
  /-- A fault that a host words itself. -/
  | worded (message : String)
  deriving DecidableEq, Repr

/-- Why an evaluation failed. -/
inductive ErrorCause where
  | undefinedIdentifier (name : String)
  | constReassignment (name : String)
  | invalidAssignmentTarget (target : String)
  | typeError (fault : TypeFault)
  | divisionByZero
  | arityMismatch (name : String) (expected got : Nat)
  | notCallable (type : ValueType)
  | undefinedProperty (property : String)
  | invalidLvalue (op : UnaryOperator)
  | invalidBound (bound : Int)
  | tableOverflow (capacity : Nat)
  | unsupportedNode (node : String)
  | invalidOperands (op : BinaryOperator) (left right : ValueType)
  | stackOverflow (limit : Nat)
  /-- A failure that a native function reports. -/
  | native (message : String)
  deriving DecidableEq, Repr

/-- A cause with the line where it arose. -/
structure EvalError where
  cause : ErrorCause
  line : Option UInt32
  deriving DecidableEq, Repr

/-- The words for a fault. -/
def TypeFault.message : TypeFault → String
  | .modulusOfFloat => "modulus operator requires integer operands, float given"
  | .unaryOperand op type =>
    "unary \x60" ++ op.symbol ++ "\x60 requires a number, got " ++ type.name
  | .propertyAccess key type => "cannot access property '" ++ key ++ "' of " ++ type.name
  | .computedKey type => "computed property key must be a string, got " ++ type.name
  | .loopBound type =>
    "loop bound must be an integer or a boolean, got " ++
      (if type = .number then "a float" else type.name)
  | .worded message => message

/-- The words for a cause. -/
def ErrorCause.message : ErrorCause → String
  | undefinedIdentifier name => "undefined identifier '" ++ name ++ "'"
  | constReassignment name => "cannot re-assign a value to constant '" ++ name ++ "'"
  | invalidAssignmentTarget target =>
    "cannot assign a value to a non-modifiable expression (" ++ target ++ ")"
  | typeError fault => "type error: " ++ fault.message
  | divisionByZero => "result of division by zero is undefined"
  | arityMismatch name expected got =>
    "function '" ++ name ++ "' expects " ++ toString expected ++ " argument(s), got " ++
      toString got
  | notCallable type => type.name ++ " is not callable"
  | undefinedProperty property => "undefined property '" ++ property ++ "'"
  | invalidLvalue op => "operand of \x60" ++ op.symbol ++ "\x60 must be an identifier"
  | invalidBound bound => "loop bound must not be negative, got " ++ toString bound
  | tableOverflow capacity =>
    "binding table overflow: capacity of " ++ toString capacity ++ " entries exceeded"
  | unsupportedNode node => "this AST node is not supported: " ++ node
  | invalidOperands op left right =>
    "invalid operands to \x60" ++ op.symbol ++ "\x60: " ++ left.name ++ " and " ++ right.name
  | stackOverflow limit => "maximum call depth exceeded (limit: " ++ toString limit ++ ")"
  | native message => message

namespace EvalError

/-- An error that has no line yet. -/
def ofCause (cause : ErrorCause) : EvalError := ⟨cause, none⟩

/-- The error with a line, unless it has one. -/
def atLine (e : EvalError) (line : UInt32) : EvalError := { e with line := e.line.or (some line) }

/-- The words for the error without its line. -/
def message (e : EvalError) : String := e.cause.message

/-- The words for the error, with its line if it has one. -/
def text (e : EvalError) : String :=
  match e.line with
  | some line => e.message ++ " at line " ++ toString line
  | none => e.message

@[simp] theorem cause_atLine (e : EvalError) (line : UInt32) :
    (e.atLine line).cause = e.cause := rfl

/-- The first line stays. -/
@[simp] theorem line_atLine (e : EvalError) (line : UInt32) :
    (e.atLine line).line = some (e.line.getD line) := by
  cases h : e.line <;> simp [atLine, h]

@[simp] theorem atLine_atLine (e : EvalError) (line line' : UInt32) :
    (e.atLine line).atLine line' = e.atLine line := by
  cases h : e.line <;> simp [atLine, h]

end EvalError

end Treewalk
