import Treewalk.Error

/-!
# Completions

How the evaluation of a node ends: with a value, with a control signal that a loop or a call will
take, with an error, with a panic, or without an end because the fuel ran out. Signals and errors
leave every node that does not take them. Nothing takes a panic: it ends all that is going on, the
host with it.
-/

namespace Treewalk

/-- How an evaluation ends. -/
inductive Completion where
  | value (v : Value)
  | broke
  | continued
  | returned (v : Value)
  | failed (e : EvalError)
  | panicked
  | exhausted

/-- How a run of a loop's body ends, if the loop goes on from there. -/
inductive LoopStatus where
  | finished
  | broke
  | continued
  deriving DecidableEq, Repr

namespace Completion

/-- The failure with a cause, which has no line yet. -/
def fail (cause : ErrorCause) : Completion := failed (.ofCause cause)

/-- The completion with a value or with a cause of failure. -/
def ofExcept : Except ErrorCause Value → Completion
  | .ok v => value v
  | .error cause => fail cause

/-- The completion with a line for an error that has none. -/
def atLine (line : UInt32) : Completion → Completion
  | failed e => failed (e.atLine line)
  | c => c

/-- Whether this is a signal for a loop. -/
def isLoopSignal : Completion → Bool
  | broke | continued => true
  | _ => false

/-- Null in place of a signal that no loop took. -/
def discardLoopSignal : Completion → Completion
  | broke | continued => value .null
  | c => c

/-- Null in place of a value that is not wanted. -/
def dropValue : Completion → Completion
  | value _ => value .null
  | c => c

/-- Takes the signals for a loop; what the loop does not take goes on outward. -/
def loopStatus : Completion → Except Completion LoopStatus
  | value _ => .ok .finished
  | broke => .ok .broke
  | continued => .ok .continued
  | c => .error c

/-- Only the body that is a block is under its loop's control. -/
def bodyStatus (isBlock : Bool) (c : Completion) : Except Completion LoopStatus :=
  if isBlock then c.loopStatus
  else
    match c with
    | value _ => .ok .finished
    | c => .error c

/-- The values that a completion carries. -/
def values : Completion → List Value
  | value v | returned v => [v]
  | _ => []

@[simp] theorem atLine_value (line : UInt32) (v : Value) : (value v).atLine line = value v := rfl

theorem eq_value_of_atLine {c : Completion} {line : UInt32} {v : Value}
    (h : c.atLine line = value v) : c = value v := by
  cases c with
  | failed e => cases h
  | _ => exact h

@[simp] theorem isLoopSignal_discardLoopSignal (c : Completion) :
    c.discardLoopSignal.isLoopSignal = false := by
  cases c <;> rfl

@[simp] theorem atLine_atLine (c : Completion) (line line' : UInt32) :
    (c.atLine line).atLine line' = c.atLine line := by
  cases c <;> simp [atLine]

end Completion

end Treewalk
