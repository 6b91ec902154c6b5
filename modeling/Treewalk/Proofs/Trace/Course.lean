import Treewalk.Proofs.Trace.Basic

/-!
# The course of an evaluation

How an evaluation goes from the machine before it to its answer, with what happened on the way:
steps of its own, which change the store only; parts and natives, one after the other as long as
none of them fails; scopes left; calls. `Setting.Course` are these rules. What holds of evaluations
whatever values they compute with follows from them by induction.

An error of a step of a node's own has no line yet, and some causes arise in calls only:
`Completion.IsOwn`. That operators and look-ups have none of these causes is proved here, that all
evaluations go by the rules in `Treewalk.Proofs.Trace.Exec`.
-/

namespace Treewalk

/-- Whether a cause arises only where a value is called. -/
def ErrorCause.isOfCall : ErrorCause → Bool
  | arityMismatch .. | notCallable _ | stackOverflow _ => true
  | _ => false

/-- Whether a node is a call. -/
def NodeKind.isCall : NodeKind → Bool
  | call .. => true
  | _ => false

/-! ## Causes that do not arise in calls -/

theorem UnaryOperator.isOfCall_of_apply {op : UnaryOperator} {v : Value} {cause : ErrorCause}
    (h : op.apply v = .error cause) : cause.isOfCall = false := by
  cases op <;> cases v <;> simp only [apply] at h <;> cases h <;> rfl

theorem BinaryOperator.isOfCall_of_numeric {op : BinaryOperator} {a b : Number}
    {cause : ErrorCause} (h : op.numeric a b = .error cause) : cause.isOfCall = false := by
  cases op <;> simp only [numeric] at h <;> (try split at h) <;> (try split at h) <;> cases h <;>
    rfl

theorem BinaryOperator.isOfCall_of_withString {op : BinaryOperator} {l r : Value}
    {cause : ErrorCause} (h : op.withString l r = .error cause) : cause.isOfCall = false := by
  unfold withString at h
  split at h <;> cases h
  rfl

theorem BinaryOperator.isOfCall_of_apply {op : BinaryOperator} {l r : Value} {cause : ErrorCause}
    (h : op.apply l r = .error cause) : cause.isOfCall = false := by
  rw [apply] at h
  split at h
  · cases h
  · unfold byType at h
    split at h
    · exact isOfCall_of_numeric h
    · exact isOfCall_of_numeric h
    · exact isOfCall_of_numeric h
    · exact isOfCall_of_withString h
    · exact isOfCall_of_withString h
    · cases h
    · cases h
      rfl

theorem Value.isOfCall_of_property {v : Value} {key : String} {cause : ErrorCause}
    (h : v.property key = .error cause) : cause.isOfCall = false := by
  unfold property at h
  split at h
  · split at h <;> cases h
    rfl
  · cases h
    rfl

theorem Value.isOfCall_of_asKey {v : Value} {cause : ErrorCause}
    (h : v.asKey = .error cause) : cause.isOfCall = false := by
  unfold asKey at h
  split at h <;> cases h
  rfl

theorem LoopBound.isOfCall_of_ofValue {v : Value} {cause : ErrorCause}
    (h : ofValue v = .error cause) : cause.isOfCall = false := by
  unfold ofValue at h
  split at h
  · cases h
  · cases h
  · split at h
    · cases h
      rfl
    · split at h <;> cases h
      rfl
  · cases h
    rfl

theorem Store.isOfCall_of_lookup {σ : Store} {s : ScopeId} {name : String} {cause : ErrorCause}
    (h : σ.lookup s name = .error cause) : cause.isOfCall = false := by
  unfold lookup at h
  split at h <;> cases h
  rfl

theorem AssignFault.isOfCall_cause (fault : AssignFault) (name : String) :
    (fault.cause name).isOfCall = false := by
  cases fault <;> rfl

/-! ## Courses -/

namespace Completion

/-- The error of a failure. -/
def error? : Completion → Option EvalError
  | failed e => some e
  | _ => none

theorem eq_failed_of_error? {c : Completion} {e : EvalError} (h : c.error? = some e) :
    c = .failed e := by
  cases c <;> cases h
  rfl

/-- What a loop takes for a finished run is a value. -/
theorem exists_eq_value {c : Completion} (h : c.loopStatus.toOption = some .finished) :
    ∃ v, c = .value v := by
  cases c with
  | value v => exact ⟨v, rfl⟩
  | _ => cases h

/-- The completion with the result of a native. -/
def ofResult : Except EvalError Value → Completion
  | .ok v => value v
  | .error e => failed e

/-- Whether a node can end so by a step of its own: an error has no line yet. -/
def IsOwn (isCall : Bool) : Completion → Prop
  | failed e => e.line = none ∧ (e.cause.isOfCall = true → isCall = true)
  | _ => True

end Completion

namespace Setting

variable {ω : Type}

/-- The course of an evaluation of a node, a call or not, inside a number of bodies. -/
inductive Course (S : Setting ω) :
    Bool → Nat → Machine ω → List (Trace ω) → Answer ω → Prop
  /-- A step of the node's own. -/
  | own {isCall : Bool} {depth : Nat} {m : Machine ω} {c : Completion} (hc : c.IsOwn isCall)
    (σ : Store) : Course S isCall depth m [] (c, m.withStore σ)
  /-- What happened so far did not fail, and the evaluation goes on. -/
  | andThen {isCall : Bool} {depth : Nat} {m m' : Machine ω} {ts us : List (Trace ω)}
    {c : Completion} {a : Answer ω} (h : Course S isCall depth m ts (c, m'))
    (hc : c.error? = none) (h' : Course S isCall depth m' us a) :
    Course S isCall depth m (ts ++ us) a
  /-- A scope is left. -/
  | leave {isCall : Bool} {depth : Nat} {m m' : Machine ω} {ts : List (Trace ω)} {c : Completion}
    (h : Course S isCall depth m ts (c, m')) (outside : List Held) (s : ScopeId) :
    Course S isCall depth m ts (c, m'.withStore (S.leave outside s m'.store))
  /-- The body of a function is run, as one more call in progress. -/
  | call {isCall : Bool} {depth : Nat} {m m' : Machine ω} {ts : List (Trace ω)} {c : Completion}
    (hd : m.callDepth < S.config.maxCallDepth)
    (h : Course S isCall (depth + 1) { m with callDepth := m.callDepth + 1 } ts (c, m')) :
    Course S isCall depth m ts (c, { m' with callDepth := m'.callDepth - 1 })
  /-- A native is called. -/
  | native {depth : Nat} {m : Machine ω} {f : NativeFunction} {args : List Value} {env : ScopeId}
    {r : Except EvalError Value} {σ : Store} {w : ω}
    (h : S.host.call f args env m.store m.world = (r, σ, w)) :
    Course S true depth m [.native f r σ w] (.ofResult r, { m with store := σ, world := w })
  /-- A part is evaluated: an evaluation with a course of its own. -/
  | node {isCall : Bool} {fuel depth : Nat} {held : Held} {n : Node} {env : ScopeId}
    {m m' : Machine ω} {ts : List (Trace ω)} {c : Completion}
    (h : Course S n.kind.isCall depth { m with line := n.line } ts (c, m'))
    (he : (S.exec fuel held n env m).value = (c.atLine n.line, m')) :
    Course S isCall depth m [.node n depth env m ts (c.atLine n.line, m')] (c.atLine n.line, m')

end Setting

end Treewalk
