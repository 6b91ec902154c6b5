import Treewalk.Eval.LoopBound
import Treewalk.Eval.Machine

/-!
# Loops

All loops give null. Only a body that is a block is under the control of its loop: a signal from
any other body passes the loop. Each loop has fuel for its runs.
-/

namespace Treewalk.Setting

variable {ω : Type}

/-- Runs a body while a condition holds. -/
def whileRuns (evaluate : Evaluator ω) (held : Held) (cond body : Node) (env : ScopeId) :
    (fuel : Nat) → Machine ω → Deferred (Answer ω)
  | 0, m => .done (.exhausted, m)
  | fuel + 1, m =>
    (evaluate held cond env m).thenValue fun v m =>
      if v.isTruthy then
        .seq (evaluate held body env m) fun (c, m) =>
          match c.bodyStatus body.isBlock with
          | .ok .broke => m.give .null
          | .ok _ => whileRuns evaluate held cond body env fuel m
          | .error c => .done (c, m)
      else m.give .null

/-- The value of an optional node, with a value in its place. -/
def evaluateOr (evaluate : Evaluator ω) (held : Held) (default : Value) (n : Option Node)
    (env : ScopeId) (m : Machine ω) : Deferred (Answer ω) :=
  match n with
  | none => m.give default
  | some n => evaluate held n env m

/-- Runs a body and an update while a condition holds; without a condition, until the loop is
left. -/
def forRuns (evaluate : Evaluator ω) (held : Held) (cond update : Option Node) (body : Node)
    (s : ScopeId) : (fuel : Nat) → Machine ω → Deferred (Answer ω)
  | 0, m => .done (.exhausted, m)
  | fuel + 1, m =>
    (evaluateOr evaluate held (.bool true) cond s m).thenValue fun v m =>
      if v.isTruthy then
        .seq (evaluate held body s m) fun (c, m) =>
          match c.bodyStatus body.isBlock with
          | .ok .broke => m.give .null
          | .ok _ =>
            (evaluateOr evaluate held .null update s m).thenValue fun _ m =>
              forRuns evaluate held cond update body s fuel m
          | .error c => .done (c, m)
      else m.give .null

/-- A loop with its header in a scope around all runs. -/
def forLoop (S : Setting ω) (evaluate : Evaluator ω) (fuel : Nat) (held : Held)
    (init cond update : Option Node) (body : Node) (env : ScopeId) (m : Machine ω) :
    Deferred (Answer ω) :=
  S.within held env m fun s m =>
    let held := held.scope s
    (evaluateOr evaluate held .null init s m).thenValue fun _ m =>
      forRuns evaluate held cond update body s fuel m

/-- One run of a counted loop: the body in a new scope that holds the counter. -/
def countedRun (S : Setting ω) (evaluate : Evaluator ω) (held : Held) (counter : String)
    (body : Node) (env : ScopeId) (index : Nat) (m : Machine ω) : Deferred (Answer ω) :=
  S.within held env m fun s m =>
    match m.store.declare s counter (.int index) false with
    | .error cause => m.fail cause
    | .ok (_, σ) =>
      (evaluate (held.scope s) body s (m.withStore σ)).map fun (c, m) => (c.dropValue, m)

/-- Runs a body for the indices that a bound allows, from an index on. -/
def countedRuns (S : Setting ω) (evaluate : Evaluator ω) (held : Held) (bound : LoopBound)
    (counter : String) (body : Node) (env : ScopeId) :
    (fuel : Nat) → (index : Nat) → Machine ω → Deferred (Answer ω)
  | 0, _, m => .done (.exhausted, m)
  | fuel + 1, index, m =>
    if bound.allows index then
      .seq (S.countedRun evaluate held counter body env index m) fun (c, m) =>
        match c.bodyStatus body.isBlock with
        | .ok .broke => m.give .null
        | .ok _ => countedRuns S evaluate held bound counter body env fuel (index + 1) m
        | .error c => .done (c, m)
    else m.give .null

/-- A loop with a bound, which is evaluated once. -/
def countedLoop (S : Setting ω) (evaluate : Evaluator ω) (fuel : Nat) (held : Held)
    (bound : Node) (counter : Option String) (body : Node) (env : ScopeId) (m : Machine ω) :
    Deferred (Answer ω) :=
  (evaluate held bound env m).thenValue fun v m =>
    match LoopBound.ofValue v with
    | .error cause => m.fail cause
    | .ok bound =>
      S.countedRuns evaluate held bound (counter.getD S.config.loopVariable) body env fuel 0 m

end Treewalk.Setting
