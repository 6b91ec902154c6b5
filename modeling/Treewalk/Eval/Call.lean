import Treewalk.Eval.Machine

/-!
# Calls

A call of a function of the program runs its body in a new scope below the scope that the function
was declared in, with a constant for each parameter. Arguments and results are copied. The checks
come in this order: the number of arguments, the depth of calls, room for the parameters.
-/

namespace Treewalk

/-- The mismatch between a function and a number of arguments, if there is one. -/
def Closure.arityFault? (f : Closure) (count : Nat) : Option ErrorCause :=
  if count = f.arity then none else some (.arityMismatch f.name f.arity count)

/-- Binds parameters to copies of their arguments, in order, until one does not fit. -/
def Store.bindParameters (σ : Store) (s : ScopeId) :
    List (String × Value) → Store × Option ErrorCause
  | [] => (σ, none)
  | (param, arg) :: rest =>
    let (arg, σ) := σ.copy arg
    match σ.declare s param arg true with
    | .ok (_, σ) => σ.bindParameters s rest
    | .error cause => (σ, some cause)

namespace Setting

variable {ω : Type}

/-- Runs the statements of a function's body. A result ends the call as a copy; a signal for a
loop is dropped. -/
def runBody (evaluate : Evaluator ω) (held : Held) (s : ScopeId) :
    List Node → Machine ω → Deferred (Answer ω)
  | [], m => m.give .null
  | n :: rest, m =>
    .seq (evaluate held n s m) fun (c, m) =>
      match c.discardLoopSignal with
      | .value _ => runBody evaluate held s rest m
      | .returned v =>
        let (v, σ) := m.store.copy v
        (m.withStore σ).give v
      | c => .done (c, m)

/-- Runs a function's body as one more call in progress. -/
def runCall (evaluate : Evaluator ω) (held : Held) (s : ScopeId) (body : List Node)
    (m : Machine ω) : Deferred (Answer ω) :=
  (runBody evaluate held s body { m with callDepth := m.callDepth + 1 }).map
    fun (c, m) => (c, { m with callDepth := m.callDepth - 1 })

/-- Calls a function of the program. -/
def callClosure (S : Setting ω) (evaluate : Evaluator ω) (held : Held) (f : Closure)
    (args : List Value) (m : Machine ω) : Deferred (Answer ω) :=
  match f.arityFault? args.length with
  | some cause => m.fail cause
  | none =>
    if S.config.maxCallDepth ≤ m.callDepth then m.fail (.stackOverflow S.config.maxCallDepth)
    else
      S.within held f.scope m fun s m =>
        match m.store.bindParameters s (f.code.params.zip args) with
        | (σ, some cause) => (m.withStore σ).fail cause
        | (σ, none) => runCall evaluate (held.scope s) s f.code.body (m.withStore σ)

/-- Calls a native function, which sees the scope of the call. -/
def callNative (S : Setting ω) (f : NativeFunction) (args : List Value) (env : ScopeId)
    (m : Machine ω) : Deferred (Answer ω) :=
  let (r, σ, world) := S.host.call f args env m.store m.world
  let c : Completion :=
    match r with
    | .ok v => .value v
    | .error e => .failed e
  .done (c, { m with store := σ, world := world })

/-- Calls a value. -/
def callValue (S : Setting ω) (evaluate : Evaluator ω) (held : Held) (callee : Value)
    (args : List Value) (env : ScopeId) (m : Machine ω) : Deferred (Answer ω) :=
  match callee with
  | .native f => S.callNative f args env m
  | .function f => S.callClosure evaluate held f args m
  | v => m.fail (.notCallable v.type)

end Setting

end Treewalk
