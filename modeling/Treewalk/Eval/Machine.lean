import Treewalk.Config
import Treewalk.Eval.Completion
import Treewalk.Eval.Deferred
import Treewalk.Scope.Leaving

/-!
# The machine of an evaluation

An evaluation changes a machine: the store of scopes, the line of the node entered last, the number
of calls in progress and the world of the host. What stays fixed is the setting: the limits, the
host's functions, and what happens when a scope is left.

* `thenValue` goes on with the value of an evaluation and lets every other completion pass.
* `within` evaluates in a new scope and leaves the scope at the end, however it ends.
-/

namespace Treewalk

/-- What a host supplies: the functions that programs can call by natives, and the handles that
its world holds. -/
structure Host (ω : Type) where
  call : NativeFunction → List Value → ScopeId → Store → ω → Except EvalError Value × Store × ω
  held : ω → Held

/-- What stays fixed during an evaluation. -/
structure Setting (ω : Type) where
  config : Config
  host : Host ω
  /-- How a scope is left, given the handles held outside the store. -/
  leave : List Held → ScopeId → Store → Store

/-- The setting in which a scope that is left is discarded if nothing else can reach it. -/
def Setting.releasing {ω : Type} (config : Config) (host : Host ω) : Setting ω :=
  ⟨config, host, fun outside s σ => σ.leave outside s⟩

/-- What an evaluation changes. -/
structure Machine (ω : Type) where
  store : Store
  /-- The line of the node entered last. -/
  line : UInt32
  /-- The calls of functions in progress. -/
  callDepth : Nat
  world : ω

/-- A completion with the machine after it. -/
abbrev Answer (ω : Type) := Completion × Machine ω

/-- Evaluates a node in a scope, given the handles of the host and of the evaluations around it. -/
abbrev Evaluator (ω : Type) :=
  Held → Node → ScopeId → Machine ω → Deferred (Answer ω)

namespace Machine

variable {ω : Type}

/-- The machine with another store. -/
@[inline] def withStore (m : Machine ω) (σ : Store) : Machine ω := { m with store := σ }

/-- Ends with a value. -/
@[inline] def give (m : Machine ω) (v : Value) : Deferred (Answer ω) := .done (.value v, m)

/-- Ends with the failure of a cause. -/
@[inline] def fail (m : Machine ω) (cause : ErrorCause) : Deferred (Answer ω) :=
  .done (.fail cause, m)

/-- Ends with a value or the failure of a cause. -/
@[inline] def finish (m : Machine ω) (r : Except ErrorCause Value) : Deferred (Answer ω) :=
  .done (.ofExcept r, m)

end Machine

namespace Deferred

variable {ω : Type}

/-- Goes on with the value of a computation. Signals and errors pass. -/
@[inline] def thenValue (first : Deferred (Answer ω))
    (rest : Value → Machine ω → Deferred (Answer ω)) : Deferred (Answer ω) :=
  .seq first fun (c, m) =>
    match c with
    | .value v => rest v m
    | c => .done (c, m)

/-- Changes the answer of a computation. -/
@[inline] def map {α : Type} (d : Deferred α) (f : α → α) : Deferred α :=
  .seq d fun a => .done (f a)

@[simp] theorem value_map {α : Type} (d : Deferred α) (f : α → α) :
    (d.map f).value = f d.value := rfl

theorem value_thenValue (first : Deferred (Answer ω))
    (rest : Value → Machine ω → Deferred (Answer ω)) :
    (first.thenValue rest).value =
      match first.value with
      | (.value v, m) => (rest v m).value
      | a => a := by
  rw [thenValue, value_seq]
  obtain ⟨c, m⟩ := first.value
  cases c <;> rfl

end Deferred

namespace Setting

variable {ω : Type}

/-- Leaves a scope at the end of an evaluation in it. The completion holds its values. -/
def leaveScope (S : Setting ω) (held : Held) (s : ScopeId) : Answer ω → Answer ω
  | (c, ⟨σ, line, callDepth, world⟩) =>
    let outside := [held.values c.values, S.host.held world]
    (c, ⟨S.leave outside s σ, line, callDepth, world⟩)

/-- Evaluates in a new scope below another. -/
def within (S : Setting ω) (held : Held) (parent : ScopeId) (m : Machine ω)
    (body : ScopeId → Machine ω → Deferred (Answer ω)) : Deferred (Answer ω) :=
  let (s, σ) := m.store.child parent
  (body s (m.withStore σ)).map (S.leaveScope held s)

end Setting

end Treewalk
