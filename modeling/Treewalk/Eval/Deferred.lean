/-!
# Deferred computations

A computation that still has continuations to run. Its answer is defined by recursion on its
structure, as `value`. To find the answer of a deep computation without a deep recursion, `force`
keeps the continuations that wait on a list and does one at a time.

Main statement: `force_eq_value`, both give the same answer.
-/

namespace Treewalk

/-- An answer, or a computation with a continuation that waits for its answer. -/
inductive Deferred (α : Type) where
  | done (a : α)
  | seq (first : Deferred α) (rest : α → Deferred α)

namespace Deferred

variable {α : Type}

/-- The answer of a computation. -/
def value : Deferred α → α
  | done a => a
  | seq first rest => (rest first.value).value

/-- The steps that a computation takes. -/
def steps : Deferred α → Nat
  | done _ => 1
  | seq first rest => 1 + first.steps + (rest first.value).steps

/-- The steps that waiting continuations take from an answer. -/
def waitingSteps (a : α) : List (α → Deferred α) → Nat
  | [] => 0
  | rest :: waiting => (rest a).steps + waitingSteps (rest a).value waiting

/-- Runs a computation, then the continuations that wait for it. -/
def forceWith : Deferred α → (waiting : List (α → Deferred α)) → α
  | done a, [] => a
  | done a, rest :: waiting => forceWith (rest a) waiting
  | seq first rest, waiting => forceWith first (rest :: waiting)
termination_by d waiting => d.steps + waitingSteps d.value waiting
decreasing_by all_goals simp [steps, waitingSteps, value]; try omega

/-- Runs a computation. -/
def force (d : Deferred α) : α := d.forceWith []

@[simp] theorem value_done (a : α) : (done a).value = a := rfl

@[simp] theorem value_seq (first : Deferred α) (rest : α → Deferred α) :
    (seq first rest).value = (rest first.value).value := rfl

theorem forceWith_eq_foldl (d : Deferred α) (waiting : List (α → Deferred α)) :
    d.forceWith waiting = waiting.foldl (fun a rest => (rest a).value) d.value := by
  fun_induction forceWith d waiting with
  | case1 => rfl
  | case2 a rest waiting ih => rw [ih]; rfl
  | case3 first rest waiting ih => rw [ih]; rfl

@[simp] theorem force_eq_value (d : Deferred α) : d.force = d.value :=
  forceWith_eq_foldl d []

end Deferred

end Treewalk
