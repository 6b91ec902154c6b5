import Treewalk.Scope.Holders
import Treewalk.Value.Handles

/-!
# Handles held outside the store

The host and the evaluations in progress hold handles too: on scopes, and by way of function values
and objects with functions in them. `Held` counts the handles to each scope and keeps the objects
by the scopes that they hold handles to. Values that hold no handles leave no trace in it.

Main statements: `count_scope` and `count_value`, what one more handle adds.
-/

namespace Treewalk

/-- Handles held outside the store. -/
structure Held where
  /-- The handles to each scope that are not in objects. -/
  counts : Std.TreeMap ScopeId Nat
  /-- The objects with handles to each scope in them, one entry for each place that holds one. -/
  objects : Std.TreeMap ScopeId (List Value)

namespace Held

/-- No handles. -/
def empty : Held := ⟨∅, ∅⟩

/-- The handles to a scope that are not in objects. -/
def count (h : Held) (s : ScopeId) : Nat := h.counts.getD s 0

/-- The objects with handles to a scope in them. -/
def objectsFor (h : Held) (s : ScopeId) : List Value := h.objects.getD s []

/-- Whether there is a handle to a scope. -/
def mentions (h : Held) (s : ScopeId) : Bool := h.count s != 0 || !(h.objectsFor s).isEmpty

/-- One more handle to a scope. -/
def scope (h : Held) (s : ScopeId) : Held := { h with counts := h.counts.insert s (h.count s + 1) }

/-- One more place that holds an object with handles to a scope in it. -/
def objectFor (h : Held) (v : Value) (s : ScopeId) : Held :=
  { h with objects := h.objects.insert s (v :: h.objectsFor s) }

/-- One more place that holds a value. -/
def value (h : Held) (v : Value) : Held :=
  match v with
  | .function f => h.scope f.scope
  | .object .. => v.scopes.eraseDups.foldl (fun h s => h.objectFor v s) h
  | _ => h

/-- Places that hold values. -/
def values (h : Held) (vs : List Value) : Held := vs.foldl value h

@[simp] theorem count_empty (s : ScopeId) : empty.count s = 0 := by
  simp [empty, count]

theorem count_scope (h : Held) (s t : ScopeId) :
    (h.scope s).count t = h.count t + if s = t then 1 else 0 := by
  rw [scope, count, Std.TreeMap.getD_insert]
  simp only [Std.LawfulEqCmp.compare_eq_iff_eq]
  split
  · next h => rw [h]
  · rfl

@[simp] theorem count_objectFor (h : Held) (v : Value) (s t : ScopeId) :
    (h.objectFor v s).count t = h.count t := rfl

theorem count_value (h : Held) (v : Value) (t : ScopeId) :
    (h.value v).count t =
      h.count t + match v with
        | .function f => if f.scope = t then 1 else 0
        | _ => 0 := by
  cases v with
  | function f => exact count_scope h f.scope t
  | object id properties =>
    rw [value]
    induction (Value.object id properties).scopes.eraseDups generalizing h with
    | nil => rfl
    | cons s rest ih => simp [ih]
  | _ => rfl

end Held

end Treewalk
