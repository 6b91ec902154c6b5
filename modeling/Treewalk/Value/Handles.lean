import Treewalk.Value.Basic

/-!
# Handles in values

A function value holds a handle to the scope that it was declared in, and an object holds what its
properties hold.

* `Value.scopes` lists the scopes that a value holds handles to.
* `Table.mentions` asks whether a table of bindings holds a handle to a scope; `mentions_write` says
  that a write adds no handles but those of the value written.
-/

namespace Treewalk

mutual

/-- The scopes that a value holds handles to. -/
def Value.scopes : Value → List ScopeId
  | .function f => [f.scope]
  | .object _ ⟨⟨slots⟩, _⟩ => slotScopes slots
  | _ => []

/-- The scopes that the bindings of live slots hold handles to. -/
def slotScopes : List (Slot Binding) → List ScopeId
  | [] => []
  | .occupied _ ⟨_, _, v⟩ :: rest => v.scopes ++ slotScopes rest
  | _ :: rest => slotScopes rest

end

/-- Whether a value holds a handle to a scope. -/
def Value.mentions (v : Value) (s : ScopeId) : Bool := v.scopes.contains s

/-- Whether a slot holds a handle to a scope. -/
def Slot.mentions (slot : Slot Binding) (s : ScopeId) : Bool :=
  match slot with
  | .occupied _ b => b.value.mentions s
  | _ => false

/-- Whether a table of bindings holds a handle to a scope. -/
def Table.mentions (t : Table Binding) (s : ScopeId) : Bool := t.slots.any (·.mentions s)

@[simp] theorem mentions_withCapacity (n : Nat) (s : ScopeId) :
    (Table.withCapacity n : Table Binding).mentions s = false := by
  rw [Table.mentions, Table.withCapacity, Array.any_eq_false]
  intro i hi
  simp [Slot.mentions]

/-- A write adds no handles but those of the value written. -/
theorem mentions_write {t : Table Binding} {p : Table.SetOutcome × Nat} {key : String}
    {b : Binding} {s : ScopeId} (h : (t.write p key b).mentions s) :
    t.mentions s ∨ b.value.mentions s := by
  obtain ⟨j, hj, hm⟩ := Array.any_eq_true.1 h
  have hj' : j < t.slots.size := by simpa [Table.put] using hj
  simp only [Table.slots_write, Table.put, Array.getElem_setIfInBounds hj'] at hm
  split at hm
  · exact .inr hm
  · exact .inl (Array.any_eq_true.2 ⟨j, hj', hm⟩)

end Treewalk
