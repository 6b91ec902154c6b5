import Treewalk.Proofs.Scope.Store
import Treewalk.Proofs.Value.Nesting

/-!
# Properties of the values bound

A property that all values bound in a store have stays with them through every operation that binds
no value without it; what is looked up has it.

* `Store.Binds.declare`, `Store.Binds.assign`: what is written has to have the property.
* `Store.Binds.add`, `Store.Binds.leave`: making and leaving scopes binds nothing.
* `Store.Binds.resolve`: what a name resolves to has the property.
-/

namespace Treewalk.Store

/-- Whether all values bound in the scopes of a store have a property. -/
def Binds (P : Value → Prop) (σ : Store) : Prop := ∀ s, ∀ v ∈ (σ.bindings s).values, P v

variable {σ σ' : Store} {s : ScopeId} {P : Value → Prop}

theorem binds_empty : Binds P .empty := fun s v hv => by simp [empty, bindings] at hv

/-- A name resolves to a value bound in a scope of the chain. -/
theorem mem_values_of_resolve {name : String} {b : Binding} (h : σ.resolve s name = some b) :
    ∃ t ∈ σ.chain s, b.value ∈ (σ.bindings t).values := by
  obtain ⟨t, ht, hb⟩ := List.exists_of_findSome?_eq_some h
  exact ⟨t, ht, Table.mem_values_of_get? hb⟩

namespace Binds

theorem add (h : σ.Binds P) (capacity : Nat) (parent : Option ScopeId) (childCapacity : Nat) :
    (σ.add capacity parent childCapacity).2.Binds P := by
  intro t v hv
  rw [bindings_add] at hv
  split at hv
  · simp at hv
  · exact h t v hv

theorem place (h : σ.Binds P) {b : Binding} (hb : P b.value) (s : ScopeId)
    (p : Table.SetOutcome × Nat) (key : String) : (σ.place s p key b).Binds P := by
  intro t v hv
  rw [bindings_place] at hv
  split at hv
  · rcases Table.mem_values_write hv with rfl | hv
    · exact hb
    · exact h t v hv
  · exact h t v hv

theorem declare {name : String} {v : Value} {isConst : Bool} {b : Binding} (h : σ.Binds P)
    (hv : P v) (hd : σ.declare s name v isConst = .ok (b, σ')) : σ'.Binds P := by
  obtain ⟨-, p, -, rfl⟩ := declare_eq_ok hd
  exact h.place hv s p name

theorem assign {name : String} {v : Value} {b : Binding} (h : σ.Binds P) (hv : P v)
    (ha : σ.assign s name v = .ok (b, σ')) : σ'.Binds P ∧ P b.value := by
  obtain ⟨t, i, old, -, -, -, rfl, rfl⟩ := assign_eq_ok ha
  exact ⟨h.place hv t (.overwritten, i) name, hv⟩

theorem discard (h : σ.Binds P) (s : ScopeId) : (σ.discard s).Binds P := by
  intro t v hv
  rw [bindings_discard] at hv
  split at hv
  · simp at hv
  · exact h t v hv

theorem leave (h : σ.Binds P) (outside : List Held) (s : ScopeId) :
    (σ.leave outside s).Binds P := by
  obtain he | he := σ.leave_cases outside s
  · rw [he]
    exact h.discard s
  · rwa [he]

theorem resolve {name : String} {b : Binding} (h : σ.Binds P) (hb : σ.resolve s name = some b) :
    P b.value := by
  obtain ⟨t, -, hv⟩ := mem_values_of_resolve hb
  exact h t _ hv

theorem lookup {name : String} {v : Value} (h : σ.Binds P) (hv : σ.lookup s name = .ok v) :
    P v := by
  unfold Store.lookup at hv
  split at hv
  · next b hb =>
    cases hv
    exact h.resolve hb
  · cases hv

end Binds

end Treewalk.Store
