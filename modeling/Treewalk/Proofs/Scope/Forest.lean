import Treewalk.Proofs.Scope.Store

/-!
# Stores whose scopes form a forest

Scopes are numbered by age, so parent links without cycles are links to older scopes. A store is a
forest when this holds of all its links and every table finds its keys.

* `Store.IsForest` is kept by every operation: `IsForest.add`, `IsForest.declare`,
  `IsForest.assign` and `IsForest.leave`.
* `Store.resolve_eq_or` and `Store.owner?_eq_ite` are the recursions along the parents that the
  walks from a scope are.
-/

namespace Treewalk.Store

variable {σ σ' : Store} {s t : ScopeId} {x : String}

/-- Parents are older than their children, and every key of a table is found. -/
structure IsForest (σ : Store) : Prop where
  older : ∀ {s p : ScopeId}, σ.parent? s = some p → p.index < s.index
  wellFormed : ∀ s, (σ.bindings s).WellFormed

namespace IsForest

theorem empty : Store.empty.IsForest where
  older hp := by simp [Store.empty, parent?] at hp
  wellFormed s := by
    simpa [Store.empty, bindings] using Table.wellFormed_withCapacity 0

theorem add (h : σ.IsForest) (capacity : Nat) (parent : Option ScopeId) (childCapacity : Nat)
    (hparent : ∀ p ∈ parent, p.index < σ.scopes.size) :
    (σ.add capacity parent childCapacity).2.IsForest where
  older {s p} hp := by
    rw [parent?_add] at hp
    split at hp
    · next hs => exact hs ▸ hparent p hp
    · exact h.older hp
  wellFormed s := by
    rw [bindings_add]
    split
    · exact Table.wellFormed_withCapacity _
    · exact h.wellFormed s

/-- A write keeps the forest if it keeps the table of its scope well formed. -/
theorem place (h : σ.IsForest) {p : Table.SetOutcome × Nat} {b : Binding}
    (ht : ((σ.bindings s).write p x b).WellFormed) : (σ.place s p x b).IsForest where
  older hp := h.older (by rwa [parent?_place] at hp)
  wellFormed t := by
    rw [bindings_place]
    split
    · next hst => exact hst ▸ ht
    · exact h.wellFormed t

theorem declare (h : σ.IsForest) {v : Value} {isConst : Bool} {b : Binding}
    (hd : σ.declare s x v isConst = .ok (b, σ')) : σ'.IsForest := by
  obtain ⟨-, p, hp, rfl⟩ := declare_eq_ok hd
  exact h.place ((h.wellFormed s).place hp _)

theorem assign (h : σ.IsForest) {v : Value} {b : Binding}
    (ha : σ.assign s x v = .ok (b, σ')) : σ'.IsForest := by
  obtain ⟨t, i, old, -, hl, -, -, rfl⟩ := assign_eq_ok ha
  exact h.place ((h.wellFormed t).overwrite (Table.locate?_eq_some.1 hl).2 _)

theorem discard (h : σ.IsForest) (s : ScopeId) : (σ.discard s).IsForest where
  older hp := h.older (by rwa [parent?_discard] at hp)
  wellFormed t := by
    rw [bindings_discard]
    split
    · exact Table.wellFormed_withCapacity _
    · exact h.wellFormed t

theorem leave (h : σ.IsForest) (outside : List Held) (s : ScopeId) :
    (σ.leave outside s).IsForest := by
  obtain he | he := σ.leave_cases outside s
  · rw [he]; exact h.discard s
  · rw [he]; exact h

end IsForest

/-! ## Walks along the parents -/

theorem IsForest.chain_eq (h : σ.IsForest) (s : ScopeId) :
    σ.chain s = s :: ((σ.parent? s).map σ.chain).getD [] := by
  cases hs : σ.parent? s with
  | none => exact chain_of_root hs
  | some p => exact chain_of_parent hs (h.older hs)

theorem IsForest.resolve_eq_or (h : σ.IsForest) (s : ScopeId) (x : String) :
    σ.resolve s x = ((σ.bindings s).get? x).or ((σ.parent? s).bind (σ.resolve · x)) := by
  rw [resolve, h.chain_eq s, List.findSome?_cons]
  cases (σ.bindings s).get? x with
  | some b => rfl
  | none => cases σ.parent? s <;> rfl

theorem IsForest.owner?_eq_ite (h : σ.IsForest) (s : ScopeId) (x : String) :
    σ.owner? s x = if (σ.bindings s).contains x then some s
      else (σ.parent? s).bind (σ.owner? · x) := by
  rw [owner?, h.chain_eq s, List.find?_cons]
  cases (σ.bindings s).contains x with
  | true => rfl
  | false => cases σ.parent? s <;> rfl

/-- A look-up gives the binding of the owner. -/
theorem resolve_eq_bind (σ : Store) (s : ScopeId) (x : String) :
    σ.resolve s x = (σ.owner? s x).bind fun t => (σ.bindings t).get? x := by
  rw [resolve, owner?]
  induction σ.chain s with
  | nil => rfl
  | cons t chain ih =>
    rw [List.findSome?_cons, List.find?_cons, Table.contains_eq]
    cases hb : (σ.bindings t).get? x with
    | some b => simp [hb]
    | none => exact ih

/-- The owner of a name has a binding for it. -/
theorem exists_get?_of_owner? (h : σ.owner? s x = some t) :
    ∃ b, (σ.bindings t).get? x = some b := by
  have hc := List.find?_some h
  rwa [Table.contains_eq, Option.isSome_iff_exists] at hc

end Treewalk.Store
