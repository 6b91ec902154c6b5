import Treewalk.Proofs.Scope.Lexical
import Treewalk.Proofs.Value.Keyed

/-!
# The scopes of one interpreter

The scopes of an interpreter are a tree with the global scope as its root. Each has a table of a
capacity that the limits give, or none if it is discarded, and its table binds names.
`Store.IsTree` is kept by every operation, and no operation changes a parent: `Store.Extends`.

* `IsTree.child`, `IsTree.declare`, `IsTree.assign` and `IsTree.discard`.
* `IsTree.ancestor`, `IsTree.global_eq` and `IsTree.mem_chain_iff`: every walk along the parents
  ends in the global scope.
-/

namespace Treewalk.Store

/-- A later store: more scopes, and the parents of those that there were. -/
structure Extends (σ σ' : Store) : Prop where
  size_le : σ.scopes.size ≤ σ'.scopes.size
  parent?_eq : ∀ t : ScopeId, t.index < σ.scopes.size → σ'.parent? t = σ.parent? t

namespace Extends

variable {σ σ₁ σ₂ : Store}

theorem refl (σ : Store) : σ.Extends σ := ⟨Nat.le_refl _, fun _ _ => rfl⟩

theorem trans (h : σ.Extends σ₁) (h' : σ₁.Extends σ₂) : σ.Extends σ₂ :=
  ⟨h.size_le.trans h'.size_le, fun t ht =>
    (h'.parent?_eq t (ht.trans_le h.size_le)).trans (h.parent?_eq t ht)⟩

theorem add (σ : Store) (capacity : Nat) (parent : Option ScopeId) (childCapacity : Nat) :
    σ.Extends (σ.add capacity parent childCapacity).2 :=
  ⟨by rw [size_add]; omega, fun t ht => by rw [parent?_add, if_neg (by omega)]⟩

theorem place (σ : Store) (s : ScopeId) (p : Table.SetOutcome × Nat) (key : String)
    (b : Binding) : σ.Extends (σ.place s p key b) :=
  ⟨(size_place ..).ge, fun _ _ => parent?_place ..⟩

theorem discard (σ : Store) (s : ScopeId) : σ.Extends (σ.discard s) :=
  ⟨(size_discard ..).ge, fun _ _ => parent?_discard ..⟩

theorem declare {s : ScopeId} {name : String} {v : Value} {isConst : Bool} {b : Binding}
    (h : σ.declare s name v isConst = .ok (b, σ₁)) : σ.Extends σ₁ := by
  obtain ⟨-, p, -, rfl⟩ := declare_eq_ok h
  exact place ..

theorem assign {s : ScopeId} {name : String} {v : Value} {b : Binding}
    (h : σ.assign s name v = .ok (b, σ₁)) : σ.Extends σ₁ := by
  obtain ⟨t, i, old, -, -, -, -, rfl⟩ := assign_eq_ok h
  exact place ..

end Extends

/-- The scopes of an interpreter with some limits. -/
structure IsTree (c : Config) (globals : ScopeId) (σ : Store) : Prop extends σ.IsForest where
  root_iff : ∀ s : ScopeId, s.index < σ.scopes.size → (σ.parent? s = none ↔ s = globals)
  globals_lt : globals.index < σ.scopes.size
  keyed : ∀ s, ∃ capacity, (σ.bindings s).IsKeyed capacity
  globals_capacity : (σ.bindings globals).capacity = c.globalCapacity
  capacity_eq : ∀ (s : ScopeId) (scope : Scope), σ.scopes[s.index]? = some scope → s ≠ globals →
    scope.bindings.capacity = if scope.isDiscarded then 0 else c.scopeCapacity
  childCapacity_eq : ∀ s : ScopeId, s.index < σ.scopes.size → σ.childCapacity s = c.scopeCapacity

namespace IsTree

variable {c : Config} {globals s t : ScopeId} {σ σ' : Store} {name : String} {v : Value}

/-! ## Operations -/

theorem root (c : Config) : (Store.empty.root c.globalCapacity c.scopeCapacity).2.IsTree c ⟨0⟩ where
  toIsForest := IsForest.empty.add _ none _ (by simp)
  root_iff s hs := by
    have hs : s.index = 0 := by simpa [Store.root, Store.empty] using hs
    have hp : (Store.empty.root c.globalCapacity c.scopeCapacity).2.parent? s = none := by
      rw [Store.root, parent?_add]
      split <;> rfl
    exact iff_of_true hp (ScopeId.index_inj.1 hs)
  globals_lt := by simp [Store.root, Store.empty]
  keyed s := by
    rw [Store.root, bindings_add]
    split <;> exact ⟨_, Table.isKeyed_withCapacity _⟩
  globals_capacity := Table.capacity_withCapacity _
  capacity_eq s scope hs hne := by
    rw [Store.root, getElem?_scopes_add] at hs
    split at hs
    · next hi => exact absurd (ScopeId.index_inj.1 hi) hne
    · cases hs
  childCapacity_eq s hs := by
    rw [Store.root, childCapacity_add, if_pos]
    simpa [Store.root, Store.empty] using hs

theorem child (h : σ.IsTree c globals) (hs : s.index < σ.scopes.size) :
    (σ.child s).2.IsTree c globals where
  toIsForest := h.toIsForest.add _ (some s) _ (by rintro p ⟨⟩; exact hs)
  root_iff t ht := by
    rw [Store.child, size_add] at ht
    rw [Store.child, parent?_add]
    split
    · next hi =>
      refine iff_of_false (by simp) ?_
      rintro rfl
      exact absurd h.globals_lt (by omega)
    · exact h.root_iff t (by omega)
  globals_lt := by
    rw [Store.child, size_add]
    exact h.globals_lt.trans (Nat.lt_succ_self _)
  keyed t := by
    rw [Store.child, bindings_add]
    split
    · exact ⟨_, Table.isKeyed_withCapacity _⟩
    · exact h.keyed t
  globals_capacity := by
    rw [Store.child, bindings_add, if_neg h.globals_lt.ne]
    exact h.globals_capacity
  capacity_eq t scope ht hne := by
    rw [Store.child, getElem?_scopes_add] at ht
    split at ht
    · cases ht
      exact (Table.capacity_withCapacity _).trans (h.childCapacity_eq s hs)
    · exact h.capacity_eq t scope ht hne
  childCapacity_eq t ht := by
    rw [Store.child, size_add] at ht
    rw [Store.child, childCapacity_add]
    split
    · exact h.childCapacity_eq s hs
    · exact h.childCapacity_eq t (by omega)

/-- A write that leaves the table of its scope one that binds names. -/
theorem place (h : σ.IsTree c globals) {p : Table.SetOutcome × Nat} {b : Binding}
    (hk : ∃ capacity, ((σ.bindings s).write p name b).IsKeyed capacity) :
    (σ.place s p name b).IsTree c globals where
  toIsForest := by
    obtain ⟨capacity, hk⟩ := hk
    exact h.toIsForest.place hk.wellFormed
  root_iff t ht := by
    rw [parent?_place]
    exact h.root_iff t (by rwa [size_place] at ht)
  globals_lt := by
    rw [size_place]
    exact h.globals_lt
  keyed t := by
    rw [bindings_place]
    split
    · next hst => exact hst ▸ hk
    · exact h.keyed t
  globals_capacity := by
    rw [bindings_place]
    split
    · rw [Table.capacity_write]
      exact h.globals_capacity
    · exact h.globals_capacity
  capacity_eq t scope ht hne := by
    rw [getElem?_scopes_place] at ht
    split at ht
    · obtain ⟨old, hold, rfl⟩ := Option.map_eq_some_iff.1 ht
      exact (Table.capacity_write ..).trans (h.capacity_eq t old hold hne)
    · exact h.capacity_eq t scope ht hne
  childCapacity_eq t ht := by
    rw [childCapacity_place]
    exact h.childCapacity_eq t (by rwa [size_place] at ht)

theorem declare (h : σ.IsTree c globals) {isConst : Bool} {b : Binding}
    (hd : σ.declare s name v isConst = .ok (b, σ')) : σ'.IsTree c globals := by
  obtain ⟨-, p, hp, rfl⟩ := declare_eq_ok hd
  obtain ⟨capacity, hk⟩ := h.keyed s
  exact h.place ⟨capacity, hk.place hp rfl⟩

theorem assign (h : σ.IsTree c globals) {b : Binding} (ha : σ.assign s name v = .ok (b, σ')) :
    σ'.IsTree c globals := by
  obtain ⟨t, i, old, -, hl, -, -, rfl⟩ := assign_eq_ok ha
  obtain ⟨capacity, hk⟩ := h.keyed t
  exact h.place ⟨capacity, hk.overwrite hl v⟩

theorem discard (h : σ.IsTree c globals) (hs : s ≠ globals) : (σ.discard s).IsTree c globals where
  toIsForest := h.toIsForest.discard s
  root_iff t ht := by
    rw [parent?_discard]
    exact h.root_iff t (by rwa [size_discard] at ht)
  globals_lt := by
    rw [size_discard]
    exact h.globals_lt
  keyed t := by
    rw [bindings_discard]
    split
    · exact ⟨0, Table.isKeyed_withCapacity 0⟩
    · exact h.keyed t
  globals_capacity := by
    rw [bindings_discard, if_neg hs]
    exact h.globals_capacity
  capacity_eq t scope ht hne := by
    rw [getElem?_scopes_discard] at ht
    split at ht
    · obtain ⟨old, -, rfl⟩ := Option.map_eq_some_iff.1 ht
      exact Table.capacity_withCapacity 0
    · exact h.capacity_eq t scope ht hne
  childCapacity_eq t ht := by
    rw [childCapacity_discard]
    exact h.childCapacity_eq t (by rwa [size_discard] at ht)

theorem number (h : σ.IsTree c globals) (next : Nat) :
    { σ with nextObject := next }.IsTree c globals :=
  ⟨⟨h.older, h.wellFormed⟩, h.root_iff, h.globals_lt, h.keyed, h.globals_capacity, h.capacity_eq,
    h.childCapacity_eq⟩

/-! ## Walks -/

theorem exists_parent (h : σ.IsTree c globals) (hs : s.index < σ.scopes.size) (hne : s ≠ globals) :
    ∃ p, σ.parent? s = some p ∧ p.index < s.index := by
  cases hp : σ.parent? s with
  | none => exact absurd ((h.root_iff s hs).1 hp) hne
  | some p => exact ⟨p, rfl, h.older hp⟩

/-- Every scope is below the global one. -/
theorem ancestor (h : σ.IsTree c globals) (hs : s.index < σ.scopes.size) :
    σ.Ancestor s globals := by
  induction hn : s.index using Nat.strongRecOn generalizing s with
  | ind n ih =>
    by_cases hne : s = globals
    · exact hne ▸ .refl
    · obtain ⟨p, hp, hlt⟩ := h.exists_parent hs hne
      exact .head hp (ih _ (hn ▸ hlt) (hlt.trans hs) rfl)

theorem global_eq (h : σ.IsTree c globals) (hs : s.index < σ.scopes.size) :
    σ.global s = globals := by
  induction hn : s.index using Nat.strongRecOn generalizing s with
  | ind n ih =>
    by_cases hne : s = globals
    · rw [global, chain_of_root ((h.root_iff s hs).2 hne)]
      exact hne
    · obtain ⟨p, hp, hlt⟩ := h.exists_parent hs hne
      have ih := ih _ (hn ▸ hlt) (hlt.trans hs) rfl
      have hlast := List.getLast?_eq_some_getLast (σ.chain_ne_nil p)
      rw [global, List.getLastD_eq_getLast?, hlast] at ih
      rw [global, chain_of_parent hp hlt, List.getLastD_cons, List.getLastD_eq_getLast?, hlast]
      exact ih

/-- The scopes below the global one are those in the store. -/
theorem mem_chain_iff (h : σ.IsTree c globals) :
    globals ∈ σ.chain s ↔ s.index < σ.scopes.size := by
  constructor
  · intro hs
    by_contra hlt
    have hp : σ.parent? s = none := by
      rw [parent?, Array.getElem?_eq_none (Nat.le_of_not_lt hlt), Option.bind_none]
    rw [chain_of_root hp, List.mem_singleton] at hs
    exact hlt (hs ▸ h.globals_lt)
  · intro hs
    have hroot := σ.global_mem_chain s
    rwa [h.global_eq hs] at hroot

end IsTree

end Treewalk.Store
