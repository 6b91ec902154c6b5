import Treewalk.Eval.Machine
import Treewalk.Proofs.Table.Probing

/-!
# What each operation does to a store

For the scopes made, their parents and their bindings, one equation for each operation on a store.
The operations that may fail have inversion lemmas, which say all that a success can have done:

* `Store.declare_eq_ok` and `Store.declare_eq_error` for binding a name,
* `Store.assign_eq_ok` for writing to a variable.
-/

namespace Treewalk

theorem ScopeId.index_inj {s t : ScopeId} : s.index = t.index ↔ s = t := by
  cases s; cases t; simp

namespace Store

variable {σ σ' : Store} {s t : ScopeId}

/-! ## Roots -/

/-- The root of a scope is the last one on its chain. -/
theorem global_mem_chain (σ : Store) (s : ScopeId) : σ.global s ∈ σ.chain s := by
  rw [global, List.getLastD_eq_getLast?, List.getLast?_eq_some_getLast (σ.chain_ne_nil s)]
  exact List.getLast_mem _

/-! ## Chains -/

theorem lt_size_of_parent? (h : σ.parent? s = some t) : s.index < σ.scopes.size := by
  obtain ⟨scope, hs, -⟩ := Option.bind_eq_some_iff.1 h
  exact (Array.getElem?_eq_some_iff.1 hs).1

/-- Stores with the same parents for scopes that are closed under parents have the same chains
from there. -/
theorem chain_congr {P : ScopeId → Prop} (hparent : ∀ t, P t → σ.parent? t = σ'.parent? t)
    (hclosed : ∀ t p, P t → σ.parent? t = some p → p.index < t.index → P p) (hs : P s) :
    σ.chain s = σ'.chain s := by
  fun_induction chain σ s with
  | case1 s p hp hlt ih =>
    rw [chain_of_parent ((hparent s hs).symm.trans hp) hlt, ih (hclosed s p hs hp hlt)]
  | case2 s p hp hlt =>
    rw [chain, ← hparent s hs, hp]
    exact (if_neg hlt).symm
  | case3 s hp => rw [chain_of_root ((hparent s hs).symm.trans hp)]

/-- A chain starts at its scope, and what follows is older. -/
theorem exists_chain_eq_cons (σ : Store) (s : ScopeId) :
    ∃ rest, σ.chain s = s :: rest ∧ ∀ t ∈ rest, t.index < s.index := by
  fun_induction chain σ s with
  | case1 s p hp hlt ih =>
    obtain ⟨rest, hrest, hold⟩ := ih
    refine ⟨_, rfl, fun t ht => ?_⟩
    rw [hrest, List.mem_cons] at ht
    obtain rfl | ht := ht
    · exact hlt
    · exact Nat.lt_trans (hold t ht) hlt
  | case2 | case3 => exact ⟨[], rfl, fun t ht => (List.not_mem_nil ht).elim⟩

/-! ## New scopes -/

@[simp] theorem size_add (σ : Store) (capacity : Nat) (parent : Option ScopeId)
    (childCapacity : Nat) :
    (σ.add capacity parent childCapacity).2.scopes.size = σ.scopes.size + 1 := by
  simp [add]

@[simp] theorem index_add (σ : Store) (capacity : Nat) (parent : Option ScopeId)
    (childCapacity : Nat) : (σ.add capacity parent childCapacity).1.index = σ.scopes.size := rfl

theorem getElem?_scopes_add (σ : Store) (capacity : Nat) (parent : Option ScopeId)
    (childCapacity i : Nat) :
    (σ.add capacity parent childCapacity).2.scopes[i]? =
      if i = σ.scopes.size then some ⟨.withCapacity capacity, parent, childCapacity, false⟩
      else σ.scopes[i]? := by
  simp [add, Array.getElem?_push]

theorem bindings_add (σ : Store) (capacity : Nat) (parent : Option ScopeId) (childCapacity : Nat)
    (t : ScopeId) :
    (σ.add capacity parent childCapacity).2.bindings t =
      if t.index = σ.scopes.size then .withCapacity capacity else σ.bindings t := by
  simp only [bindings, getElem?_scopes_add]
  by_cases h : t.index = σ.scopes.size
  · rw [if_pos h, if_pos h]
  · rw [if_neg h, if_neg h]

theorem parent?_add (σ : Store) (capacity : Nat) (parent : Option ScopeId) (childCapacity : Nat)
    (t : ScopeId) :
    (σ.add capacity parent childCapacity).2.parent? t =
      if t.index = σ.scopes.size then parent else σ.parent? t := by
  simp only [parent?, getElem?_scopes_add]
  by_cases h : t.index = σ.scopes.size
  · rw [if_pos h, if_pos h]; rfl
  · rw [if_neg h, if_neg h]

theorem childCapacity_add (σ : Store) (capacity : Nat) (parent : Option ScopeId)
    (childCapacity : Nat) (t : ScopeId) :
    (σ.add capacity parent childCapacity).2.childCapacity t =
      if t.index = σ.scopes.size then childCapacity else σ.childCapacity t := by
  simp only [Store.childCapacity, getElem?_scopes_add]
  by_cases h : t.index = σ.scopes.size
  · rw [if_pos h, if_pos h]
  · rw [if_neg h, if_neg h]

theorem bindings_child_self (σ : Store) (p : ScopeId) :
    (σ.child p).2.bindings (σ.child p).1 = .withCapacity (σ.childCapacity p) :=
  (bindings_add ..).trans (if_pos rfl)

theorem parent?_child_self (σ : Store) (p : ScopeId) :
    (σ.child p).2.parent? (σ.child p).1 = some p :=
  (parent?_add ..).trans (if_pos rfl)

/-! ## Writes -/

@[simp] theorem size_place (σ : Store) (s : ScopeId) (p : Table.SetOutcome × Nat) (key : String)
    (b : Binding) : (σ.place s p key b).scopes.size = σ.scopes.size := by
  simp [place]

theorem getElem?_scopes_place (σ : Store) (s : ScopeId) (p : Table.SetOutcome × Nat)
    (key : String) (b : Binding) (j : Nat) :
    (σ.place s p key b).scopes[j]? =
      if s.index = j then σ.scopes[j]?.map fun scope =>
        { scope with bindings := scope.bindings.write p key b }
      else σ.scopes[j]? := by
  simp only [place, Array.getElem?_modify]

theorem bindings_place (σ : Store) (s : ScopeId) (p : Table.SetOutcome × Nat) (key : String)
    (b : Binding) (t : ScopeId) :
    (σ.place s p key b).bindings t =
      if s = t then (σ.bindings t).write p key b else σ.bindings t := by
  simp only [bindings, place, Array.getElem?_modify, ← ScopeId.index_inj]
  by_cases h : s.index = t.index
  · rw [if_pos h, if_pos h]
    cases σ.scopes[t.index]? with
    | none => simp [Table.write]
    | some scope => rfl
  · rw [if_neg h, if_neg h]

@[simp] theorem childCapacity_place (σ : Store) (s t : ScopeId) (p : Table.SetOutcome × Nat)
    (key : String) (b : Binding) : (σ.place s p key b).childCapacity t = σ.childCapacity t := by
  simp only [childCapacity, place, Array.getElem?_modify]
  by_cases h : s.index = t.index
  · rw [if_pos h]
    cases σ.scopes[t.index]? <;> rfl
  · rw [if_neg h]

/-- All that a name bound in a scope changes. -/
theorem declare_eq_ok {name : String} {v : Value} {isConst : Bool} {b : Binding}
    (h : σ.declare s name v isConst = .ok (b, σ')) :
    b = ⟨name, isConst, v⟩ ∧ ∃ p, (σ.bindings s).place? name = some p ∧
      σ' = σ.place s p name ⟨name, isConst, v⟩ := by
  unfold declare at h
  split at h
  · next p hp =>
    cases h
    exact ⟨rfl, p, hp, rfl⟩
  · cases h

theorem declare_eq_error {name : String} {v : Value} {isConst : Bool} {cause : ErrorCause}
    (h : σ.declare s name v isConst = .error cause) :
    (σ.bindings s).place? name = none ∧ cause = .tableOverflow (σ.bindings s).capacity := by
  unfold declare at h
  split at h
  · cases h
  · next hp =>
    cases h
    exact ⟨hp, rfl⟩

/-- All that an assignment changes: one value, in the scope that owns the name. -/
theorem assign_eq_ok {name : String} {v : Value} {b : Binding}
    (h : σ.assign s name v = .ok (b, σ')) :
    ∃ t i old, σ.owner? s name = some t ∧ (σ.bindings t).locate? name = some (i, old) ∧
      old.isConst = false ∧ b = old.withValue v ∧
      σ' = σ.place t (.overwritten, i) name (old.withValue v) := by
  unfold assign at h
  split at h
  · cases h
  · next t ht =>
    split at h
    · cases h
    · next i old hl =>
      split at h
      · cases h
      · next hc =>
        cases h
        exact ⟨t, i, old, ht, hl, by simpa using hc, rfl, rfl⟩

theorem size_of_declare {name : String} {v : Value} {isConst : Bool} {b : Binding}
    (h : σ.declare s name v isConst = .ok (b, σ')) : σ'.scopes.size = σ.scopes.size := by
  obtain ⟨-, p, -, rfl⟩ := declare_eq_ok h
  exact size_place ..

theorem size_of_assign {name : String} {v : Value} {b : Binding}
    (h : σ.assign s name v = .ok (b, σ')) : σ'.scopes.size = σ.scopes.size := by
  obtain ⟨t, i, old, -, -, -, -, rfl⟩ := assign_eq_ok h
  exact size_place ..

/-! ## Clearing -/

theorem getElem?_scopes_clear (σ : Store) (s : ScopeId) (j : Nat) :
    (σ.clear s).scopes[j]? =
      if s.index = j then σ.scopes[j]?.map fun scope => { scope with bindings := .withCapacity 0 }
      else σ.scopes[j]? := by
  simp only [clear, Array.getElem?_modify]

theorem bindings_clear (σ : Store) (s t : ScopeId) :
    (σ.clear s).bindings t = if s = t then .withCapacity 0 else σ.bindings t := by
  simp only [bindings, getElem?_scopes_clear, ← ScopeId.index_inj]
  by_cases h : s.index = t.index
  · rw [if_pos h, if_pos h]
    cases σ.scopes[t.index]? <;> rfl
  · rw [if_neg h, if_neg h]

/-! ## Discarding -/

@[simp] theorem size_discard (σ : Store) (s : ScopeId) :
    (σ.discard s).scopes.size = σ.scopes.size := by
  simp [discard]

theorem getElem?_scopes_discard (σ : Store) (s : ScopeId) (j : Nat) :
    (σ.discard s).scopes[j]? =
      if s.index = j then σ.scopes[j]?.map fun scope =>
        { scope with bindings := .withCapacity 0, isDiscarded := true }
      else σ.scopes[j]? := by
  simp only [discard, Array.getElem?_modify]

theorem bindings_discard (σ : Store) (s t : ScopeId) :
    (σ.discard s).bindings t = if s = t then .withCapacity 0 else σ.bindings t := by
  simp only [bindings, discard, Array.getElem?_modify, ← ScopeId.index_inj]
  by_cases h : s.index = t.index
  · rw [if_pos h, if_pos h]
    cases σ.scopes[t.index]? <;> rfl
  · rw [if_neg h, if_neg h]

@[simp] theorem parent?_discard (σ : Store) (s t : ScopeId) :
    (σ.discard s).parent? t = σ.parent? t := by
  simp only [parent?, discard, Array.getElem?_modify]
  split
  · cases σ.scopes[t.index]? <;> rfl
  · rfl

@[simp] theorem childCapacity_discard (σ : Store) (s t : ScopeId) :
    (σ.discard s).childCapacity t = σ.childCapacity t := by
  simp only [childCapacity, discard, Array.getElem?_modify]
  by_cases h : s.index = t.index
  · rw [if_pos h]
    cases σ.scopes[t.index]? <;> rfl
  · rw [if_neg h]

theorem leave_cases (σ : Store) (outside : List Held) (s : ScopeId) :
    σ.leave outside s = σ.discard s ∨ σ.leave outside s = σ := by
  rw [leave]
  split
  · exact .inl rfl
  · exact .inr rfl

end Store

end Treewalk
