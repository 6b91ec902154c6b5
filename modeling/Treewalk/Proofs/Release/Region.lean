import Mathlib.Data.Set.Insert
import Treewalk.Proofs.Scope.Leaving

/-!
# Regions of a store

A region is a set of scopes, none of them discarded, that no handle in them leads out of. Look-ups
from a scope in a region stay in the region, so two stores that are the same in it answer them the
same; and writes to its scopes of values that mention no others keep it a region.

* `Store.IsRegion` and `Store.SameIn`, with `SameIn.resolve_eq` and `SameIn.owner?_eq` for look-ups.
* `SameIn.add`, `SameIn.declare` and `SameIn.assign` for the operations.
-/

namespace Treewalk

namespace Store

/-- Scopes that are not discarded and whose handles all stay among them. -/
structure IsRegion (σ : Store) (A : Set ScopeId) : Prop where
  alive : ∀ t ∈ A, ∀ scope, σ.scopes[t.index]? = some scope → scope.isDiscarded = false
  closed : ∀ t ∈ A, ∀ u, σ.holds t u = true → u ∈ A

/-- Stores with as many scopes and objects that are the same in some scopes. -/
structure SameIn (A : Set ScopeId) (σ₁ σ₂ : Store) : Prop where
  size_eq : σ₁.scopes.size = σ₂.scopes.size
  nextObject_eq : σ₁.nextObject = σ₂.nextObject
  scopes_eq : ∀ t ∈ A, σ₁.scopes[t.index]? = σ₂.scopes[t.index]?

variable {σ σ₁ σ₂ : Store} {A : Set ScopeId} {s t : ScopeId}

theorem SameIn.refl (A : Set ScopeId) (σ : Store) : SameIn A σ σ := ⟨rfl, rfl, fun _ _ => rfl⟩

theorem SameIn.bindings_eq (h : SameIn A σ₁ σ₂) (hs : s ∈ A) : σ₁.bindings s = σ₂.bindings s := by
  rw [bindings, bindings, h.scopes_eq s hs]

theorem SameIn.parent?_eq (h : SameIn A σ₁ σ₂) (hs : s ∈ A) : σ₁.parent? s = σ₂.parent? s := by
  rw [parent?, parent?, h.scopes_eq s hs]

theorem SameIn.childCapacity_eq (h : SameIn A σ₁ σ₂) (hs : s ∈ A) :
    σ₁.childCapacity s = σ₂.childCapacity s := by
  rw [childCapacity, childCapacity, h.scopes_eq s hs]

namespace IsRegion

theorem parent?_mem (h : σ.IsRegion A) (hs : s ∈ A) (hp : σ.parent? s = some t) : t ∈ A := by
  rw [parent?, Option.bind_eq_some_iff] at hp
  obtain ⟨scope, hscope, hp⟩ := hp
  exact h.closed s hs t (holds_iff.2 ⟨scope, hscope, h.alive s hs scope hscope, .inl hp⟩)

/-- The values bound in a region mention scopes of the region alone. -/
theorem mem_of_mentions (h : σ.IsRegion A) (hs : s ∈ A) {v : Value}
    (hv : v ∈ (σ.bindings s).values) (hm : v.mentions t = true) : t ∈ A := by
  cases hscope : σ.scopes[s.index]? with
  | none => simp [bindings, hscope] at hv
  | some scope =>
    rw [bindings, hscope] at hv
    exact h.closed s hs t (holds_iff.2 ⟨scope, hscope, h.alive s hs scope hscope,
      .inr (Table.mentions_iff.2 ⟨v, hv, hm⟩)⟩)

theorem chain_subset (h : σ.IsRegion A) (hs : s ∈ A) : ∀ t ∈ σ.chain s, t ∈ A := by
  fun_induction chain σ s with
  | case1 s p hp hlt ih =>
    intro t ht
    rcases List.mem_cons.1 ht with rfl | ht
    · exact hs
    · exact ih (h.parent?_mem hs hp) t ht
  | case2 s p hp hlt =>
    intro t ht
    rw [List.mem_singleton.1 ht]
    exact hs
  | case3 s hp =>
    intro t ht
    rw [List.mem_singleton.1 ht]
    exact hs

/-- A store that is the same in a region has the region, too. -/
theorem of_sameIn (h : σ₁.IsRegion A) (hsame : SameIn A σ₁ σ₂) : σ₂.IsRegion A where
  alive t ht scope hscope := h.alive t ht scope ((hsame.scopes_eq t ht).trans hscope)
  closed t ht u hu := h.closed t ht u (by rw [holds, hsame.scopes_eq t ht]; exact hu)

end IsRegion

/-! ## Look-ups -/

namespace SameIn

theorem chain_eq (h : SameIn A σ₁ σ₂) (hr : σ₁.IsRegion A) (hs : s ∈ A) :
    σ₁.chain s = σ₂.chain s :=
  chain_congr (P := (· ∈ A)) (fun _ ht => h.parent?_eq ht)
    (fun _ _ ht hp _ => hr.parent?_mem ht hp) hs

theorem resolve_eq (h : SameIn A σ₁ σ₂) (hr : σ₁.IsRegion A) (hs : s ∈ A) (name : String) :
    σ₁.resolve s name = σ₂.resolve s name := by
  rw [resolve, resolve, ← h.chain_eq hr hs]
  have hmem := hr.chain_subset hs
  generalize σ₁.chain s = scopes at hmem ⊢
  induction scopes with
  | nil => rfl
  | cons t rest ih =>
    rw [List.findSome?_cons, List.findSome?_cons, h.bindings_eq (hmem t List.mem_cons_self),
      ih fun u hu => hmem u (List.mem_cons_of_mem t hu)]

theorem owner?_eq (h : SameIn A σ₁ σ₂) (hr : σ₁.IsRegion A) (hs : s ∈ A) (name : String) :
    σ₁.owner? s name = σ₂.owner? s name := by
  rw [owner?, owner?, ← h.chain_eq hr hs]
  have hmem := hr.chain_subset hs
  generalize σ₁.chain s = scopes at hmem ⊢
  induction scopes with
  | nil => rfl
  | cons t rest ih =>
    rw [List.find?_cons, List.find?_cons, h.bindings_eq (hmem t List.mem_cons_self),
      ih fun u hu => hmem u (List.mem_cons_of_mem t hu)]

end SameIn

theorem mem_chain_of_owner? {name : String} (h : σ.owner? s name = some t) : t ∈ σ.chain s :=
  List.mem_of_find?_eq_some h

/-! ## Operations -/

theorem holds_add {capacity childCapacity : Nat} {parent : Option ScopeId}
    (h : (σ.add capacity parent childCapacity).2.holds t s = true) :
    t.index = σ.scopes.size ∧ parent = some s ∨ σ.holds t s = true := by
  obtain ⟨scope, hs, hd, hh⟩ := holds_iff.1 h
  rw [getElem?_scopes_add] at hs
  split at hs
  · next ht =>
    cases hs
    simp only [mentions_withCapacity, Bool.false_eq_true, or_false] at hh
    exact .inl ⟨ht, hh⟩
  · exact .inr (holds_iff.2 ⟨scope, hs, hd, hh⟩)

theorem holds_place {p : Table.SetOutcome × Nat} {key : String} {b : Binding}
    (h : (σ.place s p key b).holds t u = true) :
    s = t ∧ b.value.mentions u = true ∨ σ.holds t u = true := by
  obtain ⟨scope, hs, hd, hh⟩ := holds_iff.1 h
  rw [getElem?_scopes_place] at hs
  split at hs
  · next hst =>
    obtain ⟨old, hold, rfl⟩ := Option.map_eq_some_iff.1 hs
    rcases hh with hp | hm
    · exact .inr (holds_iff.2 ⟨old, hold, hd, .inl hp⟩)
    · rcases mentions_write hm with hm | hm
      · exact .inr (holds_iff.2 ⟨old, hold, hd, .inr hm⟩)
      · exact .inl ⟨ScopeId.index_inj.1 hst, hm⟩
  · exact .inr (holds_iff.2 ⟨scope, hs, hd, hh⟩)

namespace IsRegion

/-- A new scope belongs to the region of its parent. -/
theorem add (h : σ.IsRegion A) (capacity : Nat) {parent : Option ScopeId} (childCapacity : Nat)
    (hp : ∀ p, parent = some p → p ∈ A) :
    (σ.add capacity parent childCapacity).2.IsRegion
      (insert (σ.add capacity parent childCapacity).1 A) where
  alive t ht scope hscope := by
    rw [getElem?_scopes_add] at hscope
    split at hscope
    · cases hscope
      rfl
    · next hne =>
      rcases ht with rfl | ht
      · exact (hne rfl).elim
      · exact h.alive t ht scope hscope
  closed t ht u hu := by
    rcases holds_add hu with ⟨-, hpu⟩ | hu
    · exact .inr (hp u hpu)
    · rcases ht with rfl | ht
      · rw [holds, Array.getElem?_eq_none (by simp)] at hu
        cases hu
      · exact .inr (h.closed t ht u hu)

/-- A value that mentions scopes of a region alone may be bound in the region. -/
theorem place (h : σ.IsRegion A) {p : Table.SetOutcome × Nat} {key : String} {b : Binding}
    (hb : ∀ u, b.value.mentions u = true → u ∈ A) : (σ.place s p key b).IsRegion A where
  alive t ht scope hscope := by
    rw [getElem?_scopes_place] at hscope
    split at hscope
    · obtain ⟨old, hold, rfl⟩ := Option.map_eq_some_iff.1 hscope
      exact h.alive t ht old hold
    · exact h.alive t ht scope hscope
  closed t ht u hu := by
    rcases holds_place hu with ⟨-, hm⟩ | hu
    · exact hb u hm
    · exact h.closed t ht u hu

/-- What is outside a region may be discarded. -/
theorem discard (h : σ.IsRegion A) (hs : s ∉ A) : (σ.discard s).IsRegion A := by
  have hsame : SameIn A σ (σ.discard s) := by
    refine ⟨(size_discard σ s).symm, rfl, fun t ht => ?_⟩
    rw [getElem?_scopes_discard, if_neg]
    intro hst
    exact hs (ScopeId.index_inj.1 hst ▸ ht)
  exact h.of_sameIn hsame

end IsRegion

namespace SameIn

theorem add (h : SameIn A σ₁ σ₂) (capacity : Nat) (parent : Option ScopeId)
    (childCapacity : Nat) :
    SameIn (insert (σ₁.add capacity parent childCapacity).1 A)
      (σ₁.add capacity parent childCapacity).2 (σ₂.add capacity parent childCapacity).2 where
  size_eq := by rw [size_add, size_add, h.size_eq]
  nextObject_eq := h.nextObject_eq
  scopes_eq t ht := by
    rw [getElem?_scopes_add, getElem?_scopes_add, ← h.size_eq]
    split
    · rfl
    · next hne =>
      rcases ht with rfl | ht
      · exact (hne rfl).elim
      · exact h.scopes_eq t ht

theorem place (h : SameIn A σ₁ σ₂) (s : ScopeId) (p : Table.SetOutcome × Nat) (key : String)
    (b : Binding) : SameIn A (σ₁.place s p key b) (σ₂.place s p key b) where
  size_eq := by rw [size_place, size_place, h.size_eq]
  nextObject_eq := h.nextObject_eq
  scopes_eq t ht := by
    rw [getElem?_scopes_place, getElem?_scopes_place, h.scopes_eq t ht]

theorem discard_left (h : SameIn A σ₁ σ₂) (hs : s ∉ A) : SameIn A (σ₁.discard s) σ₂ where
  size_eq := by rw [size_discard, h.size_eq]
  nextObject_eq := h.nextObject_eq
  scopes_eq t ht := by
    rw [getElem?_scopes_discard, if_neg, h.scopes_eq t ht]
    intro hst
    exact hs (ScopeId.index_inj.1 hst ▸ ht)

theorem nextObject (h : SameIn A σ₁ σ₂) (next : Nat) :
    SameIn A { σ₁ with nextObject := next } { σ₂ with nextObject := next } :=
  ⟨h.size_eq, rfl, h.scopes_eq⟩

/-- A name declared on both sides: it fits on both or on none. -/
theorem declare (h : SameIn A σ₁ σ₂) (hr : σ₁.IsRegion A) (hs : s ∈ A) {v : Value}
    (hv : ∀ u, v.mentions u = true → u ∈ A) (name : String) (isConst : Bool) :
    (∃ cause, σ₁.declare s name v isConst = .error cause ∧
        σ₂.declare s name v isConst = .error cause) ∨
      ∃ b σ₁' σ₂', σ₁.declare s name v isConst = .ok (b, σ₁') ∧
        σ₂.declare s name v isConst = .ok (b, σ₂') ∧ σ₁'.IsRegion A ∧ SameIn A σ₁' σ₂' := by
  unfold Store.declare
  rw [← h.bindings_eq hs]
  cases (σ₁.bindings s).place? name with
  | none => exact .inl ⟨_, rfl, rfl⟩
  | some p => exact .inr ⟨_, _, _, rfl, rfl, hr.place hv, h.place s p name _⟩

/-- A variable assigned on both sides: the fault is the same, if there is one. -/
theorem assign (h : SameIn A σ₁ σ₂) (hr : σ₁.IsRegion A) (hs : s ∈ A) {v : Value}
    (hv : ∀ u, v.mentions u = true → u ∈ A) (name : String) :
    (∃ fault, σ₁.assign s name v = .error fault ∧ σ₂.assign s name v = .error fault) ∨
      ∃ b σ₁' σ₂', σ₁.assign s name v = .ok (b, σ₁') ∧ σ₂.assign s name v = .ok (b, σ₂') ∧
        σ₁'.IsRegion A ∧ SameIn A σ₁' σ₂' := by
  unfold Store.assign
  rw [← h.owner?_eq hr hs]
  cases ho : σ₁.owner? s name with
  | none => exact .inl ⟨_, rfl, rfl⟩
  | some t =>
    have ht : t ∈ A := hr.chain_subset hs t (mem_chain_of_owner? ho)
    dsimp only
    rw [← h.bindings_eq ht]
    cases (σ₁.bindings t).locate? name with
    | none => exact .inl ⟨_, rfl, rfl⟩
    | some p =>
      obtain ⟨i, old⟩ := p
      dsimp only
      by_cases hc : old.isConst = true
      · rw [if_pos hc, if_pos hc]
        exact .inl ⟨_, rfl, rfl⟩
      · rw [if_neg hc, if_neg hc]
        exact .inr ⟨_, _, _, rfl, rfl, hr.place hv, h.place t (.overwritten, i) name _⟩

end SameIn

end Store

end Treewalk
