import Treewalk.Proofs.Reach.Realm

/-!
# Reachable scopes

A scope leads to its parent and to the scopes of the functions that are bound in it, directly or in
objects. `Store.Reachable` follows these links from some scopes. What can be reached, with all
scopes made since, is a realm: `Realm.closed_reachable`.

`Host.StaysInReach` says of natives that they keep to what they can reach from the scope of the
call and their arguments.
-/

namespace Treewalk

namespace Store

/-- Whether a scope is the parent of another, or captured by a function bound in it. -/
def Leads (σ : Store) (s t : ScopeId) : Prop :=
  σ.parent? s = some t ∨ ∃ v ∈ (σ.bindings s).values, v.Captures t

/-- Whether a scope can be reached from some scopes. -/
inductive Reachable (σ : Store) (A : Set ScopeId) : ScopeId → Prop
  | start {s : ScopeId} (hs : s ∈ A) : Reachable σ A s
  | step {s t : ScopeId} (h : Reachable σ A s) (ht : σ.Leads s t) : Reachable σ A t

/-- Whether a scope is in a later store and not in an earlier one. -/
def Created (σ σ' : Store) (s : ScopeId) : Prop :=
  σ.scopes.size ≤ s.index ∧ s.index < σ'.scopes.size

/-- What becomes of a store if only some of its scopes are touched: the others are as they were,
and those touched and the new ones lead nowhere else. -/
structure TouchesOnly (σ : Store) (A : Set ScopeId) (σ' : Store) : Prop where
  size_le : σ.scopes.size ≤ σ'.scopes.size
  untouched : ∀ t : ScopeId, t.index < σ.scopes.size → t ∉ A →
    σ'.scopes[t.index]? = σ.scopes[t.index]?
  leads : ∀ s t, (s ∈ A ∨ σ.Created σ' s) → σ'.Leads s t → t ∈ A ∨ σ.Created σ' t

end Store

/-- The scopes handed to a native: the one of the call and those that its arguments capture. -/
def handed (env : ScopeId) (args : List Value) : Set ScopeId :=
  {s | s = env ∨ ∃ v ∈ args, v.Captures s}

/-- The natives of a host touch only scopes that they can reach from what they are handed, as long
as these exist, and their results capture only such scopes and new ones. -/
def Host.StaysInReach {ω : Type} (host : Host ω) : Prop :=
  ∀ (f : NativeFunction) (args : List Value) (env : ScopeId) (σ : Store) (w : ω),
    let A := {t | σ.Reachable (handed env args) t}
    let r := host.call f args env σ w
    (∀ t ∈ A, t.index < σ.scopes.size) →
      σ.TouchesOnly A r.2.1 ∧
        ∀ v, r.1 = .ok v → ∀ s, v.Captures s → s ∈ A ∨ σ.Created r.2.1 s

/-- Where a scope leads depends on what it holds alone. -/
theorem Store.leads_congr {σ σ' : Store} {s : ScopeId}
    (h : σ'.scopes[s.index]? = σ.scopes[s.index]?) (t : ScopeId) :
    σ'.Leads s t ↔ σ.Leads s t := by
  rw [Leads, Leads, parent?, parent?, bindings, bindings, h]

/-! ## Reachable scopes as a realm -/

namespace Realm

variable {R : Realm} {σ σ' : Store} {A : Set ScopeId} {s t : ScopeId} {v : Value}

/-- Some scopes of a store, and all scopes made since. -/
def since (σ : Store) (A : Set ScopeId) (hA : ∀ t ∈ A, t.index < σ.scopes.size) : Realm where
  region := A
  base := σ.scopes.size
  region_lt := hA
  Good _ := True
  good_copied _ _ := trivial

theorem Fits.inside_of_captures {n : Nat} (h : R.Fits n v) (hs : v.Captures s) : R.Inside n s :=
  h.inside s (Value.captures_iff.1 hs)

theorem fits_since {hA : ∀ t ∈ A, t.index < σ.scopes.size} {n : Nat}
    (h : ∀ s, v.Captures s → (since σ A hA).Inside n s) : (since σ A hA).Fits n v :=
  ⟨fun s hs => h s (Value.captures_iff.2 hs), fun _ _ _ => trivial⟩

theorem not_inside_since {hA : ∀ t ∈ A, t.index < σ.scopes.size} (hlt : t.index < σ.scopes.size)
    (ht : t ∉ A) (n : Nat) : ¬(since σ A hA).Inside n t := by
  rintro (hr | ⟨hb, -⟩)
  · exact ht hr
  · exact absurd hlt (Nat.not_lt.2 hb)

/-- A write inside leaves what is outside as it was. -/
theorem getElem?_place_of_not_inside {n : Nat} (hs : R.Inside n s) (ht : ¬R.Inside n t)
    (p : Table.SetOutcome × Nat) (key : String) (b : Binding) :
    (σ.place s p key b).scopes[t.index]? = σ.scopes[t.index]? := by
  rw [Store.getElem?_scopes_place, if_neg]
  intro hst
  exact ht (ScopeId.index_inj.1 hst ▸ hs)

/-- Nothing leads out of a realm in a closed store. -/
theorem Closed.leads (h : R.Closed σ) (hs : R.Inside σ.scopes.size s) (hl : σ.Leads s t) :
    R.Inside σ.scopes.size t := by
  obtain hp | ⟨v, hv, ht⟩ := hl
  · exact h.parent hs hp
  · exact (h.bound hs hv).inside_of_captures ht

theorem closed_since {hA : ∀ t ∈ A, t.index < σ.scopes.size} (hn : σ.scopes.size ≤ σ'.scopes.size)
    (h : ∀ s t, (since σ A hA).Inside σ'.scopes.size s → σ'.Leads s t →
      (since σ A hA).Inside σ'.scopes.size t) : (since σ A hA).Closed σ' where
  base_le := hn
  parent hs hp := h _ _ hs (.inl hp)
  bound hs hv := fits_since fun t ht => h _ t hs (.inr ⟨_, hv, ht⟩)

/-- A set of scopes that leads nowhere else contains all that can be reached from it. -/
theorem Closed.inside_of_reachable (h : R.Closed σ) {B : Set ScopeId}
    (hB : ∀ s ∈ B, R.Inside σ.scopes.size s) (ht : σ.Reachable B t) :
    R.Inside σ.scopes.size t := by
  induction ht with
  | start hs => exact hB _ hs
  | step _ hl ih => exact h.leads ih hl

/-- The realm of what can be reached is closed. -/
theorem closed_reachable (σ : Store) (B : Set ScopeId)
    (hB : ∀ t ∈ {t | σ.Reachable B t}, t.index < σ.scopes.size) :
    (since σ {t | σ.Reachable B t} hB).Closed σ := by
  refine closed_since (Nat.le_refl _) fun s t hs hl => ?_
  obtain hs | ⟨hb, hlt⟩ := hs
  · exact .inl (Store.Reachable.step hs hl)
  · exact absurd hlt (Nat.not_lt.2 hb)

end Realm

end Treewalk
