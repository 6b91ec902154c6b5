import Mathlib.Data.Set.Insert
import Treewalk.Proofs.Scope.Binds
import Treewalk.Proofs.Simulation.Basic
import Treewalk.Proofs.Value.Copy

/-!
# Realms

A realm is what an evaluation can get hold of: some of the scopes that were there before, all
scopes made since, and objects with tables of some kind. A store is closed for a realm if nothing
in the realm leads out of it, be it a parent, or a function bound in a scope or nested in an object
that is. Every operation on names of the realm keeps the store closed.

* `Value.captures_iff`: the scopes that the functions nested in a value capture are its handles.
* `Realm.Closed.place`, `Realm.Closed.add` and `Realm.Closed.discard` for stores,
  `Realm.Fits.copy` and `Realm.Closed.fits_resolve` for values.
-/

namespace Treewalk

/-- Whether a function nested in a value was declared in a scope. -/
def Value.Captures (v : Value) (s : ScopeId) : Prop :=
  ∃ f : Closure, Nested (.function f) v ∧ f.scope = s

theorem Value.captures_iff {v : Value} {s : ScopeId} : v.Captures s ↔ s ∈ v.scopes := by
  induction v using Value.induction with
  | leaf v hv =>
    constructor
    · rintro ⟨f, hf, rfl⟩
      cases hf with
      | self => exact List.mem_singleton.2 rfl
      | bound => exact (hv rfl).elim
    · intro hs
      cases v with
      | function f => exact ⟨f, .self, (List.mem_singleton.1 hs).symm⟩
      | object => exact (hv rfl).elim
      | _ => exact (List.not_mem_nil hs).elim
  | object id t ih =>
    rw [scopes_object, List.mem_flatMap]
    constructor
    · rintro ⟨f, hf, rfl⟩
      cases hf with
      | bound hv hf => exact ⟨_, hv, (ih _ hv).1 ⟨f, hf, rfl⟩⟩
    · rintro ⟨v, hv, hs⟩
      obtain ⟨f, hf, rfl⟩ := (ih v hv).2 hs
      exact ⟨f, .bound hv hf, rfl⟩

/-- Old scopes, the number of the first new one, and a kind of tables of objects. -/
structure Realm where
  region : Set ScopeId
  base : Nat
  region_lt : ∀ s ∈ region, s.index < base
  Good : Table Binding → Prop
  good_copied : ∀ {t u : Table Binding} {n n' : Nat}, t.Copied n u n' → Good t → Good u

namespace Realm

variable {R : Realm} {n n' : Nat} {s p : ScopeId} {v : Value} {σ : Store}

/-- Whether a scope is in the realm, with a number of scopes made. -/
def Inside (R : Realm) (n : Nat) (s : ScopeId) : Prop :=
  s ∈ R.region ∨ R.base ≤ s.index ∧ s.index < n

/-- Whether all that a value holds is in the realm, with a number of scopes made. -/
structure Fits (R : Realm) (n : Nat) (v : Value) : Prop where
  inside : ∀ s ∈ v.scopes, R.Inside n s
  good : ∀ id t, Value.Nested (.object id t) v → R.Good t

/-- Whether nothing leads out of a realm. -/
structure Closed (R : Realm) (σ : Store) : Prop where
  base_le : R.base ≤ σ.scopes.size
  parent : ∀ {s p}, R.Inside σ.scopes.size s → σ.parent? s = some p → R.Inside σ.scopes.size p
  bound : ∀ {s v}, R.Inside σ.scopes.size s → v ∈ (σ.bindings s).values → R.Fits σ.scopes.size v

/-! ## Values -/

theorem Inside.mono (h : R.Inside n s) (hn : n ≤ n') : R.Inside n' s :=
  h.imp_right fun ⟨hb, hs⟩ => ⟨hb, hs.trans_le hn⟩

theorem Inside.index_lt (h : R.Inside n s) (hn : R.base ≤ n) : s.index < n := by
  obtain hs | ⟨-, hs⟩ := h
  · exact (R.region_lt s hs).trans_le hn
  · exact hs

namespace Fits

theorem mono (h : R.Fits n v) (hn : n ≤ n') : R.Fits n' v :=
  ⟨fun s hs => (h.inside s hs).mono hn, h.good⟩

theorem leaf (hv : v.type ≠ .object) (hs : ∀ s ∈ v.scopes, R.Inside n s) : R.Fits n v := by
  refine ⟨hs, fun id t hn => ?_⟩
  cases hn with
  | self => exact (hv rfl).elim
  | bound => exact (hv rfl).elim

theorem plain (hv : v.IsPlain) : R.Fits n v := by
  refine leaf ?_ fun s hs => ?_
  · cases v <;> first | exact hv.elim | simp [Value.type]
  · cases v <;> first | exact hv.elim | exact (List.not_mem_nil hs).elim

theorem function {f : Closure} (hf : R.Inside n f.scope) : R.Fits n (.function f) :=
  leaf (by simp [Value.type]) fun _ hs => List.mem_singleton.1 hs ▸ hf

/-- An object fits if its table and the values bound in it do. -/
theorem object {id : ObjectId} {t : Table Binding} (ht : R.Good t)
    (hv : ∀ v ∈ t.values, R.Fits n v) : R.Fits n (.object id t) := by
  refine ⟨fun s hs => ?_, fun id' t' hn => ?_⟩
  · rw [Value.scopes_object, List.mem_flatMap] at hs
    obtain ⟨v, hm, hs⟩ := hs
    exact (hv v hm).inside s hs
  · cases hn with
    | self => exact ht
    | bound hm hn => exact (hv _ hm).good id' t' hn

theorem of_mem_values {id : ObjectId} {t : Table Binding} (h : R.Fits n (.object id t))
    (hv : v ∈ t.values) : R.Fits n v := by
  refine ⟨fun s hs => h.inside s ?_, fun id' t' hn => h.good id' t' (.bound hv hn)⟩
  rw [Value.scopes_object, List.mem_flatMap]
  exact ⟨v, hv, hs⟩

theorem copy (h : R.Fits n v) (next : Nat) : R.Fits n (v.copy next).1 := by
  refine ⟨fun s hs => h.inside s (by rwa [Value.scopes_copy] at hs), fun id u hn => ?_⟩
  obtain ⟨id', t, m, m', ht, hc⟩ := Value.exists_copied_of_nested hn
  exact R.good_copied hc (h.good id' t ht)

end Fits

/-! ## Stores -/

namespace Closed

theorem add (h : R.Closed σ) (capacity : Nat) (parent : Option ScopeId) (childCapacity : Nat)
    (hparent : ∀ p ∈ parent, R.Inside σ.scopes.size p) :
    R.Closed (σ.add capacity parent childCapacity).2 where
  base_le := by
    rw [Store.size_add]
    exact h.base_le.trans (Nat.le_succ _)
  parent {s p} hs hp := by
    rw [Store.size_add] at hs ⊢
    rw [Store.parent?_add] at hp
    split at hp
    · exact (hparent p hp).mono (Nat.le_succ _)
    · next hne =>
      have hs : R.Inside σ.scopes.size s := hs.imp_right fun ⟨hb, hlt⟩ => ⟨hb, by omega⟩
      exact (h.parent hs hp).mono (Nat.le_succ _)
  bound {s v} hs hv := by
    rw [Store.size_add] at hs ⊢
    rw [Store.bindings_add] at hv
    split at hv
    · simp at hv
    · next hne =>
      have hs : R.Inside σ.scopes.size s := hs.imp_right fun ⟨hb, hlt⟩ => ⟨hb, by omega⟩
      exact (h.bound hs hv).mono (Nat.le_succ _)

theorem child (h : R.Closed σ) (hs : R.Inside σ.scopes.size s) : R.Closed (σ.child s).2 :=
  h.add _ _ _ (by rintro p ⟨⟩; exact hs)

theorem place (h : R.Closed σ) {p : Table.SetOutcome × Nat} {key : String} {b : Binding}
    (hb : R.Fits σ.scopes.size b.value) (s : ScopeId) : R.Closed (σ.place s p key b) where
  base_le := by
    rw [Store.size_place]
    exact h.base_le
  parent {t p} ht hp := by
    rw [Store.size_place] at ht ⊢
    rw [Store.parent?_place] at hp
    exact h.parent ht hp
  bound {t v} ht hv := by
    rw [Store.size_place] at ht ⊢
    rw [Store.bindings_place] at hv
    split at hv
    · rcases Table.mem_values_write hv with rfl | hv
      · exact hb
      · exact h.bound ht hv
    · exact h.bound ht hv

theorem discard (h : R.Closed σ) (s : ScopeId) : R.Closed (σ.discard s) where
  base_le := by
    rw [Store.size_discard]
    exact h.base_le
  parent {t p} ht hp := by
    rw [Store.size_discard] at ht ⊢
    rw [Store.parent?_discard] at hp
    exact h.parent ht hp
  bound {t v} ht hv := by
    rw [Store.size_discard] at ht ⊢
    rw [Store.bindings_discard] at hv
    split at hv
    · simp at hv
    · exact h.bound ht hv

theorem number (h : R.Closed σ) (next : Nat) : R.Closed { σ with nextObject := next } :=
  ⟨h.base_le, h.parent, h.bound⟩

theorem inside_of_mem_chain (h : R.Closed σ) (hs : R.Inside σ.scopes.size s) :
    ∀ t ∈ σ.chain s, R.Inside σ.scopes.size t := by
  fun_induction σ.chain s with
  | case1 s p hp hlt ih =>
    intro t ht
    rcases List.mem_cons.1 ht with rfl | ht
    · exact hs
    · exact ih (h.parent hs hp) t ht
  | case2 | case3 =>
    intro t ht
    exact List.mem_singleton.1 ht ▸ hs

/-- What a name means in a scope of the realm is in the realm. -/
theorem fits_resolve (h : R.Closed σ) (hs : R.Inside σ.scopes.size s) {name : String}
    {b : Binding} (hb : σ.resolve s name = some b) : R.Fits σ.scopes.size b.value := by
  obtain ⟨t, ht, hv⟩ := Store.mem_values_of_resolve hb
  exact h.bound (h.inside_of_mem_chain hs t ht) hv

variable {σ' : Store} {name : String} {b : Binding}

theorem declare (h : R.Closed σ) {isConst : Bool} (hv : R.Fits σ.scopes.size v)
    (hd : σ.declare s name v isConst = .ok (b, σ')) : R.Closed σ' := by
  obtain ⟨-, p, -, rfl⟩ := Store.declare_eq_ok hd
  exact h.place hv s

theorem assign (h : R.Closed σ) (hv : R.Fits σ.scopes.size v)
    (ha : σ.assign s name v = .ok (b, σ')) : R.Closed σ' := by
  obtain ⟨t, i, old, -, -, -, -, rfl⟩ := Store.assign_eq_ok ha
  exact h.place hv t

end Closed

end Realm

end Treewalk
