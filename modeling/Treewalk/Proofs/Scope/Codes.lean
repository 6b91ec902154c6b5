import Mathlib.Data.Set.Lattice
import Treewalk.Proofs.Scope.Binds
import Treewalk.Proofs.Simulation.Basic
import Treewalk.Proofs.Value.Copy

/-!
# The code within reach

The code of the functions in a value, and of those in the values bound in a store. Code comes into
a store only with the values that are bound there: scopes made and left, copies and new objects
bring none.

* `Value.codes_copy_subset`, `Value.codes_property_subset`: values made of values.
* `Store.codes_declare_subset`, `Store.codes_assign_subset`, `Store.codes_leave_subset`: what the
  operations on stores do.
* `Host.BringsNoCode` is what natives that bring in no code keep to.
-/

namespace Treewalk

/-! ## Values -/

namespace Value

/-- The code of a value, if it is a function, and of those nested in it. -/
def codes (v : Value) : Set Code := {c | ∃ f : Closure, Nested (.function f) v ∧ f.code = c}

variable {v : Value} {C : Set Code}

theorem codes_function (f : Closure) : (function f).codes = {f.code} := by
  ext c
  constructor
  · rintro ⟨g, hg, rfl⟩
    cases hg
    rfl
  · rintro rfl
    exact ⟨f, .self, rfl⟩

theorem codes_of_isPlain (h : v.IsPlain) : v.codes = ∅ := by
  refine Set.eq_empty_of_forall_notMem ?_
  rintro c ⟨f, hf, -⟩
  cases hf <;> exact h

theorem codes_subset_of_isPlain (h : v.IsPlain) : v.codes ⊆ C := by
  rw [codes_of_isPlain h]
  exact Set.empty_subset C

theorem codes_object (id : ObjectId) (t : Table Binding) :
    (object id t).codes = ⋃ v ∈ t.values, v.codes := by
  ext c
  simp only [Set.mem_iUnion]
  constructor
  · rintro ⟨f, hf, rfl⟩
    cases hf with
    | bound hv hf => exact ⟨_, hv, f, hf, rfl⟩
  · rintro ⟨v, hv, f, hf, rfl⟩
    exact ⟨f, .bound hv hf, rfl⟩

theorem codes_object_subset {id : ObjectId} {t : Table Binding} :
    (object id t).codes ⊆ C ↔ ∀ v ∈ t.values, v.codes ⊆ C := by
  simp only [codes_object, Set.iUnion_subset_iff]

theorem codes_property_subset {o : Value} {key : String} (h : o.property key = .ok v) :
    v.codes ⊆ o.codes := by
  unfold property at h
  split at h
  · split at h
    · next id t b hb =>
      cases h
      exact codes_object_subset.1 (Set.Subset.refl _) _ (Table.mem_values_of_get? hb)
    · cases h
  · cases h

end Value

theorem Value.codes_copy_subset (v : Value) (n : Nat) : (v.copy n).1.codes ⊆ v.codes := by
  induction v using Value.induction generalizing n with
  | leaf v hv => rw [copy_leaf hv]
  | object id t ih =>
    obtain ⟨u, n', hs, hc⟩ := copy_object id t n
    rw [hc, codes_object_subset]
    intro v hv
    obtain ⟨w, hw, k, rfl⟩ := hs.slots.exists_of_mem hv
    exact (ih w hw k).trans (codes_object_subset.1 (Set.Subset.refl _) w hw)

/-! ## Stores -/

namespace Store

/-- The code of the functions in the values bound. -/
def codes (σ : Store) : Set Code := ⋃ s, ⋃ v ∈ (σ.bindings s).values, v.codes

variable {σ σ' : Store} {s : ScopeId} {C : Set Code}

theorem codes_subset_iff : σ.codes ⊆ C ↔ σ.Binds fun v => v.codes ⊆ C := by
  simp only [codes, Binds, Set.iUnion_subset_iff]

theorem codes_empty_subset (C : Set Code) : Store.empty.codes ⊆ C := codes_subset_iff.2 binds_empty

theorem codes_add_subset (h : σ.codes ⊆ C) (capacity : Nat) (parent : Option ScopeId)
    (childCapacity : Nat) : (σ.add capacity parent childCapacity).2.codes ⊆ C :=
  codes_subset_iff.2 ((codes_subset_iff.1 h).add capacity parent childCapacity)

theorem codes_declare_subset {name : String} {v : Value} {isConst : Bool} {b : Binding}
    (h : σ.codes ⊆ C) (hv : v.codes ⊆ C) (hd : σ.declare s name v isConst = .ok (b, σ')) :
    σ'.codes ⊆ C :=
  codes_subset_iff.2 ((codes_subset_iff.1 h).declare hv hd)

theorem codes_assign_subset {name : String} {v : Value} {b : Binding} (h : σ.codes ⊆ C)
    (hv : v.codes ⊆ C) (ha : σ.assign s name v = .ok (b, σ')) :
    σ'.codes ⊆ C ∧ b.value.codes ⊆ C :=
  ((codes_subset_iff.1 h).assign hv ha).imp_left codes_subset_iff.2

theorem codes_leave_subset (h : σ.codes ⊆ C) (outside : List Held) (s : ScopeId) :
    (σ.leave outside s).codes ⊆ C :=
  codes_subset_iff.2 ((codes_subset_iff.1 h).leave outside s)

theorem codes_resolve_subset {name : String} {b : Binding} (h : σ.codes ⊆ C)
    (hb : σ.resolve s name = some b) : b.value.codes ⊆ C :=
  (codes_subset_iff.1 h).resolve hb

theorem codes_lookup_subset {name : String} {v : Value} (h : σ.codes ⊆ C)
    (hv : σ.lookup s name = .ok v) : v.codes ⊆ C :=
  (codes_subset_iff.1 h).lookup hv

theorem codes_bindParameters_subset {bindings : List (String × Value)} (h : σ.codes ⊆ C)
    (hb : ∀ b ∈ bindings, b.2.codes ⊆ C) : (σ.bindParameters s bindings).1.codes ⊆ C := by
  induction bindings generalizing σ with
  | nil => exact h
  | cons b rest ih =>
    obtain ⟨param, arg⟩ := b
    have harg : (σ.copy arg).1.codes ⊆ C :=
      (arg.codes_copy_subset _).trans (hb _ List.mem_cons_self)
    rw [bindParameters]
    dsimp only
    split
    · next hd =>
      exact ih (codes_declare_subset (σ := (σ.copy arg).2) h harg hd) fun b hm =>
        hb b (List.mem_cons_of_mem _ hm)
    · exact h

end Store

/-- Natives bring in no code: what they leave within reach was within reach before. -/
def Host.BringsNoCode {ω : Type} (host : Host ω) (codes : ω → Set Code) : Prop :=
  ∀ (C : Set Code) f args env σ w, σ.codes ⊆ C → codes w ⊆ C → (∀ v ∈ args, v.codes ⊆ C) →
    let a := host.call f args env σ w
    (∀ v, a.1 = .ok v → v.codes ⊆ C) ∧ a.2.1.codes ⊆ C ∧ codes a.2.2 ⊆ C

end Treewalk
