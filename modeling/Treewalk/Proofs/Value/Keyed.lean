import Treewalk.Proofs.Limits.Copy

/-!
# Tables that bind names

In the tables of scopes and of objects every binding stands under its own name. `Table.BindsNames`
says what a reader of such a table can rely on; `Table.IsKeyed` is the same said of the slots, and
is kept by setting a name, by changing a value and by copying.

* `Table.bindsNames_iff`: both say the same.
* `Table.IsKeyed.copied`: the copy of an object has a table like that of the object.
-/

namespace Treewalk.Table

variable {t u : Table Binding} {capacity i : Nat} {p : SetOutcome × Nat} {key : String}
variable {b : Binding}

/-- What holds of a table that binds names: each binding stands under its own name, no name stands
twice, the count is the number of bindings, there are no more bindings than the capacity, and every
name is found. -/
structure BindsNames (capacity : Nat) (t : Table Binding) : Prop where
  capacity_eq : t.capacity = capacity
  name_eq : ∀ key b, (key, b) ∈ t.entries → b.name = key
  nodup_keys : t.keys.Nodup
  size_eq : t.size = t.entries.length
  length_le : t.entries.length ≤ capacity
  get?_eq : ∀ key b, (key, b) ∈ t.entries → t.get? key = some b

/-- A well-formed table of a capacity whose live slots have bindings of their names. -/
structure IsKeyed (capacity : Nat) (t : Table Binding) : Prop where
  capacity_eq : t.capacity = capacity
  wellFormed : t.WellFormed
  name_eq : ∀ {i key b}, t.slot i = .occupied key b → b.name = key

theorem isKeyed_withCapacity (capacity : Nat) : IsKeyed capacity (withCapacity capacity) where
  capacity_eq := capacity_withCapacity capacity
  wellFormed := wellFormed_withCapacity capacity
  name_eq hs := by simp at hs

/-- No key lives in two slots of a table without duplicate keys. -/
theorem slot_unique_of_nodup_keys (h : t.keys.Nodup) {j : Nat} {b' : Binding}
    (hi : t.slot i = .occupied key b) (hj : t.slot j = .occupied key b') : i = j := by
  have hkeys : t.keys = t.slots.toList.filterMap fun s => s.pair?.map Prod.fst := by
    rw [keys, entries, List.map_filterMap]
  rw [hkeys, List.Nodup, List.pairwise_filterMap, List.pairwise_iff_getElem] at h
  have hne : ∀ {i j : Nat} {b b' : Binding}, t.slot i = .occupied key b →
      t.slot j = .occupied key b' → ¬i < j := by
    intro i j b b' hi hj hlt
    obtain ⟨hi', hi⟩ := List.getElem?_eq_some_iff.1 (getElem?_of_slot hi)
    obtain ⟨hj', hj⟩ := List.getElem?_eq_some_iff.1 (getElem?_of_slot hj)
    exact h i j hi' hj' hlt key (by rw [hi]; rfl) key (by rw [hj]; rfl) rfl
  exact Nat.le_antisymm (Nat.le_of_not_lt (hne hj hi)) (Nat.le_of_not_lt (hne hi hj))

theorem bindsNames_iff : t.BindsNames capacity ↔ t.IsKeyed capacity := by
  constructor
  · intro h
    refine ⟨h.capacity_eq, ⟨fun {i key b} hs => ?_, h.size_eq.trans t.countP_isOccupied.symm⟩,
      fun {i key b} hs => h.name_eq key b (mem_entries_iff.2 ⟨i, hs⟩)⟩
    obtain ⟨j, hj, hs'⟩ := get?_eq_some.1 (h.get?_eq key b (mem_entries_iff.2 ⟨i, hs⟩))
    rw [hj, slot_unique_of_nodup_keys h.nodup_keys hs hs']
  · intro h
    refine ⟨h.capacity_eq, fun key b hb => ?_, h.wellFormed.nodup_keys,
      h.wellFormed.size_eq_length_entries, ?_, fun _ _ hb => h.wellFormed.mem_entries.1 hb⟩
    · obtain ⟨i, hs⟩ := mem_entries_iff.1 hb
      exact h.name_eq hs
    · rw [← countP_isOccupied, ← h.capacity_eq]
      exact Array.countP_le_size

namespace IsKeyed

/-- A write under the name of the binding, where the table stays well formed. -/
theorem write (h : t.IsKeyed capacity) (hw : (t.write p key b).WellFormed) (hb : b.name = key) :
    (t.write p key b).IsKeyed capacity where
  capacity_eq := (capacity_write ..).trans h.capacity_eq
  wellFormed := hw
  name_eq hs := by
    rw [slot_write] at hs
    split at hs
    · cases hs
      exact hb
    · exact h.name_eq hs

theorem place (h : t.IsKeyed capacity) (hp : t.place? key = some p) (hb : b.name = key) :
    (t.write p key b).IsKeyed capacity :=
  h.write (h.wellFormed.place hp b) hb

theorem set (h : t.IsKeyed capacity) {outcome : SetOutcome}
    (hs : t.set? key b = some (outcome, u)) (hb : b.name = key) : u.IsKeyed capacity := by
  obtain ⟨p, hp, he⟩ := Option.map_eq_some_iff.1 hs
  obtain ⟨-, rfl⟩ := Prod.mk.inj he
  exact h.place hp hb

/-- Another value for a name that is bound. -/
theorem overwrite (h : t.IsKeyed capacity) (hl : t.locate? key = some (i, b)) (v : Value) :
    (t.write (.overwritten, i) key (b.withValue v)).IsKeyed capacity := by
  obtain ⟨-, hs⟩ := locate?_eq_some.1 hl
  have hb : b.name = key := h.name_eq hs
  exact h.write (h.wellFormed.overwrite hs _) hb

/-- **A copy of an object has a table like that of the object.** -/
theorem copied (h : t.IsKeyed capacity) {n n' : Nat}
    (hc : t.Copied n u n') : u.IsKeyed capacity := by
  obtain ⟨start, hs⟩ := hc.slots.exists_copies
  have hsize : u.slots.size = t.slots.size := by simpa using hs.length_eq
  refine ⟨hsize.trans h.capacity_eq, hc.wellFormed h.wellFormed, fun {i key c} hu => ?_⟩
  rw [hs.slot_eq] at hu
  cases ht : t.slot i with
  | occupied k b =>
    rw [ht] at hu
    obtain ⟨rfl, rfl⟩ := Slot.occupied.inj hu
    have hb : b.name = k := h.name_eq ht
    exact hb
  | _ => rw [ht] at hu; cases hu

end IsKeyed

end Treewalk.Table
