import Treewalk.Proofs.Table.Probing

/-!
# Tables with changed values

`Table.map` changes every value of a table and leaves the slots where they are. Searches go by keys
alone, so they end at the same slots: what a table does for a key is the same before and after.

* `Table.find?_map` and `Table.place?_map`: a key is found, and can be set, at the same index.
* `Table.get?_map` and `Table.set?_map`: reading and writing commute with the change.
* `Table.wellFormed_map_iff`: a table is as well formed before as after.
-/

namespace Treewalk

variable {α β : Type}

/-- The slot with its value changed. -/
def Slot.map (g : α → β) : Slot α → Slot β
  | .empty => .empty
  | .tombstone => .tombstone
  | .occupied key value => .occupied key (g value)

@[simp] theorem Slot.isOccupied_map (g : α → β) (s : Slot α) :
    (s.map g).isOccupied = s.isOccupied := by
  cases s <;> rfl

theorem Slot.pair?_map (g : α → β) (s : Slot α) :
    (s.map g).pair? = s.pair?.map fun p => (p.1, g p.2) := by
  cases s <;> rfl

namespace Table

/-- The table with every value changed. -/
def map (g : α → β) (t : Table α) : Table β := ⟨t.slots.map (Slot.map g), t.count⟩

variable (g : α → β) (t : Table α) (key : String)

@[simp] theorem capacity_map : (t.map g).capacity = t.capacity := by
  simp [map, capacity]

theorem slot_map (i : Nat) : (t.map g).slot i = (t.slot i).map g := by
  simp only [map, slot, Array.getD_eq_getD_getElem?, Array.getElem?_map]
  cases t.slots[i]? <;> rfl

theorem map_withCapacity (n : Nat) : (withCapacity n : Table α).map g = withCapacity n := by
  simp [map, withCapacity, Slot.map]

theorem map_map {γ : Type} (h : β → γ) : (t.map g).map h = t.map (h ∘ g) := by
  rw [map, map, map, Array.map_map]
  exact congrArg (fun f => (⟨t.slots.map f, t.count⟩ : Table γ))
    (funext fun s => by cases s <;> rfl)

theorem map_put (i : Nat) (s : Slot α) : (t.put i s).map g = (t.map g).put i (s.map g) := by
  simp [map, put, Array.map_setIfInBounds]

theorem map_write (p : SetOutcome × Nat) (value : α) :
    (t.write p key value).map g = (t.map g).write p key (g value) := by
  rw [write, write, capacity_map]
  split
  · exact congrArg (withCount · _) (map_put g t p.2 (.occupied key value))
  · rfl

theorem map_clear (i : Nat) : (t.clear i).map g = (t.map g).clear i :=
  congrArg (withCount · _) (map_put g t i .tombstone)

@[simp] theorem size_map : (t.map g).size = t.size := rfl

@[simp] theorem isFull_map : (t.map g).isFull = t.isFull := by
  rw [isFull, isFull, capacity_map]
  rfl

theorem countP_isOccupied_map :
    (t.map g).slots.countP Slot.isOccupied = t.slots.countP Slot.isOccupied := by
  rw [map, Array.countP_map]
  exact congrArg (t.slots.countP ·) (funext fun s => Slot.isOccupied_map g s)

/-! ## Searches -/

theorem askKey_map (i : Nat) (s : Slot α) : askKey key i (s.map g) = askKey key i s := by
  cases s <;> rfl

theorem askFree_map (i : Nat) (s : Slot α) : askFree i (s.map g) = askFree i s := by
  cases s <;> rfl

@[simp] theorem find?_map : (t.map g).find? key = t.find? key := by
  rw [find?, find?, search_eq_findSome?, search_eq_findSome?, capacity_map]
  simp only [slot_map, askKey_map]

@[simp] theorem free?_map : (t.map g).free? key = t.free? key := by
  rw [free?, free?, search_eq_findSome?, search_eq_findSome?, capacity_map]
  simp only [slot_map, askFree_map]

@[simp] theorem contains_map : (t.map g).contains key = t.contains key := by
  rw [contains, contains, find?_map]

@[simp] theorem place?_map : (t.map g).place? key = t.place? key := by
  rw [place?, place?, isFull_map, find?_map, free?_map]

/-! ## Reading and writing -/

theorem locate?_map :
    (t.map g).locate? key = (t.locate? key).map fun p => (p.1, g p.2) := by
  rw [locate?, locate?, find?_map]
  cases t.find? key with
  | none => rfl
  | some i =>
    simp only [Option.bind_eq_bind, Option.bind_some, slot_map]
    cases t.slot i <;> rfl

theorem get?_map : (t.map g).get? key = (t.get? key).map g := by
  rw [get?, get?, locate?_map]
  cases t.locate? key <;> rfl

theorem set?_map (value : α) :
    (t.map g).set? key (g value) = (t.set? key value).map fun p => (p.1, p.2.map g) := by
  rw [set?, set?, place?_map]
  cases t.place? key with
  | none => rfl
  | some p => exact congrArg (fun u => some (p.1, u)) (map_write g t key p value).symm

theorem entries_map : (t.map g).entries = t.entries.map fun p => (p.1, g p.2) := by
  rw [entries, entries, map, Array.toList_map, List.filterMap_map, List.map_filterMap]
  exact congrArg (t.slots.toList.filterMap ·) (funext fun s => Slot.pair?_map g s)

@[simp] theorem keys_map : (t.map g).keys = t.keys := by
  rw [keys, keys, entries_map, List.map_map]
  rfl

/-- Tables are as equal with changed values as before if the values are. -/
theorem sameBy_map {same : α → α → Bool} {same' : β → β → Bool} (a b : Table α)
    (h : ∀ key v w, (key, v) ∈ a.entries → b.get? key = some w → same' (g v) (g w) = same v w) :
    (a.map g).sameBy same' (b.map g) = a.sameBy same b := by
  rw [sameBy, sameBy, size_map, size_map, entries_map, List.all_map]
  refine congrArg (a.size == b.size && ·) (Bool.eq_iff_iff.2 ?_)
  rw [List.all_eq_true, List.all_eq_true]
  refine forall₂_congr fun ⟨key, v⟩ hv => ?_
  dsimp only [Function.comp_apply]
  rw [get?_map]
  cases hb : b.get? key with
  | none => exact Iff.rfl
  | some w => rw [Option.map_some, Option.any_some, Option.any_some, h key v w hv hb]

/-- Whether keys are found where they live depends on no value. -/
theorem wellFormed_map_iff {t : Table α} : (t.map g).WellFormed ↔ t.WellFormed := by
  constructor
  · refine fun h => ⟨fun {i key v} hs => ?_, ?_⟩
    · rw [← find?_map g]
      exact h.find?_of_slot (by rw [slot_map, hs, Slot.map])
    · rw [← countP_isOccupied_map g]
      exact h.count_eq
  · refine fun h => ⟨fun {i key w} hs => ?_, h.count_eq.trans (countP_isOccupied_map g t).symm⟩
    rw [slot_map] at hs
    cases ht : t.slot i with
    | occupied k v =>
      rw [ht] at hs
      obtain ⟨rfl, -⟩ := Slot.occupied.inj hs
      rw [find?_map, h.find?_of_slot ht]
    | _ => rw [ht] at hs; cases hs

end Table

end Treewalk
