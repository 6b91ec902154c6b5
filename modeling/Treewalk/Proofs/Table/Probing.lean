import Mathlib.Data.List.Nodup
import Treewalk.Table.Basic

/-!
# What a search in a table finds

In a well-formed table every live key is found in the slot where it lives. Collisions, wrapping
around and tombstones are all in this one property: a search for a key stops neither at an unused
slot nor at another slot of the same key before it comes to the slot asked for. Besides, the count
that the table keeps is the number of its live slots.

* `Table.WellFormed` holds of a table of unused slots and is kept by every write:
  `WellFormed.insert`, `WellFormed.overwrite` and `WellFormed.remove`.
* `WellFormed.get?_eq_some_iff`, a look-up sees the live entries and nothing else.
* `WellFormed.place?_eq_none_iff`, a key can be set unless every slot is live: what the count says
  of that is right.
-/

namespace Treewalk.Table

variable {α : Type}

/-! ## The probe sequence -/

theorem home_lt {capacity : Nat} (key : String) (h : 0 < capacity) :
    home key capacity < capacity := by
  rw [home, Nat.max_eq_left h]
  exact Nat.mod_lt _ h

theorem probe_lt {start capacity step : Nat} (h : 0 < capacity) :
    probe start capacity step < capacity := Nat.mod_lt _ h

/-- A step within the capacity that leads from a start to a slot. -/
theorem exists_probe_eq {start capacity i : Nat} (hs : start < capacity) (hi : i < capacity) :
    ∃ step < capacity, probe start capacity step = i := by
  by_cases h : start ≤ i
  · exact ⟨i - start, by omega, by rw [probe, Nat.add_sub_cancel' h, Nat.mod_eq_of_lt hi]⟩
  · refine ⟨capacity - start + i, by omega, ?_⟩
    rw [probe, show start + (capacity - start + i) = i + capacity by omega, Nat.add_mod_right,
      Nat.mod_eq_of_lt hi]

theorem mem_probes {key : String} {capacity i : Nat} :
    i ∈ probes (home key capacity) capacity ↔ i < capacity := by
  rw [probes, List.mem_map]
  constructor
  · rintro ⟨step, hstep, rfl⟩
    exact probe_lt (Nat.zero_lt_of_lt (List.mem_range.1 hstep))
  · intro hi
    obtain ⟨step, hstep, rfl⟩ := exists_probe_eq (home_lt key (Nat.zero_lt_of_lt hi)) hi
    exact ⟨step, List.mem_range.2 hstep, rfl⟩

/-! ## Slots -/

@[simp] theorem slot_withCapacity (n i : Nat) : (withCapacity n : Table α).slot i = .empty := by
  simp [slot, withCapacity, Array.getD_eq_getD_getElem?, Array.getElem?_replicate]
  split <;> rfl

theorem slot_put (t : Table α) (i j : Nat) (s : Slot α) :
    (t.put i s).slot j = if i = j ∧ j < t.capacity then s else t.slot j := by
  simp only [slot, put, capacity, Array.getD_eq_getD_getElem?, Array.getElem?_setIfInBounds]
  by_cases h : i = j
  · subst h
    by_cases hi : i < t.slots.size
    · simp [hi]
    · simp [hi]
  · simp [h]

theorem slot_write (t : Table α) (p : SetOutcome × Nat) (key : String) (v : α) (j : Nat) :
    (t.write p key v).slot j =
      if p.2 = j ∧ j < t.capacity then .occupied key v else t.slot j := by
  rw [← slot_put, slot, slot, slots_write]

theorem slot_clear (t : Table α) (i j : Nat) :
    (t.clear i).slot j = if i = j ∧ j < t.capacity then .tombstone else t.slot j := by
  rw [← slot_put]
  rfl

theorem lt_capacity_of_slot {t : Table α} {i : Nat} (h : t.slot i ≠ .empty) : i < t.capacity := by
  by_contra hi
  exact h (by rw [slot, Array.getD_eq_getD_getElem?,
    Array.getElem?_eq_none (Nat.le_of_not_lt hi), Option.getD_none])

theorem mem_slots_iff {t : Table α} {s : Slot α} (hs : s ≠ .empty) :
    s ∈ t.slots.toList ↔ ∃ i, t.slot i = s := by
  rw [Array.mem_toList_iff, Array.mem_iff_getElem?]
  constructor
  · rintro ⟨i, hi⟩
    exact ⟨i, by rw [slot, Array.getD_eq_getD_getElem?, hi, Option.getD_some]⟩
  · rintro ⟨i, hi⟩
    have hlt : i < t.slots.size := lt_capacity_of_slot (hi ▸ hs)
    refine ⟨i, ?_⟩
    rw [slot, Array.getD_eq_getD_getElem?, Array.getElem?_eq_getElem hlt, Option.getD_some] at hi
    rw [Array.getElem?_eq_getElem hlt, hi]

theorem mem_entries_iff {t : Table α} {key : String} {v : α} :
    (key, v) ∈ t.entries ↔ ∃ i, t.slot i = .occupied key v := by
  rw [← mem_slots_iff (by simp), entries, List.mem_filterMap]
  constructor
  · rintro ⟨s, hs, hp⟩
    cases s <;> simp_all [Slot.pair?]
  · exact fun h => ⟨_, h, rfl⟩

/-! ## Searching -/

/-- The answer of a search that finds a key. -/
theorem askKey_eq_some_some {key : String} {i j : Nat} {s : Slot α} :
    askKey key i s = some (some j) ↔ i = j ∧ ∃ v, s = .occupied key v := by
  cases s with
  | empty => simp [askKey]
  | tombstone => simp [askKey]
  | occupied k v => by_cases h : k = key <;> simp [askKey, h]

theorem askFree_eq_some {i j : Nat} {s : Slot α} :
    askFree i s = some j ↔ i = j ∧ s.isOccupied = false := by
  cases s <;> simp [askFree, Slot.isOccupied]

theorem askFree_eq_none {i : Nat} {s : Slot α} : askFree i s = none ↔ s.isOccupied = true := by
  cases s <;> simp [askFree, Slot.isOccupied]

/-- A key is found in a slot if the slots asked before neither hold the key nor are unused. -/
theorem find?_eq_some_iff {t : Table α} {key : String} {i : Nat} :
    t.find? key = some i ↔
      ∃ before after, probes (home key t.capacity) t.capacity = before ++ i :: after ∧
        (∃ v, t.slot i = .occupied key v) ∧ ∀ j ∈ before, askKey key j (t.slot j) = none := by
  rw [find?, Option.join_eq_some_iff, search_eq_findSome?, List.findSome?_eq_some_iff]
  constructor
  · rintro ⟨before, j, after, hl, hj, hb⟩
    obtain ⟨rfl, hv⟩ := askKey_eq_some_some.1 hj
    exact ⟨before, after, hl, hv, hb⟩
  · rintro ⟨before, after, hl, hv, hb⟩
    exact ⟨before, i, after, hl, askKey_eq_some_some.2 ⟨rfl, hv⟩, hb⟩

theorem exists_slot_of_find? {t : Table α} {key : String} {i : Nat} (h : t.find? key = some i) :
    ∃ v, t.slot i = .occupied key v := by
  obtain ⟨before, after, -, hv, -⟩ := find?_eq_some_iff.1 h
  exact hv

/-- What a search finds depends on the answers of the slots alone. -/
theorem find?_congr {t u : Table α} {key : String} (hc : t.capacity = u.capacity)
    (h : ∀ i, askKey key i (t.slot i) = askKey key i (u.slot i)) : t.find? key = u.find? key := by
  rw [find?, find?, search_eq_findSome?, search_eq_findSome?, hc]
  simp only [h]

/-- The slot for a new key is the first one asked that is not live. -/
theorem free?_eq_some_iff {t : Table α} {key : String} {i : Nat} :
    t.free? key = some i ↔
      ∃ before after, probes (home key t.capacity) t.capacity = before ++ i :: after ∧
        (t.slot i).isOccupied = false ∧ ∀ j ∈ before, (t.slot j).isOccupied = true := by
  rw [free?, search_eq_findSome?, List.findSome?_eq_some_iff]
  simp only [askFree_eq_none]
  constructor
  · rintro ⟨before, j, after, hl, hj, hb⟩
    obtain ⟨rfl, hf⟩ := askFree_eq_some.1 hj
    exact ⟨before, after, hl, hf, hb⟩
  · rintro ⟨before, after, hl, hf, hb⟩
    exact ⟨before, i, after, hl, askFree_eq_some.2 ⟨rfl, hf⟩, hb⟩

/-- There is a slot for a new key if a slot is not live: the probe sequence passes all. -/
theorem exists_free? {t : Table α} (key : String) {i : Nat} (hi : i < t.capacity)
    (hf : (t.slot i).isOccupied = false) : ∃ j, t.free? key = some j := by
  rw [← Option.isSome_iff_exists, free?, search_eq_findSome?, List.findSome?_isSome_iff]
  exact ⟨i, mem_probes.2 hi, by rw [askFree_eq_some.2 ⟨rfl, hf⟩]; rfl⟩

theorem free?_spec {t : Table α} {key : String} {i : Nat} (h : t.free? key = some i) :
    i < t.capacity ∧ (t.slot i).isOccupied = false := by
  obtain ⟨before, after, hl, hf, -⟩ := free?_eq_some_iff.1 h
  refine ⟨?_, hf⟩
  rw [← @mem_probes key, hl]
  simp

/-- A key that is nowhere is found in the first slot that is not live, once it is put there. All
slots asked before are live and hold other keys. -/
theorem find?_write_free {t : Table α} {key : String} {p : SetOutcome × Nat}
    (hn : t.find? key = none) (hf : t.free? key = some p.2) (v : α) :
    (t.write p key v).find? key = some p.2 := by
  obtain ⟨before, after, hl, -, hb⟩ := free?_eq_some_iff.1 hf
  obtain ⟨hi, hdead⟩ := free?_spec hf
  have hnone : ∀ j ∈ before, askKey key j (t.slot j) = none := by
    by_contra hc
    push Not at hc
    have hsome : (before.findSome? fun j => askKey key j (t.slot j)).isSome := by
      rw [List.findSome?_isSome_iff]
      obtain ⟨j, hj, hne⟩ := hc
      exact ⟨j, hj, Option.isSome_iff_ne_none.2 hne⟩
    obtain ⟨answer, ha⟩ := Option.isSome_iff_exists.1 hsome
    obtain ⟨j, hj, hja⟩ := List.exists_of_findSome?_eq_some ha
    have hocc := hb j hj
    have hfound : t.find? key = answer := by
      rw [find?, search_eq_findSome?, hl, List.findSome?_append, ha]
      rfl
    cases hs : t.slot j <;> simp_all [askKey, Slot.isOccupied]
  refine find?_eq_some_iff.2 ⟨before, after, by rw [capacity_write, hl], ⟨v, ?_⟩, ?_⟩
  · rw [slot_write, if_pos ⟨rfl, hi⟩]
  · intro j hj
    have hne : p.2 ≠ j := by
      rintro rfl
      simp [hb _ hj] at hdead
    rw [slot_write, if_neg (fun hc => hne hc.1)]
    exact hnone j hj

/-- A search for a live key does not stop at the slot that a new key takes. -/
theorem find?_write_of_ne {t : Table α} {key k : String} {p : SetOutcome × Nat} {j : Nat}
    (hk : t.find? k = some j) (hp : (t.slot p.2).isOccupied = false) (hne : key ≠ k) (v : α) :
    (t.write p key v).find? k = some j := by
  obtain ⟨before, after, hl, ⟨u, hu⟩, hb⟩ := find?_eq_some_iff.1 hk
  have hij : p.2 ≠ j := by
    rintro rfl
    simp [hu, Slot.isOccupied] at hp
  refine find?_eq_some_iff.2 ⟨before, after, by rw [capacity_write, hl], ⟨u, ?_⟩, ?_⟩
  · rw [slot_write, if_neg fun hm => hij hm.1, hu]
  · intro m hm
    rw [slot_write]
    split
    · simp [askKey, hne]
    · exact hb m hm

/-- A search meets the same answers when the value of a live slot is replaced. -/
theorem find?_overwrite {t : Table α} {key : String} {p : SetOutcome × Nat} {v : α}
    (hs : t.slot p.2 = .occupied key v) (w : α) (k : String) :
    (t.write p key w).find? k = t.find? k := by
  refine find?_congr (capacity_write ..) fun m => ?_
  rw [slot_write]
  split
  · next hm => rw [← hm.1, hs]; rfl
  · rfl

/-- The keys are the same when the value of a live slot is replaced. -/
theorem keys_overwrite {t : Table α} {key : String} {p : SetOutcome × Nat} {v : α}
    (hs : t.slot p.2 = .occupied key v) (w : α) : (t.write p key w).keys = t.keys := by
  have hi : p.2 < t.slots.size := lt_capacity_of_slot (by simp [hs])
  have hkeys : ∀ u : Table α,
      u.keys = (u.slots.toList.map fun s => s.pair?.map Prod.fst).filterMap id := by
    intro u
    rw [keys, entries, List.map_filterMap, List.filterMap_map]
    rfl
  have hget : t.slots[p.2] = .occupied key v := by
    rw [← hs, slot, Array.getD_eq_getD_getElem?, Array.getElem?_eq_getElem hi, Option.getD_some]
  rw [hkeys, hkeys, slots_write, put, Array.toList_setIfInBounds, List.map_set]
  congr 1
  refine List.ext_getElem (by simp) fun j hj hj' => ?_
  rw [List.getElem_set]
  split
  · next hij =>
    subst hij
    simp [hget, Slot.pair?]
  · rfl

/-! ## Look-ups -/

theorem locate?_eq_some {t : Table α} {key : String} {i : Nat} {v : α} :
    t.locate? key = some (i, v) ↔ t.find? key = some i ∧ t.slot i = .occupied key v := by
  simp only [locate?, Option.bind_eq_bind, Option.bind_eq_some_iff]
  constructor
  · rintro ⟨j, hj, ⟨k, w⟩, hp, he⟩
    obtain ⟨u, hu⟩ := exists_slot_of_find? hj
    simp only [hu, Slot.pair?, Option.some.injEq, Prod.mk.injEq] at hp he
    obtain ⟨rfl, rfl⟩ := hp
    obtain ⟨rfl, rfl⟩ := he
    exact ⟨hj, hu⟩
  · rintro ⟨hi, hs⟩
    exact ⟨i, hi, (key, v), by rw [hs]; rfl, rfl⟩

theorem get?_eq_some {t : Table α} {key : String} {v : α} :
    t.get? key = some v ↔ ∃ i, t.find? key = some i ∧ t.slot i = .occupied key v := by
  rw [get?, Option.map_eq_some_iff]
  constructor
  · rintro ⟨⟨i, w⟩, hl, rfl⟩
    exact ⟨i, locate?_eq_some.1 hl⟩
  · rintro ⟨i, hi⟩
    exact ⟨(i, v), locate?_eq_some.2 hi, rfl⟩

theorem contains_eq (t : Table α) (key : String) : t.contains key = (t.get? key).isSome := by
  rw [contains, Bool.eq_iff_iff, Option.isSome_iff_exists, Option.isSome_iff_exists]
  constructor
  · rintro ⟨i, hi⟩
    obtain ⟨v, hv⟩ := exists_slot_of_find? hi
    exact ⟨v, get?_eq_some.2 ⟨i, hi, hv⟩⟩
  · rintro ⟨v, hv⟩
    obtain ⟨i, hi, -⟩ := get?_eq_some.1 hv
    exact ⟨i, hi⟩

@[simp] theorem get?_withCapacity (n : Nat) (key : String) :
    (withCapacity n : Table α).get? key = none := by
  rw [Option.eq_none_iff_forall_ne_some]
  intro v hv
  obtain ⟨i, -, hs⟩ := get?_eq_some.1 hv
  simp at hs

/-- A look-up after the value that it finds for a key was replaced. -/
theorem get?_overwrite {t : Table α} {key : String} {p : SetOutcome × Nat}
    (hi : t.find? key = some p.2) (w : α) (k : String) :
    (t.write p key w).get? k = if key = k then some w else t.get? k := by
  obtain ⟨v, hv⟩ := exists_slot_of_find? hi
  have hlt : p.2 < t.capacity := lt_capacity_of_slot (by simp [hv])
  split
  · next he =>
    subst he
    exact get?_eq_some.2
      ⟨p.2, by rw [find?_overwrite hv, hi], by rw [slot_write, if_pos ⟨rfl, hlt⟩]⟩
  · next hne =>
    refine Option.ext fun u => ?_
    rw [get?_eq_some, get?_eq_some]
    refine exists_congr fun j => ?_
    rw [find?_overwrite hv]
    refine and_congr_right fun hj => ?_
    have hij : p.2 ≠ j := by
      rintro rfl
      obtain ⟨u', hu'⟩ := exists_slot_of_find? hj
      exact hne (Slot.occupied.inj (hv.symm.trans hu')).1
    rw [slot_write, if_neg fun hm => hij hm.1]

/-! ## Well-formed tables -/

/-- Every live key is found where it lives, and the count is the number of live slots. -/
structure WellFormed (t : Table α) : Prop where
  find?_of_slot : ∀ {i key v}, t.slot i = .occupied key v → t.find? key = some i
  count_eq : t.count = t.slots.countP Slot.isOccupied

theorem wellFormed_withCapacity (n : Nat) : (withCapacity n : Table α).WellFormed where
  find?_of_slot h := by simp at h
  count_eq := by simp [withCapacity, Slot.isOccupied, Array.countP_replicate]

/-- One more slot is live if the slot written was not live before, and one less if it is not live
after. -/
theorem countP_isOccupied_put {t : Table α} {i : Nat} (hi : i < t.capacity) (s : Slot α) :
    (t.put i s).slots.countP Slot.isOccupied + (t.slot i).isOccupied.toNat =
      t.slots.countP Slot.isOccupied + s.isOccupied.toNat := by
  have hi : i < t.slots.size := hi
  have hslot : t.slot i = t.slots[i] := by
    rw [slot, Array.getD_eq_getD_getElem?, Array.getElem?_eq_getElem hi, Option.getD_some]
  have hpos : t.slots[i].isOccupied.toNat ≤ t.slots.countP Slot.isOccupied := by
    cases ho : t.slots[i].isOccupied with
    | false => exact Nat.zero_le _
    | true => exact Array.countP_pos_iff.2 ⟨_, Array.getElem_mem hi, ho⟩
  rw [put, Array.setIfInBounds, dif_pos hi, Array.countP_set, hslot]
  cases s.isOccupied <;> cases ho : t.slots[i].isOccupied <;> simp_all

namespace WellFormed

variable {t : Table α} {key : String}

/-- No key lives in two slots. -/
theorem slot_unique (h : t.WellFormed) {i j : Nat} {v w : α} (hi : t.slot i = .occupied key v)
    (hj : t.slot j = .occupied key w) : i = j := by
  have := (h.find?_of_slot hi).symm.trans (h.find?_of_slot hj)
  exact Option.some.inj this

/-- A look-up sees the live entries and nothing else. -/
theorem locate?_eq_some_iff (h : t.WellFormed) {i : Nat} {v : α} :
    t.locate? key = some (i, v) ↔ t.slot i = .occupied key v := by
  rw [locate?_eq_some, and_iff_right_of_imp h.find?_of_slot]

theorem get?_eq_some_iff (h : t.WellFormed) {v : α} :
    t.get? key = some v ↔ ∃ i, t.slot i = .occupied key v := by
  rw [get?_eq_some]
  exact exists_congr fun i => and_iff_right_of_imp h.find?_of_slot

theorem mem_entries (h : t.WellFormed) {v : α} : (key, v) ∈ t.entries ↔ t.get? key = some v :=
  mem_entries_iff.trans h.get?_eq_some_iff.symm

theorem mem_keys_iff (h : t.WellFormed) : key ∈ t.keys ↔ (t.get? key).isSome = true := by
  rw [keys, List.mem_map, Option.isSome_iff_exists]
  constructor
  · rintro ⟨⟨k, b⟩, hm, rfl⟩
    exact ⟨b, h.mem_entries.1 hm⟩
  · rintro ⟨b, hb⟩
    exact ⟨(key, b), h.mem_entries.2 hb, rfl⟩

/-- No key is live twice. -/
theorem nodup_keys (h : t.WellFormed) : t.keys.Nodup := by
  have hslots : ∀ (slots : List (Slot α)),
      (slots.Pairwise fun s s' => ∀ k v w, s = .occupied k v → s' ≠ .occupied k w) →
        ((slots.filterMap Slot.pair?).map Prod.fst).Nodup := by
    intro slots hp
    induction hp with
    | nil => simp
    | @cons s rest hs hrest ih =>
      cases s with
      | occupied k v =>
        rw [List.filterMap_cons_some (by rfl : Slot.pair? (.occupied k v) = some (k, v)),
          List.map_cons, List.nodup_cons]
        refine ⟨?_, ih⟩
        simp only [List.mem_map, List.mem_filterMap, not_exists, not_and]
        rintro ⟨k', w⟩ ⟨s', hs', hp⟩ rfl
        cases s' with
        | occupied k₁ w₁ =>
          obtain ⟨rfl, rfl⟩ : k₁ = k' ∧ w₁ = w := by simpa [Slot.pair?] using hp
          exact hs _ hs' _ v w₁ rfl rfl
        | _ => simp [Slot.pair?] at hp
      | _ => exact ih
  refine hslots _ (List.pairwise_iff_getElem.2 fun i j hi hj hij k v w hv hw => ?_)
  have hslot : ∀ (m : Nat) (hm : m < t.slots.toList.length), t.slot m = t.slots.toList[m] := by
    intro m hm
    rw [slot, Array.getD_eq_getD_getElem?, Array.getElem?_eq_getElem (by simpa using hm)]
    simp
  exact Nat.ne_of_lt hij (h.slot_unique ((hslot i hi).trans hv) ((hslot j hj).trans hw))

/-! ### The count -/

theorem size_eq_length_entries (h : t.WellFormed) : t.size = t.entries.length :=
  h.count_eq.trans t.countP_isOccupied

/-- A table is full when it has as many entries as slots. -/
theorem isFull_iff_length_entries (h : t.WellFormed) :
    t.isFull = true ↔ t.entries.length = t.capacity := by
  have hle : t.slots.countP Slot.isOccupied ≤ t.capacity := Array.countP_le_size
  rw [isFull, decide_eq_true_iff, h.count_eq, ← countP_isOccupied]
  omega

theorem isFull_iff_isOccupied (h : t.WellFormed) :
    t.isFull = true ↔ ∀ i < t.capacity, (t.slot i).isOccupied = true := by
  rw [h.isFull_iff_length_entries, ← countP_isOccupied, capacity, Array.countP_eq_size,
    Array.forall_mem_iff_forall_getElem]
  refine forall_congr' fun i => forall_congr' fun hi => ?_
  rw [slot, Array.getD_eq_getD_getElem?, Array.getElem?_eq_getElem hi, Option.getD_some]

/-- A key can be set unless every slot is live, whether it is in the table or not. -/
theorem place?_eq_none_iff (h : t.WellFormed) : t.place? key = none ↔ t.isFull = true := by
  rw [place?]
  split
  · next hfull => simp [hfull]
  · next hfull =>
    obtain ⟨i, hi⟩ : ∃ i, t.free? key = some i := by
      rw [h.isFull_iff_isOccupied] at hfull
      push Not at hfull
      obtain ⟨i, hi, hf⟩ := hfull
      exact exists_free? key hi (by simpa using hf)
    cases t.find? key <;> simp [hi, hfull]

/-! ### Writes -/

theorem overwrite (h : t.WellFormed) {i : Nat} {v : α} (hs : t.slot i = .occupied key v) (w : α) :
    (t.write (.overwritten, i) key w).WellFormed where
  find?_of_slot {j k u} hj := by
    rw [find?_overwrite hs]
    rw [slot_write] at hj
    split at hj
    · next hm =>
      obtain ⟨rfl, -⟩ := Slot.occupied.inj hj
      exact hm.1 ▸ h.find?_of_slot hs
    · exact h.find?_of_slot hj
  count_eq := by
    have hi : i < t.capacity := lt_capacity_of_slot (by simp [hs])
    have hcount := countP_isOccupied_put hi (.occupied key w)
    rw [hs] at hcount
    rw [count_write hi, slots_write, SetOutcome.recount, h.count_eq]
    exact (Nat.add_right_cancel hcount).symm

/-- A search for another key asks on past a tombstone as it did past the key. -/
theorem remove (h : t.WellFormed) {i : Nat} {v : α} (hs : t.slot i = .occupied key v) :
    (t.clear i).WellFormed where
  count_eq := by
    have hi : i < t.capacity := lt_capacity_of_slot (by simp [hs])
    have hcount := countP_isOccupied_put hi .tombstone
    rw [hs] at hcount
    rw [clear, count_withCount, slots_withCount, h.count_eq]
    exact Nat.sub_eq_of_eq_add hcount.symm
  find?_of_slot {j k u} hj := by
    rw [slot_clear] at hj
    split at hj
    · simp at hj
    · next hm =>
      have hne : key ≠ k := by
        rintro rfl
        exact hm ⟨h.slot_unique hs hj, lt_capacity_of_slot (by simp [hj])⟩
      have hask : ∀ m, askKey k m ((t.clear i).slot m) = askKey k m (t.slot m) := by
        intro m
        rw [slot_clear]
        split
        · next hm => rw [← hm.1, hs]; simp [askKey, hne]
        · rfl
      rw [find?_congr (capacity_clear ..) hask]
      exact h.find?_of_slot hj

theorem insert (h : t.WellFormed) {i : Nat} (hn : t.find? key = none) (hf : t.free? key = some i)
    (v : α) : (t.write (.inserted, i) key v).WellFormed where
  count_eq := by
    obtain ⟨hi, hdead⟩ := free?_spec hf
    have hcount := countP_isOccupied_put hi (.occupied key v)
    rw [hdead] at hcount
    rw [count_write hi, slots_write, SetOutcome.recount, h.count_eq]
    exact hcount.symm
  find?_of_slot {j k u} hj := by
    rw [slot_write] at hj
    split at hj
    · next hm =>
      obtain ⟨rfl, -⟩ := Slot.occupied.inj hj
      exact hm.1 ▸ find?_write_free (p := (.inserted, i)) hn hf v
    · have hold := h.find?_of_slot hj
      have hne : key ≠ k := by
        rintro rfl
        simp [hn] at hold
      exact find?_write_of_ne (p := (.inserted, i)) hold (free?_spec hf).2 hne v

/-! ### What look-ups see after a write -/

/-- A look-up after a key was written into a slot that held no other key. -/
theorem get?_write_of_slot (h : t.WellFormed) {p : SetOutcome × Nat} {w : α}
    (h' : (t.write p key w).WellFormed) (hi : p.2 < t.capacity)
    (hk : ∀ k v, t.slot p.2 = .occupied k v → k = key) (k : String) :
    (t.write p key w).get? k = if key = k then some w else t.get? k := by
  split
  · next he =>
    subst he
    exact h'.get?_eq_some_iff.2 ⟨p.2, by rw [slot_write, if_pos ⟨rfl, hi⟩]⟩
  · next hne =>
    refine Option.ext fun u => ?_
    rw [h'.get?_eq_some_iff, h.get?_eq_some_iff]
    refine exists_congr fun j => ?_
    rw [slot_write]
    split
    · next hj =>
      constructor
      · intro hc
        exact absurd (Slot.occupied.inj hc).1 hne
      · intro hc
        exact absurd (hk k u (hj.1 ▸ hc)).symm hne
    · rfl

/-- A look-up after a key was removed. -/
theorem get?_clear (h : t.WellFormed) {i : Nat} {v : α} (hs : t.slot i = .occupied key v)
    (k : String) : (t.clear i).get? k = if key = k then none else t.get? k := by
  refine Option.ext fun u => ?_
  rw [(h.remove hs).get?_eq_some_iff]
  split
  · next he =>
    subst he
    simp only [reduceCtorEq, iff_false, not_exists, slot_clear]
    intro j hj
    split at hj
    · cases hj
    · next hm => exact hm ⟨h.slot_unique hs hj, lt_capacity_of_slot (by simp [hj])⟩
  · next hne =>
    rw [h.get?_eq_some_iff]
    refine exists_congr fun j => ?_
    rw [slot_clear]
    split
    · next hj =>
      rw [← hj.1, hs]
      simp [hne]
    · rfl

end WellFormed

/-! ### Setting a key -/

/-- The slot that setting a key writes is that of the key, or else the first one that is free. -/
theorem place?_eq_some_iff {t : Table α} {key : String} {outcome : SetOutcome} {i : Nat} :
    t.place? key = some (outcome, i) ↔
      t.isFull = false ∧ (outcome = .overwritten ∧ t.find? key = some i ∨
        outcome = .inserted ∧ t.find? key = none ∧ t.free? key = some i) := by
  rw [place?]
  split
  · next h => simp [h]
  · next h => cases t.find? key <;> cases outcome <;> simp [h]

theorem outcome_eq {t : Table α} {key : String} {p : SetOutcome × Nat}
    (hp : t.place? key = some p) :
    p.1 = if (t.get? key).isSome then .overwritten else .inserted := by
  obtain ⟨outcome, i⟩ := p
  rw [← contains_eq, contains]
  obtain ⟨-, ⟨rfl, hf⟩ | ⟨rfl, hn, -⟩⟩ := place?_eq_some_iff.1 hp
  · simp [hf]
  · simp [hn]

/-- Setting a key hides no other key. -/
theorem contains_place {t : Table α} {key k : String} {p : SetOutcome × Nat}
    (hp : t.place? key = some p) (hk : t.contains k = true) (v : α) :
    (t.write p key v).contains k = true := by
  obtain ⟨j, hj⟩ := Option.isSome_iff_exists.1 hk
  rw [contains, Option.isSome_iff_exists]
  obtain ⟨-, ⟨-, hf⟩ | ⟨-, hn, hf⟩⟩ := place?_eq_some_iff.1 hp
  · obtain ⟨w, hw⟩ := exists_slot_of_find? hf
    exact ⟨j, by rw [find?_overwrite hw, hj]⟩
  · have hne : key ≠ k := by
      rintro rfl
      simp [hn] at hj
    exact ⟨j, find?_write_of_ne hj (free?_spec hf).2 hne v⟩

namespace WellFormed

variable {t : Table α} {key : String} {outcome : SetOutcome} {p : SetOutcome × Nat}

theorem place (h : t.WellFormed) (hp : t.place? key = some p) (v : α) :
    (t.write p key v).WellFormed := by
  obtain ⟨outcome, i⟩ := p
  obtain ⟨-, ⟨rfl, hf⟩ | ⟨rfl, hn, hf⟩⟩ := place?_eq_some_iff.1 hp
  · obtain ⟨w, hw⟩ := exists_slot_of_find? hf
    exact h.overwrite hw v
  · exact h.insert hn hf v

theorem get?_place (h : t.WellFormed) (hp : t.place? key = some p) (v : α) (k : String) :
    (t.write p key v).get? k = if key = k then some v else t.get? k := by
  obtain ⟨outcome, i⟩ := p
  obtain ⟨-, ⟨-, hf⟩ | ⟨-, -, hf⟩⟩ := place?_eq_some_iff.1 hp
  · exact get?_overwrite hf v k
  · obtain ⟨hi, hdead⟩ := free?_spec hf
    exact h.get?_write_of_slot (h.place hp v) hi
      (fun k u hk => by simp [hk, Slot.isOccupied] at hdead) k

theorem set? (h : t.WellFormed) {u : Table α} {v : α} (hs : t.set? key v = some (outcome, u)) :
    u.WellFormed := by
  obtain ⟨p, hp, he⟩ := Option.map_eq_some_iff.1 hs
  obtain ⟨-, rfl⟩ := Prod.mk.inj he
  exact h.place hp v

theorem get?_set? (h : t.WellFormed) {u : Table α} {v : α}
    (hs : t.set? key v = some (outcome, u)) (k : String) :
    u.get? k = if key = k then some v else t.get? k := by
  obtain ⟨p, hp, he⟩ := Option.map_eq_some_iff.1 hs
  obtain ⟨-, rfl⟩ := Prod.mk.inj he
  exact h.get?_place hp v k

theorem modify? (h : t.WellFormed) {u : Table α} {f : α → α}
    (hm : t.modify? key f = some u) : u.WellFormed := by
  obtain ⟨⟨j, v⟩, hl, rfl⟩ := Option.map_eq_some_iff.1 hm
  exact h.overwrite (h.locate?_eq_some_iff.1 hl) (f v)

theorem get?_modify? (h : t.WellFormed) {u : Table α} {f : α → α}
    (hm : t.modify? key f = some u) (k : String) :
    u.get? k = if key = k then (t.get? key).map f else t.get? k := by
  obtain ⟨⟨j, v⟩, hl, rfl⟩ := Option.map_eq_some_iff.1 hm
  have hs := h.locate?_eq_some_iff.1 hl
  have hg : t.get? key = some v := h.get?_eq_some_iff.2 ⟨j, hs⟩
  rw [h.get?_write_of_slot (h.overwrite hs (f v)) (lt_capacity_of_slot (by simp [hs]))
    (fun k u hk => (Slot.occupied.inj (hk.symm.trans hs)).1), hg, Option.map_some]

theorem erase? (h : t.WellFormed) {u : Table α} {v : α}
    (he : t.erase? key = some (v, u)) : u.WellFormed := by
  obtain ⟨⟨j, w⟩, hl, he⟩ := Option.map_eq_some_iff.1 he
  obtain ⟨rfl, rfl⟩ := Prod.mk.inj he
  exact h.remove (h.locate?_eq_some_iff.1 hl)

theorem get?_erase? (h : t.WellFormed) {u : Table α} {v : α}
    (he : t.erase? key = some (v, u)) (k : String) :
    u.get? k = if key = k then none else t.get? k := by
  obtain ⟨⟨j, w⟩, hl, he⟩ := Option.map_eq_some_iff.1 he
  obtain ⟨rfl, rfl⟩ := Prod.mk.inj he
  exact h.get?_clear (h.locate?_eq_some_iff.1 hl) k

end WellFormed

end Treewalk.Table
