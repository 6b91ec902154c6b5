import Treewalk.Proofs.Table.Map
import Treewalk.Proofs.Table.Refinement

/-!
# Tables are equal as maps

Equality of tables compares the counts that they keep, and looks up every key of the first table in
the second. For tables that operations make this is equality of maps: `Table.Agree` says that both
have the same keys, and the values of each key are equal.

* `Made` are the tables that operations and copies make; `Made.wellFormed`, so their counts are the
  numbers of their keys (`WellFormed.length_keys`).
* `WellFormed.sameBy_iff`: equality is agreement, whatever the capacities and the slots.
* `Agree.symm`, `Agree.trans` and `agree_self_iff` say what agreement takes over from the equality
  of values.
-/

namespace Treewalk.Table

variable {α : Type}

/-- The live slots with their keys, without the values. -/
def layout (t : Table α) : Table Unit := t.map fun _ => ()

/-- The tables that can be made: by operations from a table of unused slots, and as copies, which
keep every slot and may replace the values. -/
inductive Made : Table α → Prop
  | withCapacity (capacity : Nat) : Made (withCapacity capacity)
  | perform {t : Table α} (h : Made t) (op : Operation α) : Made (t.perform op).2
  | copy {t u : Table α} (h : Made t) (hl : u.layout = t.layout) : Made u

/-- The table after operations, one after the other. -/
def after (t : Table α) (ops : List (Operation α)) : Table α :=
  ops.foldl (fun t op => (t.perform op).2) t

/-- Whether two tables have the same keys, and equal values for each of them. -/
structure Agree (same : α → α → Bool) (a b : Table α) : Prop where
  keys : ∀ key, key ∈ a.keys ↔ key ∈ b.keys
  values : ∀ key v w, (key, v) ∈ a.entries → (key, w) ∈ b.entries → same v w = true

theorem WellFormed.perform {t : Table α} (h : t.WellFormed) (op : Operation α) :
    (t.perform op).2.WellFormed := by
  cases op with
  | set key v =>
    rw [Table.perform]
    cases hs : t.set? key v with
    | none => exact h
    | some p => exact h.set? hs
  | write key f =>
    rw [Table.perform]
    cases hm : t.modify? key f with
    | none => exact h
    | some u => exact h.modify? hm
  | delete key =>
    rw [Table.perform]
    cases he : t.erase? key with
    | none => exact h
    | some p => exact h.erase? he
  | _ => exact h

theorem Made.after {t : Table α} (h : t.Made) (ops : List (Operation α)) : (t.after ops).Made := by
  induction ops generalizing t with
  | nil => exact h
  | cons op ops ih => exact ih (h.perform op)

theorem Made.wellFormed {t : Table α} (h : t.Made) : t.WellFormed := by
  induction h with
  | withCapacity capacity => exact wellFormed_withCapacity capacity
  | perform _ op ih => exact ih.perform op
  | @copy t u _ hl ih =>
    have ht : t.layout.WellFormed := (wellFormed_map_iff _).2 ih
    rw [← hl] at ht
    exact (wellFormed_map_iff _).1 ht

/-! ## Equality is agreement -/

theorem mem_keys_of_mem_entries {t : Table α} {key : String} {v : α} (h : (key, v) ∈ t.entries) :
    key ∈ t.keys :=
  List.mem_map.2 ⟨_, h, rfl⟩

theorem exists_mem_entries_of_mem_keys {t : Table α} {key : String} (h : key ∈ t.keys) :
    ∃ v, (key, v) ∈ t.entries := by
  obtain ⟨⟨k, v⟩, hm, rfl⟩ := List.mem_map.1 h
  exact ⟨v, hm⟩

/-- The count that a table keeps is the number of its keys. -/
theorem WellFormed.length_keys {t : Table α} (h : t.WellFormed) : t.keys.length = t.size := by
  rw [keys, List.length_map, h.size_eq_length_entries]

variable {same : α → α → Bool} {a b c : Table α}

/-- **Equality of tables is equality of maps.** That no key of the second table is missing in the
first is not looked up: it follows from the counts, which are the numbers of keys, as no key is live
twice. -/
theorem WellFormed.sameBy_iff (ha : a.WellFormed) (hb : b.WellFormed) :
    a.sameBy same b = true ↔ a.Agree same b := by
  simp only [sameBy, Bool.and_eq_true, beq_iff_eq, List.all_eq_true]
  constructor
  · rintro ⟨hsize, hall⟩
    have hfound : ∀ key v, (key, v) ∈ a.entries → ∃ w, b.get? key = some w ∧ same v w = true :=
      fun key v hv => (Option.any_eq_true _ _).1 (hall (key, v) hv)
    have hsub : a.keys ⊆ b.keys := by
      intro key hk
      obtain ⟨v, hv⟩ := exists_mem_entries_of_mem_keys hk
      obtain ⟨w, hw, -⟩ := hfound key v hv
      exact mem_keys_of_mem_entries (hb.mem_entries.2 hw)
    have hperm : a.keys.Perm b.keys :=
      (List.subperm_of_subset ha.nodup_keys hsub).perm_of_length_le
        (by rw [ha.length_keys, hb.length_keys, hsize])
    refine ⟨fun key => hperm.mem_iff, fun key v w hv hw => ?_⟩
    obtain ⟨w', hw', hsame⟩ := hfound key v hv
    rw [hb.mem_entries, hw'] at hw
    exact Option.some.inj hw ▸ hsame
  · intro h
    have hperm : a.keys.Perm b.keys :=
      (List.perm_ext_iff_of_nodup ha.nodup_keys hb.nodup_keys).2 h.keys
    refine ⟨by rw [← ha.length_keys, ← hb.length_keys, hperm.length_eq], ?_⟩
    rintro ⟨key, v⟩ hv
    obtain ⟨w, hw⟩ := exists_mem_entries_of_mem_keys
      ((h.keys key).1 (mem_keys_of_mem_entries hv))
    exact (Option.any_eq_true _ _).2 ⟨w, hb.mem_entries.1 hw, h.values key v w hv hw⟩

/-! ## Agreement as a relation -/

theorem Agree.symm (h : a.Agree same b)
    (hs : ∀ key v w, (key, v) ∈ a.entries → (key, w) ∈ b.entries → same v w = true →
      same w v = true) : b.Agree same a where
  keys key := (h.keys key).symm
  values key w v hw hv := hs key v w hv hw (h.values key v w hv hw)

theorem Agree.trans (hab : a.Agree same b) (hbc : b.Agree same c)
    (hs : ∀ key u v w, (key, u) ∈ a.entries → (key, v) ∈ b.entries → (key, w) ∈ c.entries →
      same u v = true → same v w = true → same u w = true) : a.Agree same c where
  keys key := (hab.keys key).trans (hbc.keys key)
  values key u w hu hw := by
    obtain ⟨v, hv⟩ := exists_mem_entries_of_mem_keys
      ((hab.keys key).1 (mem_keys_of_mem_entries hu))
    exact hs key u v w hu hv hw (hab.values key u v hu hv) (hbc.values key v w hv hw)

/-- A table agrees with itself if its values are equal to themselves. -/
theorem WellFormed.agree_self_iff (ha : a.WellFormed) :
    a.Agree same a ↔ ∀ key v, (key, v) ∈ a.entries → same v v = true := by
  constructor
  · exact fun h key v hv => h.values key v v hv hv
  · refine fun h => ⟨fun _ => Iff.rfl, fun key v w hv hw => ?_⟩
    rw [ha.mem_entries] at hw
    obtain rfl := Option.some.inj ((ha.mem_entries.1 hv).symm.trans hw)
    exact h key v hv

end Treewalk.Table
