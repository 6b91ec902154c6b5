import Mathlib.Data.Finset.Card
import Mathlib.Data.Finset.Dedup
import Treewalk.Proofs.Table.Refinement
import Treewalk.Value.Basic

/-!
# Tables of bindings set in turn

`Table.ofBindings?` sets bindings in a new table, one after the other, each under its name. While
one is set there must be room, also if its name is there already, so what counts is the number of
distinct names before the last binding.

* `Table.ofBindings?_spec`: what the table has for a name is the last binding with the name.
* `Table.exists_ofBindings?_iff`: when all bindings can be set, by the names before the last, and
  `Table.exists_ofBindings?_iff_card` by all names.
-/

namespace Treewalk

/-- The last binding with a name. -/
def lastNamed? (made : List Binding) (x : String) : Option Binding :=
  made.reverse.find? fun b => b.name = x

theorem lastNamed?_append (made : List Binding) (b : Binding) (x : String) :
    lastNamed? (made ++ [b]) x = if b.name = x then some b else lastNamed? made x := by
  rw [lastNamed?, List.reverse_append, List.reverse_singleton, List.singleton_append,
    List.find?_cons]
  by_cases h : b.name = x
  · rw [if_pos h, decide_eq_true h]
  · rw [if_neg h, decide_eq_false h]
    rfl

theorem lastNamed?_append_list (made more : List Binding) (x : String) :
    lastNamed? (made ++ more) x = (lastNamed? more x).or (lastNamed? made x) := by
  rw [lastNamed?, List.reverse_append, List.find?_append]
  rfl

theorem isSome_lastNamed? (made : List Binding) (x : String) :
    (lastNamed? made x).isSome = true ↔ x ∈ made.map BindingOf.name := by
  rw [lastNamed?, List.find?_isSome]
  simp

namespace Table

/-- The table of a capacity in which bindings were set in turn, if there was room for all. -/
def ofBindings? (capacity : Nat) (made : List Binding) : Option (Table Binding) :=
  made.foldlM (fun t b => (t.set? b.name b).map Prod.snd) (withCapacity capacity)

variable {capacity : Nat} {made : List Binding} {t : Table Binding}

theorem ofBindings?_append (capacity : Nat) (made : List Binding) (b : Binding) :
    ofBindings? capacity (made ++ [b]) =
      (ofBindings? capacity made).bind fun t => (t.set? b.name b).map Prod.snd := by
  rw [ofBindings?, List.foldlM_append]
  exact congrArg _ (funext fun t => bind_pure _)

/-- What a table has for a name is the last binding that was set for it. -/
theorem ofBindings?_spec (h : ofBindings? capacity made = some t) :
    t.WellFormed ∧ t.capacity = capacity ∧ ∀ x, t.get? x = lastNamed? made x := by
  induction made using List.reverseRecOn generalizing t with
  | nil =>
    cases h
    exact ⟨wellFormed_withCapacity capacity, capacity_withCapacity capacity, get?_withCapacity _⟩
  | append_singleton made b ih =>
    rw [ofBindings?_append] at h
    obtain ⟨u, hu, hset⟩ := Option.bind_eq_some_iff.1 h
    obtain ⟨⟨outcome, t'⟩, hset', rfl⟩ := Option.map_eq_some_iff.1 hset
    obtain ⟨hwell, hcap, hget⟩ := ih hu
    refine ⟨hwell.set? hset', (capacity_of_set? hset').trans hcap, fun x => ?_⟩
    rw [hwell.get?_set? hset', hget, lastNamed?_append]

theorem isFull_iff_card (h : t.WellFormed) :
    t.isFull = true ↔ t.keys.toFinset.card = t.capacity := by
  rw [h.isFull_iff_length_entries, List.toFinset_card_of_nodup h.nodup_keys, keys,
    List.length_map]

theorem toFinset_keys (h : ofBindings? capacity made = some t) :
    t.keys.toFinset = (made.map BindingOf.name).toFinset := by
  obtain ⟨hwell, -, hget⟩ := ofBindings?_spec h
  ext x
  rw [List.mem_toFinset, List.mem_toFinset, hwell.mem_keys_iff, hget, isSome_lastNamed?]

/-- There is no room for one more binding just if the distinct names are as many as the slots. -/
theorem set?_eq_none (h : ofBindings? capacity made = some t) {x : String} {b : Binding} :
    t.set? x b = none ↔ (made.map BindingOf.name).toFinset.card = capacity := by
  obtain ⟨hwell, hcap, -⟩ := ofBindings?_spec h
  rw [hwell.set?_eq_none_iff, isFull_iff_card hwell, toFinset_keys h, hcap]

/-- A table that has fewer names than slots takes one more binding. -/
theorem exists_set? (h : ofBindings? capacity made = some t) (b : Binding)
    (hroom : (made.map BindingOf.name).toFinset.card < capacity) :
    ∃ outcome u, t.set? b.name b = some (outcome, u) ∧
      ofBindings? capacity (made ++ [b]) = some u := by
  obtain ⟨⟨outcome, u⟩, hset⟩ : ∃ r, t.set? b.name b = some r :=
    Option.ne_none_iff_exists'.1 fun hnone => hroom.ne ((set?_eq_none h).1 hnone)
  refine ⟨outcome, u, hset, ?_⟩
  rw [ofBindings?_append, h, Option.bind_some, hset]
  rfl

theorem card_names_le (h : ofBindings? capacity made = some t) :
    (made.map BindingOf.name).toFinset.card ≤ capacity := by
  obtain ⟨hwell, hcap, -⟩ := ofBindings?_spec h
  rw [← toFinset_keys h, List.toFinset_card_of_nodup hwell.nodup_keys, keys, List.length_map,
    ← countP_isOccupied, ← hcap]
  exact Array.countP_le_size

/-- Bindings with fewer distinct names than slots can all be set. -/
theorem exists_ofBindings? (h : (made.map BindingOf.name).toFinset.card < capacity) :
    ∃ t, ofBindings? capacity made = some t := by
  induction made using List.reverseRecOn with
  | nil => exact ⟨_, rfl⟩
  | append_singleton made b ih =>
    have hroom : (made.map BindingOf.name).toFinset.card < capacity := by
      refine lt_of_le_of_lt (Finset.card_le_card fun x hx => ?_) h
      simp only [List.map_append, List.toFinset_append, Finset.mem_union]
      exact .inl hx
    obtain ⟨t, ht⟩ := ih hroom
    obtain ⟨outcome, u, -, hu⟩ := exists_set? ht b hroom
    exact ⟨u, hu⟩

/-- **All bindings can be set just if the distinct names before the last leave room.** Whether the
name of the last is among them does not count. -/
theorem exists_ofBindings?_iff (b : Binding) :
    (∃ t, ofBindings? capacity (made ++ [b]) = some t) ↔
      (made.map BindingOf.name).toFinset.card < capacity := by
  constructor
  · rintro ⟨t, ht⟩
    rw [ofBindings?_append] at ht
    obtain ⟨u, hu, hset⟩ := Option.bind_eq_some_iff.1 ht
    refine lt_of_le_of_ne (card_names_le hu) fun hfull => ?_
    rw [(set?_eq_none hu).2 hfull] at hset
    cases hset
  · intro hroom
    obtain ⟨t, ht⟩ := exists_ofBindings? hroom
    obtain ⟨outcome, u, -, hu⟩ := exists_set? ht b hroom
    exact ⟨u, hu⟩

/-- All bindings can be set just if their distinct names leave room, or fill the table and the last
name is new. -/
theorem exists_ofBindings?_iff_card (b : Binding) :
    (∃ t, ofBindings? capacity (made ++ [b]) = some t) ↔
      ((made ++ [b]).map BindingOf.name).toFinset.card < capacity ∨
        (((made ++ [b]).map BindingOf.name).toFinset.card = capacity ∧
          b.name ∉ made.map BindingOf.name) := by
  have hnames : ((made ++ [b]).map BindingOf.name).toFinset =
      insert b.name (made.map BindingOf.name).toFinset := by
    ext x
    simp
  rw [exists_ofBindings?_iff, hnames]
  by_cases hb : b.name ∈ made.map BindingOf.name
  · rw [Finset.insert_eq_of_mem (List.mem_toFinset.2 hb)]
    simp [hb]
  · rw [Finset.card_insert_of_notMem (mt List.mem_toFinset.1 hb)]
    simp only [hb, not_false_eq_true, and_true]
    omega

end Table

end Treewalk
