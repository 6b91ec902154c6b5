import Mathlib.Data.Finmap
import Treewalk.Proofs.Table.Probing

/-!
# Tables are bounded finite maps

The reference is a finite map with a bound on the number of its keys: no slots, no hashes, no
tombstones, and no count kept beside the keys. `Represents` ties a table to such a map, every
operation keeps it and gives the same reply on both sides (`perform_represents`), and so does every
sequence of operations from the empty table on (`replies_withCapacity`).
-/

namespace Treewalk.Table

/-- An operation on a table. -/
inductive Operation (α : Type) where
  | set (key : String) (value : α)
  | get (key : String)
  /-- Changes the value of a live key in place. -/
  | write (key : String) (f : α → α)
  | has (key : String)
  | delete (key : String)
  | size
  | entries
  | keys

/-- What an operation answers. Entries and keys come in no promised order. -/
inductive Reply (α : Type) where
  | full (capacity : Nat)
  | done (outcome : SetOutcome)
  | value (v : Option α)
  | holds (b : Bool)
  | count (n : Nat)
  | entries (es : Multiset (String × α))
  | keys (ks : Multiset String)

variable {α : Type}

/-- The answer of an operation with the table after it. A write answers the value before. -/
def perform (t : Table α) : Operation α → Reply α × Table α
  | .set key value =>
    match t.set? key value with
    | some (outcome, u) => (.done outcome, u)
    | none => (.full t.capacity, t)
  | .get key => (.value (t.get? key), t)
  | .write key f => (.value (t.get? key), (t.modify? key f).getD t)
  | .has key => (.holds (t.contains key), t)
  | .delete key =>
    match t.erase? key with
    | some (v, u) => (.value (some v), u)
    | none => (.value none, t)
  | .size => (.count t.size, t)
  | .entries => (.entries t.entries, t)
  | .keys => (.keys t.keys, t)

/-- The answers of operations, one after the other. -/
def replies (t : Table α) : List (Operation α) → List (Reply α)
  | [] => []
  | op :: ops => (t.perform op).1 :: (t.perform op).2.replies ops

/-! ## The reference -/

/-- A finite map with at most a given number of keys. -/
structure BoundedMap (α : Type) where
  bound : Nat
  map : Finmap fun _ : String => α

namespace BoundedMap

/-- The map without keys. -/
def empty (bound : Nat) : BoundedMap α := ⟨bound, ∅⟩

/-- The map with other content. -/
def withMap (m : BoundedMap α) (map : Finmap fun _ : String => α) : BoundedMap α :=
  ⟨m.bound, map⟩

/-- The answer of an operation with the map after it. A map with as many keys as allowed takes no
value at all, not even for one of its keys. -/
def perform (m : BoundedMap α) : Operation α → Reply α × BoundedMap α
  | .set key value =>
    if m.map.keys.card = m.bound then (.full m.bound, m)
    else (.done (if key ∈ m.map then .overwritten else .inserted),
      m.withMap (m.map.insert key value))
  | .get key => (.value (m.map.lookup key), m)
  | .write key f =>
    (.value (m.map.lookup key),
      match m.map.lookup key with
      | some v => m.withMap (m.map.insert key (f v))
      | none => m)
  | .has key => (.holds (decide (key ∈ m.map)), m)
  | .delete key => (.value (m.map.lookup key), m.withMap (m.map.erase key))
  | .size => (.count m.map.keys.card, m)
  | .entries => (.entries (m.map.entries.map fun e => (e.1, e.2)), m)
  | .keys => (.keys m.map.keys.val, m)

/-- The answers of operations, one after the other. -/
def replies (m : BoundedMap α) : List (Operation α) → List (Reply α)
  | [] => []
  | op :: ops => (m.perform op).1 :: (m.perform op).2.replies ops

end BoundedMap

/-! ## The tie between the two -/

/-- A table stands for a bounded map: what look-ups see is the map. -/
structure Represents (t : Table α) (m : BoundedMap α) : Prop where
  wellFormed : t.WellFormed
  capacity : t.capacity = m.bound
  get? : ∀ key, t.get? key = m.map.lookup key

theorem represents_withCapacity (n : Nat) :
    (withCapacity n : Table α).Represents (.empty n) where
  wellFormed := wellFormed_withCapacity n
  capacity := capacity_withCapacity n
  get? key := by
    rw [BoundedMap.empty, Finmap.lookup_empty, get?_withCapacity]

namespace Represents

variable {t : Table α} {m : BoundedMap α}

/-- Listing a table gives every entry of the map once. -/
theorem entries_eq (h : t.Represents m) :
    (t.entries : Multiset (String × α)) = m.map.entries.map fun e => (e.1, e.2) := by
  have ht : (t.entries : Multiset (String × α)).Nodup :=
    Multiset.coe_nodup.2 h.wellFormed.nodup_keys.of_map
  have hinj : Function.Injective fun e : (_ : String) × α => (e.1, e.2) := by
    rintro ⟨k, v⟩ ⟨k', v'⟩ he
    simpa using he
  have hm := (Finmap.nodup_entries m.map).map hinj
  refine (ht.ext hm).2 ?_
  rintro ⟨key, v⟩
  rw [Multiset.mem_coe, h.wellFormed.mem_entries, h.get?, Multiset.mem_map]
  constructor
  · intro hl
    exact ⟨⟨key, v⟩, Finmap.lookup_eq_some_iff.1 hl, rfl⟩
  · rintro ⟨⟨k, w⟩, hmem, he⟩
    obtain ⟨rfl, rfl⟩ := Prod.mk.inj he
    exact Finmap.lookup_eq_some_iff.2 hmem

theorem keys_eq (h : t.Represents m) : (t.keys : Multiset String) = m.map.keys.val := by
  rw [keys, ← Multiset.map_coe, h.entries_eq, Multiset.map_map]
  rfl

theorem size_eq (h : t.Represents m) : t.size = m.map.keys.card := by
  rw [Finset.card_def, ← h.keys_eq, Multiset.coe_card, keys, List.length_map,
    h.wellFormed.size_eq_length_entries]

/-- The table has no room exactly when the map has as many keys as allowed. -/
theorem isFull_iff (h : t.Represents m) : t.isFull = true ↔ m.map.keys.card = m.bound := by
  rw [h.wellFormed.isFull_iff_length_entries, ← h.wellFormed.size_eq_length_entries, h.size_eq,
    h.capacity]

theorem isSome_get?_iff (h : t.Represents m) (key : String) :
    (t.get? key).isSome ↔ key ∈ m.map := by
  rw [h.get?, Finmap.lookup_isSome]

/-- A table stands for the map with a key bound anew if that is what look-ups see. -/
theorem insert (h : t.Represents m) {u : Table α} (hu : u.WellFormed)
    (hc : u.capacity = t.capacity) {key : String} {v : α}
    (hg : ∀ k, u.get? k = if key = k then some v else t.get? k) :
    u.Represents (m.withMap (m.map.insert key v)) where
  wellFormed := hu
  capacity := hc.trans h.capacity
  get? k := by
    rw [hg k]
    split
    · next he => rw [← he]; exact (Finmap.lookup_insert m.map).symm
    · next hne => rw [h.get?]; exact (Finmap.lookup_insert_of_ne m.map (Ne.symm hne)).symm

theorem erase (h : t.Represents m) {u : Table α} (hu : u.WellFormed)
    (hc : u.capacity = t.capacity) {key : String}
    (hg : ∀ k, u.get? k = if key = k then none else t.get? k) :
    u.Represents (m.withMap (m.map.erase key)) where
  wellFormed := hu
  capacity := hc.trans h.capacity
  get? k := by
    rw [hg k]
    split
    · next he => rw [← he]; exact (Finmap.lookup_erase key m.map).symm
    · next hne => rw [h.get?]; exact (Finmap.lookup_erase_ne (Ne.symm hne)).symm

end Represents

/-! ## Operations and sequences of operations -/

variable {t : Table α} {m : BoundedMap α}

theorem WellFormed.set?_eq_none_iff (h : t.WellFormed) {key : String} {v : α} :
    t.set? key v = none ↔ t.isFull = true := by
  rw [Table.set?, Option.map_eq_none_iff, h.place?_eq_none_iff]

theorem erase?_eq_none_iff {key : String} : t.erase? key = none ↔ t.get? key = none := by
  rw [erase?, get?, Option.map_eq_none_iff, Option.map_eq_none_iff]

theorem modify?_eq_none_iff {key : String} {f : α → α} :
    t.modify? key f = none ↔ t.get? key = none := by
  rw [modify?, get?, Option.map_eq_none_iff, Option.map_eq_none_iff]

theorem capacity_of_set? {key : String} {v : α} {o : SetOutcome} {u : Table α}
    (h : t.set? key v = some (o, u)) : u.capacity = t.capacity := by
  obtain ⟨p, -, he⟩ := Option.map_eq_some_iff.1 h
  obtain ⟨-, rfl⟩ := Prod.mk.inj he
  exact capacity_write ..

theorem capacity_of_modify? {key : String} {f : α → α} {u : Table α}
    (h : t.modify? key f = some u) : u.capacity = t.capacity := by
  obtain ⟨⟨i, v⟩, -, rfl⟩ := Option.map_eq_some_iff.1 h
  exact capacity_write ..

theorem erase?_eq_some {key : String} {v : α} {u : Table α} (h : t.erase? key = some (v, u)) :
    t.get? key = some v ∧ u.capacity = t.capacity := by
  obtain ⟨⟨i, w⟩, hl, he⟩ := Option.map_eq_some_iff.1 h
  obtain ⟨rfl, rfl⟩ := Prod.mk.inj he
  exact ⟨by rw [get?, hl]; rfl, capacity_clear ..⟩

/-- **One operation** answers the same on both sides and keeps the tie. -/
theorem perform_represents (h : t.Represents m) (op : Operation α) :
    (t.perform op).1 = (m.perform op).1 ∧ (t.perform op).2.Represents (m.perform op).2 := by
  cases op with
  | set key v =>
    cases hs : t.set? key v with
    | none =>
      have hfull := h.isFull_iff.1 (h.wellFormed.set?_eq_none_iff.1 hs)
      simp only [perform, hs, BoundedMap.perform, if_pos hfull, h.capacity]
      exact ⟨trivial, h⟩
    | some p =>
      obtain ⟨o, u⟩ := p
      have hfull : ¬m.map.keys.card = m.bound := fun hc => by
        rw [h.wellFormed.set?_eq_none_iff.2 (h.isFull_iff.2 hc)] at hs
        cases hs
      simp only [perform, hs, BoundedMap.perform, if_neg hfull]
      refine ⟨?_, h.insert (h.wellFormed.set? hs) (capacity_of_set? hs)
        (h.wellFormed.get?_set? hs)⟩
      obtain ⟨⟨o', i⟩, hp, he⟩ := Option.map_eq_some_iff.1 hs
      obtain ⟨rfl, -⟩ := Prod.mk.inj he
      rw [outcome_eq hp]
      simp only [h.isSome_get?_iff]
  | get key =>
    simp only [perform, BoundedMap.perform, h.get?]
    exact ⟨trivial, h⟩
  | write key f =>
    simp only [perform, BoundedMap.perform, h.get?]
    refine ⟨trivial, ?_⟩
    cases hm : t.modify? key f with
    | none =>
      rw [← h.get?, modify?_eq_none_iff.1 hm]
      exact h
    | some u =>
      obtain ⟨v, hv⟩ : ∃ v, t.get? key = some v := by
        rw [← Option.isSome_iff_exists, ← Option.not_isNone, Bool.not_eq_true',
          Option.isNone_eq_false_iff, Option.isSome_iff_ne_none]
        intro hn
        rw [modify?_eq_none_iff.2 hn] at hm
        cases hm
      rw [← h.get?, hv]
      refine h.insert (h.wellFormed.modify? hm) (capacity_of_modify? hm) fun k => ?_
      rw [h.wellFormed.get?_modify? hm, hv, Option.map_some]
  | has key =>
    simp only [perform, BoundedMap.perform, contains_eq]
    refine ⟨?_, h⟩
    rw [Reply.holds.injEq, Bool.eq_iff_iff, decide_eq_true_iff, h.isSome_get?_iff]
  | delete key =>
    cases he : t.erase? key with
    | none =>
      have hg : m.map.lookup key = none := by rw [← h.get?, erase?_eq_none_iff.1 he]
      simp only [perform, he, BoundedMap.perform, hg]
      refine ⟨trivial, h.erase h.wellFormed rfl fun k => ?_⟩
      split
      · next hk => rw [← hk, h.get?, hg]
      · rfl
    | some p =>
      obtain ⟨v, u⟩ := p
      obtain ⟨hg, hc⟩ := erase?_eq_some he
      simp only [perform, he, BoundedMap.perform, ← h.get?, hg]
      exact ⟨trivial, h.erase (h.wellFormed.erase? he) hc (h.wellFormed.get?_erase? he)⟩
  | size =>
    simp only [perform, BoundedMap.perform, h.size_eq]
    exact ⟨trivial, h⟩
  | entries =>
    simp only [perform, BoundedMap.perform, h.entries_eq]
    exact ⟨trivial, h⟩
  | keys =>
    simp only [perform, BoundedMap.perform, h.keys_eq]
    exact ⟨trivial, h⟩

theorem replies_represents (h : t.Represents m) (ops : List (Operation α)) :
    t.replies ops = m.replies ops := by
  induction ops generalizing t m with
  | nil => rfl
  | cons op ops ih =>
    obtain ⟨hr, hs⟩ := perform_represents h op
    rw [replies, BoundedMap.replies, hr, ih hs]

/-- **A table of any capacity answers every sequence of operations like the bounded map.** -/
theorem replies_withCapacity (capacity : Nat) (ops : List (Operation α)) :
    (withCapacity capacity).replies ops = (BoundedMap.empty capacity).replies ops :=
  replies_represents (represents_withCapacity capacity) ops

end Treewalk.Table
