import Treewalk.Proofs.Limits.Resized
import Treewalk.Proofs.Value.Copy

/-!
# Copies up to the layout of tables

A copy of a table has the keys in the slots of the table, each value copied from a number of its
own: `Table.IsCopy`. So the numbers in the copies of two values that are the same up to layout may
differ, but each belongs to one place in the value, and they pair up one to one:
`Value.Resized.exists_copy`.
-/

namespace Treewalk

namespace Table

theorem slot_eq_getElem? (t : Table Binding) (i : Nat) :
    t.slot i = t.slots.toList[i]?.getD .empty := by
  rw [slot, Array.getD_eq_getD_getElem?, Array.getElem?_toList]

theorem getElem?_of_slot {t : Table Binding} {i : Nat} {key : String} {b : Binding}
    (h : t.slot i = .occupied key b) : t.slots.toList[i]? = some (.occupied key b) := by
  rw [slot_eq_getElem?] at h
  cases hs : t.slots.toList[i]? with
  | none => simp [hs] at h
  | some slot => rw [hs] at h; exact congrArg some h

end Table

/-- A slot with a copy of its value, numbered from a number on. -/
def Slot.copyFrom (n : Nat) : Slot Binding → Slot Binding
  | .occupied key b => .occupied key (b.withValue (b.value.copy n).1)
  | slot => slot

/-- Copies of slots, numbered one after the other from a number on. -/
structure Slot.Copies (slots : List (Slot Binding)) (n : Nat) (slots' : List (Slot Binding))
    (n' : Nat) (start : Nat → Nat) : Prop where
  length_eq : slots'.length = slots.length
  getElem?_eq : ∀ i, slots'[i]? = slots[i]?.map (Slot.copyFrom (start i))
  bound : ∀ i key b, slots[i]? = some (.occupied key b) →
    n ≤ start i ∧ (b.value.copy (start i)).2 ≤ n'
  order : ∀ i j key b key' b', i < j → slots[i]? = some (.occupied key b) →
    slots[j]? = some (.occupied key' b') → (b.value.copy (start i)).2 ≤ start j

/-- One more slot before the others, which are numbered from where its copy ends. -/
theorem Slot.Copies.cons {slots slots' : List (Slot Binding)} {n m n' : Nat} {start : Nat → Nat}
    (h : Slot.Copies slots m slots' n' start) (slot : Slot Binding) (hle : n ≤ m) (hle' : m ≤ n')
    (hslot : ∀ key b, slot = .occupied key b → (b.value.copy n).2 ≤ m) :
    Slot.Copies (slot :: slots) n (slot.copyFrom n :: slots') n' fun i =>
      if i = 0 then n else start (i - 1) where
  length_eq := by simp [h.length_eq]
  getElem?_eq i := by
    cases i with
    | zero => rfl
    | succ i => simpa using h.getElem?_eq i
  bound i key b hi := by
    cases i with
    | zero =>
      have hb := hslot key b (by simpa using hi)
      exact ⟨Nat.le_refl n, Nat.le_trans hb hle'⟩
    | succ i =>
      obtain ⟨h₁, h₂⟩ := h.bound i key b (by simpa using hi)
      exact ⟨Nat.le_trans hle h₁, h₂⟩
  order i j key b key' b' hij hi hj := by
    cases j with
    | zero => omega
    | succ j =>
      cases i with
      | zero =>
        have hb := hslot key b (by simpa using hi)
        exact Nat.le_trans hb (h.bound j key' b' (by simpa using hj)).1
      | succ i => exact h.order i j key b key' b' (by omega) (by simpa using hi) (by simpa using hj)

theorem CopiedSlots.exists_copies {slots slots' : List (Slot Binding)} {n n' : Nat}
    (h : CopiedSlots slots n slots' n') : ∃ start, Slot.Copies slots n slots' n' start := by
  induction h with
  | nil n => exact ⟨fun _ => n, rfl, by simp, by simp, by simp⟩
  | empty hc ih =>
    obtain ⟨start, hs⟩ := ih
    exact ⟨_, hs.cons .empty (Nat.le_refl _) (hc.le fun v _ => v.le_copy) (by simp)⟩
  | tombstone hc ih =>
    obtain ⟨start, hs⟩ := ih
    exact ⟨_, hs.cons .tombstone (Nat.le_refl _) (hc.le fun v _ => v.le_copy) (by simp)⟩
  | @occupied slots slots' n n' key b hc ih =>
    obtain ⟨start, hs⟩ := ih
    refine ⟨_, hs.cons (.occupied key b) (b.value.le_copy n) (hc.le fun v _ => v.le_copy) ?_⟩
    rintro key' b' ⟨⟩
    exact Nat.le_refl _

/-- A table whose values are copies of those of another, each with numbers of its own. -/
structure Table.IsCopy (t : Table Binding) (n : Nat) (u : Table Binding) (n' : Nat)
    (start : String → Nat) : Prop where
  wellFormed : u.WellFormed
  get?_eq : ∀ key, u.get? key = (t.get? key).map fun b =>
    b.withValue (b.value.copy (start key)).1
  bound : ∀ key b, t.get? key = some b → n ≤ start key ∧ (b.value.copy (start key)).2 ≤ n'
  disjoint : ∀ key b key' b', key ≠ key' → t.get? key = some b → t.get? key' = some b' →
    (b.value.copy (start key)).2 ≤ start key' ∨ (b'.value.copy (start key')).2 ≤ start key

namespace Slot.Copies

variable {t u : Table Binding} {n n' : Nat} {start : Nat → Nat}

theorem slot_eq (h : Copies t.slots.toList n u.slots.toList n' start) (i : Nat) :
    u.slot i = (t.slot i).copyFrom (start i) := by
  rw [Table.slot_eq_getElem?, Table.slot_eq_getElem?, h.getElem?_eq]
  cases t.slots.toList[i]? <;> rfl

theorem find?_eq (h : Copies t.slots.toList n u.slots.toList n' start) (key : String) :
    u.find? key = t.find? key := by
  have hcap : u.capacity = t.capacity := by simpa [Table.capacity] using h.length_eq
  refine Table.find?_congr hcap fun i => ?_
  rw [h.slot_eq]
  cases t.slot i <;> rfl

theorem find?_of_slot (h : Copies t.slots.toList n u.slots.toList n' start) (ht : t.WellFormed)
    {i : Nat} {key : String} {c : Binding} (hu : u.slot i = .occupied key c) :
    u.find? key = some i := by
  rw [h.slot_eq] at hu
  cases hi : t.slot i with
  | occupied k b =>
    rw [hi] at hu
    obtain ⟨rfl, -⟩ := Slot.occupied.inj hu
    rw [h.find?_eq, ht.find?_of_slot hi]
  | _ => rw [hi] at hu; cases hu

/-- A look-up sees the copy of what was there, numbered from where its slot is. -/
theorem get?_eq (h : Copies t.slots.toList n u.slots.toList n' start) (key : String) :
    u.get? key = (t.get? key).map fun b =>
      b.withValue (b.value.copy (start ((t.find? key).getD 0))).1 := by
  refine Option.ext fun c => ?_
  rw [Table.get?_eq_some, Option.map_eq_some_iff]
  constructor
  · rintro ⟨i, hi, hu⟩
    rw [h.find?_eq] at hi
    obtain ⟨b, hb⟩ := Table.exists_slot_of_find? hi
    rw [h.slot_eq, hb] at hu
    refine ⟨b, Table.get?_eq_some.2 ⟨i, hi, hb⟩, ?_⟩
    rw [hi]
    exact (Slot.occupied.inj hu).2
  · rintro ⟨b, hb, rfl⟩
    obtain ⟨i, hi, hi'⟩ := Table.get?_eq_some.1 hb
    exact ⟨i, by rw [h.find?_eq, hi], by rw [h.slot_eq, hi', hi]; rfl⟩

theorem isCopy (h : Copies t.slots.toList n u.slots.toList n' start) (hu : u.WellFormed) :
    t.IsCopy n u n' fun key => start ((t.find? key).getD 0) where
  wellFormed := hu
  get?_eq := h.get?_eq
  bound key b hb := by
    obtain ⟨i, hi, hi'⟩ := Table.get?_eq_some.1 hb
    rw [hi]
    exact h.bound i key b (Table.getElem?_of_slot hi')
  disjoint key b key' b' hne hb hb' := by
    obtain ⟨i, hi, hi'⟩ := Table.get?_eq_some.1 hb
    obtain ⟨j, hj, hj'⟩ := Table.get?_eq_some.1 hb'
    rw [hi, hj]
    have hsi := Table.getElem?_of_slot hi'
    have hsj := Table.getElem?_of_slot hj'
    rcases Nat.lt_trichotomy i j with hij | rfl | hij
    · exact .inl (h.order i j key b key' b' hij hsi hsj)
    · exact (hne (Slot.occupied.inj (hi'.symm.trans hj')).1).elim
    · exact .inr (h.order j i key' b' key b hij hsj hsi)

end Slot.Copies

/-- A copied table finds its keys where it did, and has as many of them. -/
theorem Table.Copied.wellFormed {t u : Table Binding} {n n' : Nat} (h : t.Copied n u n')
    (ht : t.WellFormed) : u.WellFormed where
  find?_of_slot hu := by
    obtain ⟨start, hs⟩ := h.slots.exists_copies
    exact hs.find?_of_slot ht hu
  count_eq := by
    have hcount := h.slots.countP_isOccupied_eq
    rw [Array.countP_toList, Array.countP_toList] at hcount
    rw [h.count_eq, ht.count_eq, hcount]

/-- The table of a copy of an object. -/
theorem Value.exists_isCopy (id : ObjectId) {t : Table Binding} (ht : t.WellFormed) (n : Nat) :
    ∃ u n' start, (Value.object id t).copy n = (.object ⟨n'⟩ u, n' + 1) ∧
      t.IsCopy n u n' start ∧ n ≤ n' := by
  obtain ⟨u, n', hc, he⟩ := copy_object id t n
  obtain ⟨start, hs⟩ := hc.slots.exists_copies
  exact ⟨u, n', _, he, hs.isCopy (hc.wellFormed ht), hc.slots.le fun v _ => v.le_copy⟩

/-- A pairing is one to one if paired objects are equal on one side as soon as they are on the
other. -/
theorem biUnique_iff {P : Pairing} :
    Relator.BiUnique P ↔ ∀ i j i' j', P i j → P i' j' → (i = i' ↔ j = j') := by
  constructor
  · intro h i j i' j' hij hij'
    constructor
    · rintro rfl
      exact h.2 hij hij'
    · rintro rfl
      exact h.1 hij hij'
  · intro h
    exact ⟨fun i j k hik hjk => (h i k j k hik hjk).2 rfl,
      fun i j k hij hik => (h i j i k hij hik).1 rfl⟩

/-- Whether a pairing pairs only objects with numbers in two ranges. -/
def Pairing.Within (P : Pairing) (n n' m m' : Nat) : Prop :=
  ∀ i j, P i j → (n ≤ i.index ∧ i.index < n') ∧ m ≤ j.index ∧ j.index < m'

/-- Two new objects that are paired, and the pairs of a family whose members have no objects in
common. -/
def Pairing.gather (n m : Nat) (Q : String → Pairing) : Pairing :=
  fun i j => (i = ⟨n⟩ ∧ j = ⟨m⟩) ∨ ∃ key, Q key i j

theorem Pairing.biUnique_gather {n m : Nat} {Q : String → Pairing}
    (hQ : ∀ key, Relator.BiUnique (Q key))
    (hlt : ∀ {key i j}, Q key i j → i.index < n ∧ j.index < m)
    (hapart : ∀ {key key' i j i' j'}, key ≠ key' → Q key i j → Q key' i' j' → i ≠ i' ∧ j ≠ j') :
    Relator.BiUnique (gather n m Q) := by
  have hnew : ∀ {key i j}, Q key i j → i ≠ ⟨n⟩ ∧ j ≠ ⟨m⟩ := by
    intro key i j hij
    constructor
    · rintro rfl
      exact Nat.lt_irrefl _ (hlt hij).1
    · rintro rfl
      exact Nat.lt_irrefl _ (hlt hij).2
  refine biUnique_iff.2 ?_
  rintro i j i' j' (⟨rfl, rfl⟩ | ⟨key, hij⟩) (⟨rfl, rfl⟩ | ⟨key', hij'⟩)
  · simp
  · exact iff_of_false (hnew hij').1.symm (hnew hij').2.symm
  · exact iff_of_false (hnew hij).1 (hnew hij).2
  · by_cases hk : key = key'
    · subst hk
      exact biUnique_iff.1 (hQ key) i j i' j' hij hij'
    · obtain ⟨hi, hj⟩ := hapart hk hij hij'
      exact iff_of_false hi hj

namespace Table.IsCopy

variable {t u t' u' : Table Binding} {n n' m m' : Nat} {start start' : String → Nat}

/-- The pairing for the values at one key; there is nothing to pair at other keys. -/
theorem exists_pairing (h : t.Resized (fun v w => ∀ n m, ∃ Q : Pairing, Relator.BiUnique Q ∧
      Q.Within n (v.copy n).2 m (w.copy m).2 ∧ Value.Resized Q (v.copy n).1 (w.copy m).1) u)
    (start start' : String → Nat) (key : String) :
    ∃ Q : Pairing, Relator.BiUnique Q ∧
      (∀ i j, Q i j → ∃ b c, t.get? key = some b ∧ u.get? key = some c) ∧
        ∀ b c, t.get? key = some b → u.get? key = some c →
          Q.Within (start key) (b.value.copy (start key)).2 (start' key)
              (c.value.copy (start' key)).2 ∧
            Value.Resized Q (b.value.copy (start key)).1 (c.value.copy (start' key)).1 := by
  cases hb : t.get? key with
  | none => exact ⟨fun _ _ => False, biUnique_iff.2 (by simp), by simp, by simp⟩
  | some b =>
    obtain ⟨c, hc, -, -, hbc⟩ := h.of_get? hb
    obtain ⟨Q, hQ, hw, hr⟩ := hbc (start key) (start' key)
    refine ⟨Q, hQ, fun _ _ _ => ⟨b, c, rfl, hc⟩, fun b' c' hb' hc' => ?_⟩
    obtain rfl := Option.some.inj hb'
    obtain rfl := Option.some.inj (hc.symm.trans hc')
    exact ⟨hw, hr⟩

/-- The objects in two copies: the copies themselves, and those in the copies of the values. -/
theorem resized (ht : t.IsCopy n t' n' start) (hu : u.IsCopy m u' m' start') (hn : n ≤ n')
    (hm : m ≤ m')
    (h : t.Resized (fun v w => ∀ n m, ∃ Q : Pairing, Relator.BiUnique Q ∧
      Q.Within n (v.copy n).2 m (w.copy m).2 ∧ Value.Resized Q (v.copy n).1 (w.copy m).1) u) :
    ∃ Q : Pairing, Relator.BiUnique Q ∧ Q.Within n (n' + 1) m (m' + 1) ∧
      Value.Resized Q (.object ⟨n'⟩ t') (.object ⟨m'⟩ u') := by
  choose Q hQ hsome hQr using exists_pairing h start start'
  -- the numbers paired for one key, within the numbers of the whole copies
  have hrange : ∀ {key i j}, Q key i j → ∃ b c, t.get? key = some b ∧ u.get? key = some c ∧
      (start key ≤ i.index ∧ i.index < (b.value.copy (start key)).2) ∧
        start' key ≤ j.index ∧ j.index < (c.value.copy (start' key)).2 := by
    intro key i j hij
    obtain ⟨b, c, hb, hc⟩ := hsome key i j hij
    exact ⟨b, c, hb, hc, (hQr key b c hb hc).1 i j hij⟩
  have hbound : ∀ {key i j}, Q key i j → (n ≤ i.index ∧ i.index < n') ∧
      m ≤ j.index ∧ j.index < m' := by
    intro key i j hij
    obtain ⟨b, c, hb, hc, hi, hj⟩ := hrange hij
    have hb' := ht.bound key b hb
    have hc' := hu.bound key c hc
    omega
  refine ⟨Pairing.gather n' m' Q, Pairing.biUnique_gather hQ
    (fun hij => ⟨(hbound hij).1.2, (hbound hij).2.2⟩) ?_, ?_, ?_⟩
  · intro key key' i j i' j' hk hij hij'
    obtain ⟨b, c, hb, hc, hi, hj⟩ := hrange hij
    obtain ⟨b', c', hb', hc', hi', hj'⟩ := hrange hij'
    have hd := ht.disjoint key b key' b' hk hb hb'
    have hd' := hu.disjoint key c key' c' hk hc hc'
    constructor
    · rintro rfl
      omega
    · rintro rfl
      omega
  · rintro i j (⟨rfl, rfl⟩ | ⟨key, hij⟩)
    · exact ⟨⟨hn, Nat.lt_succ_self n'⟩, hm, Nat.lt_succ_self m'⟩
    · have hlt := hbound hij
      omega
  · refine Value.resized_object.2 ⟨.inl ⟨rfl, rfl⟩, ht.wellFormed, hu.wellFormed, fun key => ?_⟩
    rw [ht.get?_eq, hu.get?_eq]
    cases hb : t.get? key with
    | none =>
      rw [h.of_get?_none hb]
      exact .none
    | some b =>
      obtain ⟨c, hc, hname, hconst, -⟩ := h.of_get? hb
      rw [hc]
      exact .some ⟨hname, hconst, (hQr key b c hb hc).2.mono fun i j hij => .inr ⟨key, hij⟩⟩

end Table.IsCopy

/-- **Copies of values that are the same up to layout are the same up to layout.** The objects in
them are new and pair up one to one. -/
theorem Value.Resized.exists_copy {P : Pairing} {v w : Value} (h : Resized P v w) (n m : Nat) :
    ∃ Q : Pairing, Relator.BiUnique Q ∧ Q.Within n (v.copy n).2 m (w.copy m).2 ∧
      Resized Q (v.copy n).1 (w.copy m).1 := by
  induction h using Resized.induction generalizing n m with
  | leaf v hv =>
    rw [copy_leaf hv, copy_leaf hv]
    exact ⟨fun _ _ => False, biUnique_iff.2 (by simp), fun _ _ h => h.elim, .leaf hv⟩
  | object i j t u h hid ht =>
    obtain ⟨t', n', start, hn, ht', hle⟩ := exists_isCopy i ht.left n
    obtain ⟨u', m', start', hm, hu', hle'⟩ := exists_isCopy j ht.right m
    rw [hn, hm]
    exact ht'.resized hu' hle hle' (ht.mono fun _ _ h => h.2)

end Treewalk
