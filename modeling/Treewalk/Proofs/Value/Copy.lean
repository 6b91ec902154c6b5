import Treewalk.Proofs.Value.Nesting

/-!
# What a copy is

A copy of an object has the slots of the object, with copies of the values in them, and a number of
its own above those of all objects nested in it.

* `copy_object` gives the table and the number of a copy.
* `Value.scopes_copy`: a copy holds the same handles.
* `Value.exists_copied_of_nested`: every object in a copy has the table of an object copied.
* `Value.exists_obeys_copy`: the identities in a copy are new, and each stands for one object.
-/

namespace Treewalk

/-- Slots with the same keys, names and flags, each value copied in turn from a number on. -/
inductive CopiedSlots : List (Slot Binding) → Nat → List (Slot Binding) → Nat → Prop
  | nil (n : Nat) : CopiedSlots [] n [] n
  | empty {slots slots' : List (Slot Binding)} {n n' : Nat} (h : CopiedSlots slots n slots' n') :
    CopiedSlots (.empty :: slots) n (.empty :: slots') n'
  | tombstone {slots slots' : List (Slot Binding)} {n n' : Nat}
    (h : CopiedSlots slots n slots' n') :
    CopiedSlots (.tombstone :: slots) n (.tombstone :: slots') n'
  | occupied {slots slots' : List (Slot Binding)} {n n' : Nat} (key : String) (b : Binding)
    (h : CopiedSlots slots (b.value.copy n).2 slots' n') :
    CopiedSlots (.occupied key b :: slots) n
      (.occupied key (b.withValue (b.value.copy n).1) :: slots') n'

/-- A table of copied slots, with the count as it was. -/
structure Table.Copied (t : Table Binding) (n : Nat) (u : Table Binding) (n' : Nat) : Prop where
  slots : CopiedSlots t.slots.toList n u.slots.toList n'
  count_eq : u.count = t.count

theorem exists_copiedSlots (done : Array (Slot Binding)) (slots : List (Slot Binding)) (n : Nat) :
    ∃ slots' n', CopiedSlots slots n slots' n' ∧
      copySlots done slots n = (done ++ slots'.toArray, n') := by
  induction slots generalizing done n with
  | nil => exact ⟨[], n, .nil n, by simp [copySlots]⟩
  | cons slot rest ih =>
    cases slot with
    | empty =>
      obtain ⟨slots', n', h, he⟩ := ih (done.push .empty) n
      exact ⟨_, n', .empty h, by simp [copySlots, he]⟩
    | tombstone =>
      obtain ⟨slots', n', h, he⟩ := ih (done.push .tombstone) n
      exact ⟨_, n', .tombstone h, by simp [copySlots, he]⟩
    | occupied key b =>
      obtain ⟨slots', n', h, he⟩ := ih
        (done.push (.occupied key (b.withValue (b.value.copy n).1))) (b.value.copy n).2
      refine ⟨_, n', .occupied key b h, ?_⟩
      rw [copySlots]
      simpa [BindingOf.withValue] using he

/-- The table of a copy, and its number. -/
theorem copy_object (id : ObjectId) (t : Table Binding) (n : Nat) :
    ∃ u n', t.Copied n u n' ∧ (Value.object id t).copy n = (.object ⟨n'⟩ u, n' + 1) := by
  obtain ⟨slots', n', h, he⟩ := exists_copiedSlots #[] t.slots.toList n
  refine ⟨⟨slots'.toArray, t.count⟩, n', ⟨by simpa using h, rfl⟩, ?_⟩
  rw [Value.copy]
  simp [he]

theorem Value.copy_leaf {v : Value} (h : v.type ≠ .object) (n : Nat) : v.copy n = (v, n) := by
  cases v <;> first | rfl | exact (h rfl).elim

namespace CopiedSlots

variable {slots slots' : List (Slot Binding)} {n n' : Nat}

/-- Induction over the values copied. -/
theorem le (h : CopiedSlots slots n slots' n')
    (hv : ∀ v ∈ slots.filterMap Slot.value?, ∀ n, n ≤ (v.copy n).2) : n ≤ n' := by
  induction h with
  | nil => exact Nat.le_refl _
  | empty _ ih => exact ih hv
  | tombstone _ ih => exact ih hv
  | @occupied slots slots' n n' key b _ ih =>
    have hb := hv b.value List.mem_cons_self n
    exact Nat.le_trans hb (ih fun v hm => hv v (List.mem_cons_of_mem _ hm))

theorem scopes_eq (h : CopiedSlots slots n slots' n')
    (hv : ∀ v ∈ slots.filterMap Slot.value?, ∀ n, (v.copy n).1.scopes = v.scopes) :
    slotScopes slots' = slotScopes slots := by
  induction h with
  | nil => rfl
  | empty _ ih => exact ih hv
  | tombstone _ ih => exact ih hv
  | @occupied slots slots' n n' key b _ ih =>
    have hb : (b.value.copy n).1.scopes = b.value.scopes := hv b.value List.mem_cons_self n
    have ih := ih fun v hm => hv v (List.mem_cons_of_mem _ hm)
    simp only [slotScopes, BindingOf.withValue, hb, ih]

theorem countP_isOccupied_eq (h : CopiedSlots slots n slots' n') :
    slots'.countP Slot.isOccupied = slots.countP Slot.isOccupied := by
  induction h with
  | nil => rfl
  | empty _ ih | tombstone _ ih => exact ih
  | occupied key b _ ih =>
    rw [List.countP_cons_of_pos (by rfl), List.countP_cons_of_pos (by rfl), ih]

end CopiedSlots

namespace Value

theorem le_copy (v : Value) (n : Nat) : n ≤ (v.copy n).2 := by
  induction v using Value.induction generalizing n with
  | leaf v hv => exact Nat.le_of_eq (by rw [copy_leaf hv])
  | object id t ih =>
    obtain ⟨u, n', h, he⟩ := copy_object id t n
    have hle := h.slots.le ih
    rw [he]
    dsimp only
    omega

/-- A copy holds the same handles. -/
theorem scopes_copy (v : Value) (n : Nat) : (v.copy n).1.scopes = v.scopes := by
  induction v using Value.induction generalizing n with
  | leaf v hv => rw [copy_leaf hv]
  | object id t ih =>
    obtain ⟨u, n', h, he⟩ := copy_object id t n
    rw [he]
    exact h.slots.scopes_eq ih

end Value

/-- Every value in the slots copied is the copy of one. -/
theorem CopiedSlots.exists_of_mem {slots slots' : List (Slot Binding)} {n n' : Nat}
    (h : CopiedSlots slots n slots' n') {w : Value} (hw : w ∈ slots'.filterMap Slot.value?) :
    ∃ v ∈ slots.filterMap Slot.value?, ∃ m, w = (v.copy m).1 := by
  induction h with
  | nil => exact (List.not_mem_nil hw).elim
  | empty _ ih => exact ih hw
  | tombstone _ ih => exact ih hw
  | @occupied slots slots' n n' key b _ ih =>
    rcases List.mem_cons.1 hw with rfl | hw
    · exact ⟨b.value, List.mem_cons_self, n, rfl⟩
    · obtain ⟨v, hv, m, rfl⟩ := ih hw
      exact ⟨v, List.mem_cons_of_mem _ hv, m, rfl⟩

/-- Every object in a copy has the table of an object copied. -/
theorem Value.exists_copied_of_nested {v : Value} {n : Nat} {id : ObjectId} {u : Table Binding}
    (h : Nested (.object id u) (v.copy n).1) :
    ∃ id' t m m', Nested (.object id' t) v ∧ t.Copied m u m' := by
  induction v using Value.induction generalizing n with
  | leaf v hv =>
    rw [copy_leaf hv] at h
    cases h with
    | self => exact (hv rfl).elim
    | bound => exact (hv rfl).elim
  | object id' t ih =>
    obtain ⟨u', n', hc, he⟩ := copy_object id' t n
    rw [he] at h
    cases h with
    | self => exact ⟨id', t, n, n', .self, hc⟩
    | bound hw hn =>
      obtain ⟨v, hv, m, rfl⟩ := hc.slots.exists_of_mem hw
      obtain ⟨i, t', k, k', ht', hc'⟩ := ih v hv hn
      exact ⟨i, t', k, k', .bound hv ht', hc'⟩

/-- The values copied have new identities, each for one object, if every copy has. -/
theorem CopiedSlots.exists_obeys {slots slots' : List (Slot Binding)} {n n' : Nat}
    (h : CopiedSlots slots n slots' n')
    (hv : ∀ v ∈ slots.filterMap Slot.value?, ∀ (T : ObjectId → Table Binding) (n : Nat), ∃ T',
      (∀ i : ObjectId, i.index < n → T' i = T i) ∧ (v.copy n).1.Obeys T' (v.copy n).2)
    (T : ObjectId → Table Binding) :
    ∃ T', (∀ i : ObjectId, i.index < n → T' i = T i) ∧
      ∀ v ∈ slots'.filterMap Slot.value?, v.Obeys T' n' := by
  induction h generalizing T with
  | nil => exact ⟨T, fun _ _ => rfl, fun v hv => (List.not_mem_nil hv).elim⟩
  | empty _ ih => exact ih hv T
  | tombstone _ ih => exact ih hv T
  | @occupied slots slots' n n' key b h ih =>
    obtain ⟨T₁, h₁, ho₁⟩ := hv b.value List.mem_cons_self T n
    have hv' := fun v hm => hv v (List.mem_cons_of_mem _ hm)
    obtain ⟨T₂, h₂, ho₂⟩ := ih hv' T₁
    have hle := b.value.le_copy n
    refine ⟨T₂, fun i hi => (h₂ i (by omega)).trans (h₁ i hi), fun v hm => ?_⟩
    rcases List.mem_cons.1 hm with rfl | hm
    · exact ho₁.mono h₂ (h.le fun v _ => v.le_copy)
    · exact ho₂ v hm

/-- **The identities in a copy are new, and each stands for one object.** -/
theorem Value.exists_obeys_copy (v : Value) (T : ObjectId → Table Binding) (n : Nat) :
    ∃ T', (∀ i : ObjectId, i.index < n → T' i = T i) ∧ (v.copy n).1.Obeys T' (v.copy n).2 := by
  induction v using Value.induction generalizing T n with
  | leaf v hv =>
    rw [copy_leaf hv]
    exact ⟨T, fun _ _ => rfl, obeys_of_type_ne hv⟩
  | object id t ih =>
    obtain ⟨u, n', h, he⟩ := copy_object id t n
    obtain ⟨T', hT, ho⟩ := h.slots.exists_obeys ih T
    have hle := h.slots.le fun v _ => v.le_copy
    rw [he]
    refine ⟨fun i => if i = ⟨n'⟩ then u else T' i, fun i hi => ?_, ?_⟩
    · refine (if_neg ?_).trans (hT i hi)
      rintro rfl
      exact absurd hi (by simpa using hle)
    · refine obeys_object.2 ⟨⟨by simp, by simp⟩, fun v hv => (ho v hv).mono (fun i hi => ?_)
        (Nat.le_succ n')⟩
      refine if_neg ?_
      rintro rfl
      exact Nat.lt_irrefl _ hi

end Treewalk
