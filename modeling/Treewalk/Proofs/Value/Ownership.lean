import Treewalk.Proofs.Scope.Owned
import Treewalk.Proofs.Value.Copy

/-!
# The objects in a copy have one owner

Every object in a copy is new, and it is at one place in the copy. So no other value has it, and
nothing but the copy owns it.

* `Value.objectIds` are the identities of the objects in a value, one for each place.
* `Value.objectIds_copy`: in a copy they differ, and lie between the number before and after it.
* `Value.count_objectIds_copy`: among all values, each is at one place.
-/

namespace Treewalk

/-- The identities of the objects in a value, as often as they are. -/
def Value.objectIds (v : Value) : List ObjectId := v.parts.filterMap Value.objectId?

/-- Identities that differ and lie in a range of numbers. -/
structure FreshIds (n n' : Nat) (ids : List ObjectId) : Prop where
  nodup : ids.Nodup
  le : ∀ id ∈ ids, n ≤ id.index
  lt : ∀ id ∈ ids, id.index < n'

theorem FreshIds.append {n m n' : Nat} {ids ids' : List ObjectId} (h : FreshIds n m ids)
    (h' : FreshIds m n' ids') (hle : n ≤ m) (hle' : m ≤ n') : FreshIds n n' (ids ++ ids') where
  nodup := by
    refine List.nodup_append'.2 ⟨h.nodup, h'.nodup, fun id hid hid' => ?_⟩
    exact absurd (h.lt id hid) (Nat.not_lt.2 (h'.le id hid'))
  le id hid := by
    rcases List.mem_append.1 hid with hid | hid
    · exact h.le id hid
    · exact hle.trans (h'.le id hid)
  lt id hid := by
    rcases List.mem_append.1 hid with hid | hid
    · exact (h.lt id hid).trans_le hle'
    · exact h'.lt id hid

namespace Value

variable {v : Value} {n : Nat} {T : ObjectId → Table Binding} {id : ObjectId}

theorem objectIds_leaf (h : v.type ≠ .object) : v.objectIds = [] := by
  rw [objectIds, parts_leaf h]
  cases v <;> first | rfl | exact (h rfl).elim

theorem objectIds_object (id : ObjectId) (t : Table Binding) :
    (object id t).objectIds = id :: t.values.flatMap objectIds := by
  rw [objectIds, parts_object]
  exact congrArg (List.cons id) List.filterMap_flatMap

theorem count_objectIds (v : Value) (id : ObjectId) :
    v.objectIds.count id = v.parts.countP (·.objectId? = some id) := by
  rw [objectIds, List.count_filterMap]
  exact List.countP_congr fun w _ => by simp

theorem Obeys.index_lt (h : v.Obeys T n) (hid : id ∈ v.objectIds) : id.index < n := by
  induction v using Value.induction with
  | leaf v hv => simp [objectIds_leaf hv] at hid
  | object i t ih =>
    obtain ⟨⟨-, hi⟩, hvs⟩ := obeys_object.1 h
    rw [objectIds_object, List.mem_cons] at hid
    obtain rfl | hid := hid
    · exact hi
    · obtain ⟨w, hw, hid⟩ := List.mem_flatMap.1 hid
      exact ih w hw (hvs w hw) hid

end Value

theorem CopiedSlots.freshIds {slots slots' : List (Slot Binding)} {n n' : Nat}
    (h : CopiedSlots slots n slots' n')
    (hv : ∀ v ∈ slots.filterMap Slot.value?, ∀ n, FreshIds n (v.copy n).2 (v.copy n).1.objectIds) :
    FreshIds n n' ((slots'.filterMap Slot.value?).flatMap Value.objectIds) := by
  induction h with
  | nil => exact ⟨List.nodup_nil, by simp, by simp⟩
  | empty _ ih | tombstone _ ih => exact ih hv
  | @occupied slots slots' n n' key b h ih =>
    have hrest := ih fun v hm => hv v (List.mem_cons_of_mem _ hm)
    exact (hv b.value List.mem_cons_self n).append hrest (b.value.le_copy n)
      (h.le fun v _ => v.le_copy)

namespace Value

/-- **The objects in a copy are new, and each is at one place in it.** -/
theorem objectIds_copy (v : Value) (n : Nat) :
    FreshIds n (v.copy n).2 (v.copy n).1.objectIds := by
  induction v using Value.induction generalizing n with
  | leaf v hv =>
    rw [copy_leaf hv, objectIds_leaf hv]
    exact ⟨List.nodup_nil, by simp, by simp⟩
  | object id t ih =>
    obtain ⟨u, n', h, he⟩ := copy_object id t n
    obtain ⟨hnodup, hle, hlt⟩ := h.slots.freshIds ih
    rw [he, objectIds_object]
    refine ⟨List.nodup_cons.2 ⟨fun hid => Nat.lt_irrefl _ (hlt _ hid), hnodup⟩, fun id hid => ?_,
      fun id hid => ?_⟩
    · obtain rfl | hid := List.mem_cons.1 hid
      · exact h.slots.le fun v _ => v.le_copy
      · exact hle id hid
    · obtain rfl | hid := List.mem_cons.1 hid
      · exact Nat.lt_succ_self n'
      · exact Nat.lt_succ_of_lt (hlt id hid)

/-- **The objects in a copy have one owner**: among the copy and all values from before it, each of
them is at one place. -/
theorem count_objectIds_copy {n : Nat} {others : List Value}
    (h : ∀ x ∈ others, ∀ id ∈ x.objectIds, id.index < n) {v : Value} {id : ObjectId}
    (hid : id ∈ (v.copy n).1.objectIds) :
    (((v.copy n).1 :: others).flatMap objectIds).count id = 1 := by
  have hfresh := v.objectIds_copy n
  have hothers : id ∉ others.flatMap objectIds := by
    intro hm
    obtain ⟨x, hx, hxid⟩ := List.mem_flatMap.1 hm
    exact absurd (h x hx id hxid) (Nat.not_lt.2 (hfresh.le id hid))
  rw [List.flatMap_cons, List.count_append, List.count_eq_one_of_mem hfresh.nodup hid,
    List.count_eq_zero_of_not_mem hothers]

/-- No object in a copy is at two places. -/
theorem unshared_copy (v : Value) (n : Nat) (s : ScopeId) : Unshared s [(v.copy n).1] := by
  intro id t _ _
  rw [List.flatMap_cons, List.flatMap_nil, List.append_nil, ← count_objectIds]
  exact List.nodup_iff_count_le_one.1 (v.objectIds_copy n).nodup id

end Value

end Treewalk
