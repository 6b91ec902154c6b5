import Treewalk.Value.Basic

/-!
# Copies of values

A value that crosses an ownership boundary is copied: arguments, results, properties. A copy
of an object is a new object with the same slots, and so are the copies of the objects in it.
Functions keep their code and their scope. New objects are numbered from a supply.
-/

namespace Treewalk

mutual

/-- A copy of a value and the supply of object numbers after it. -/
def Value.copy : Value → Nat → Value × Nat
  | .object _ ⟨⟨slots⟩, count⟩, next =>
    let (slots, next) := copySlots #[] slots next
    (.object ⟨next⟩ ⟨slots, count⟩, next + 1)
  | v, next => (v, next)

/-- Copies of slots, behind those that are done: places, keys, names and flags are kept. -/
def copySlots (done : Array (Slot Binding)) :
    List (Slot Binding) → Nat → Array (Slot Binding) × Nat
  | [], next => (done, next)
  | .occupied key ⟨name, isConst, value⟩ :: rest, next =>
    let (value, next) := value.copy next
    copySlots (done.push (.occupied key ⟨name, isConst, value⟩)) rest next
  | .empty :: rest, next => copySlots (done.push .empty) rest next
  | .tombstone :: rest, next => copySlots (done.push .tombstone) rest next

end

/-- A copy of a table of values. -/
def Table.copyValues (t : Table Value) (next : Nat) : Table Value × Nat :=
  let step := fun (slots, next) (s : Slot Value) =>
    match s with
    | .occupied key value =>
      let (value, next) := value.copy next
      (slots.push (.occupied key value), next)
    | s => (slots.push s, next)
  let (slots, next) := t.slots.foldl step (#[], next)
  (⟨slots, t.count⟩, next)

@[simp] theorem size_copySlots (done : Array (Slot Binding)) (slots : List (Slot Binding))
    (next : Nat) : (copySlots done slots next).1.size = done.size + slots.length := by
  induction slots generalizing done next with
  | nil => simp [copySlots]
  | cons s rest ih => cases s <;> simp [copySlots, ih] <;> omega

@[simp] theorem Value.type_copy (v : Value) (next : Nat) : (v.copy next).1.type = v.type := by
  cases v <;> simp [Value.copy, Value.type]

end Treewalk
