/-!
# Tables of a fixed capacity

A table maps strings to values in a fixed number of slots. A key's search starts at its home slot
and goes on slot by slot, around the end, until the key or a slot that was never used. A removed
key leaves a tombstone, so that searches for other keys go on past it. A table never grows: once
every slot is live, nothing can be set.

The number of live keys is kept beside the slots and never counted: setting a new key adds one to
it, removing a key takes one away. That it is the number of live slots is an invariant of the
operations (`WellFormed.count_eq`), not part of the definition.

Main statement: `search_eq_findSome?`, a search asks the slots of the probe sequence in order.
-/

namespace Treewalk

/-- A slot of a table: never used, used before, or live. -/
inductive Slot (α : Type) where
  | empty
  | tombstone
  | occupied (key : String) (value : α)
  deriving Repr

namespace Slot

variable {α β : Type}

/-- Whether the slot is live. -/
def isOccupied : Slot α → Bool
  | occupied .. => true
  | _ => false

/-- The key and value of a live slot. -/
def pair? : Slot α → Option (String × α)
  | occupied key value => some (key, value)
  | _ => none

end Slot

/-- Slots in a fixed number, searched from a key's home slot. -/
structure Table (α : Type) where
  slots : Array (Slot α)
  /-- The number of live keys, as the changes of the table have kept it. -/
  count : Nat

namespace Table

variable {α β : Type}

/-- A table of unused slots. -/
def withCapacity (capacity : Nat) : Table α := ⟨Array.replicate capacity .empty, 0⟩

/-- The number of slots. -/
def capacity (t : Table α) : Nat := t.slots.size

/-- The slot at an index; there are unused slots behind the last. -/
def slot (t : Table α) (i : Nat) : Slot α := t.slots.getD i .empty

/-- The live keys with their values, in the order of the slots. -/
def entries (t : Table α) : List (String × α) := t.slots.toList.filterMap Slot.pair?

/-- The live keys, in the order of the slots. -/
def keys (t : Table α) : List String := t.entries.map Prod.fst

/-- The number of live keys. -/
def size (t : Table α) : Nat := t.count

/-- Whether no key is live. -/
def isEmpty (t : Table α) : Bool := t.count == 0

/-- Whether there are as many live keys as slots. -/
def isFull (t : Table α) : Bool := decide (t.capacity ≤ t.count)

/-! ### Searching -/

/-- The checksum of a key's bytes, each weighted with its position, in words of 32 bits. -/
def checksum (bytes : List UInt8) (position : UInt32) (sum : UInt32) : UInt32 :=
  match bytes with
  | [] => sum
  | byte :: bytes => checksum bytes (position + 1) (sum + byte.toUInt32 * position)

/-- The slot where the search for a key starts. -/
def home (key : String) (capacity : Nat) : Nat :=
  (checksum key.toUTF8.data.toList 0 1).toNat % max capacity 1

/-- The slot asked after a number of steps from the start. -/
def probe (start capacity step : Nat) : Nat := (start + step) % capacity

/-- The slots asked in turn from a start: each one once. -/
def probes (start capacity : Nat) : List Nat := (List.range capacity).map (probe start capacity)

/-- Asks slots in turn, from a step on and for a number of steps, until one answers. -/
@[specialize] def searchFrom (t : Table α) (start : Nat) (ask : Nat → Slot α → Option β) :
    (remaining step : Nat) → Option β
  | 0, _ => none
  | remaining + 1, step =>
    let i := probe start t.capacity step
    match ask i (t.slot i) with
    | some answer => some answer
    | none => searchFrom t start ask remaining (step + 1)

/-- Asks every slot in turn from a key's home slot until one answers. -/
@[inline] def search (t : Table α) (key : String) (ask : Nat → Slot α → Option β) : Option β :=
  t.searchFrom (home key t.capacity) ask t.capacity 0

/-- Stops a search at the key's live slot, with its index, or at an unused slot, with nothing. -/
def askKey (key : String) (i : Nat) : Slot α → Option (Option Nat)
  | .empty => some none
  | .tombstone => none
  | .occupied k _ => if k = key then some (some i) else none

/-- Stops a search at the first slot that is not live. -/
def askFree (i : Nat) : Slot α → Option Nat
  | .occupied .. => none
  | _ => some i

/-- The index of a key's live slot. -/
def find? (t : Table α) (key : String) : Option Nat := (t.search key (askKey key)).join

/-- The index of the slot for a new key. -/
def free? (t : Table α) (key : String) : Option Nat := t.search key askFree

/-! ### Reading and writing -/

/-- The index of a live key's slot, with the value. -/
def locate? (t : Table α) (key : String) : Option (Nat × α) := do
  let i ← t.find? key
  let (_, value) ← (t.slot i).pair?
  return (i, value)

/-- The value of a live key. -/
def get? (t : Table α) (key : String) : Option α := (t.locate? key).map Prod.snd

/-- Whether a key is live. -/
def contains (t : Table α) (key : String) : Bool := (t.find? key).isSome

/-- The table with one slot changed, and the same count. -/
def put (t : Table α) (i : Nat) (s : Slot α) : Table α :=
  { t with slots := t.slots.setIfInBounds i s }

/-- The table with another count, and the same slots. -/
def withCount (t : Table α) (n : Nat) : Table α := { t with count := n }

/-- What setting a key did. -/
inductive SetOutcome where
  | inserted
  | overwritten
  deriving DecidableEq, Repr

/-- The count of a table of so many keys after a key was set. -/
def SetOutcome.recount : SetOutcome → Nat → Nat
  | inserted, n => n + 1
  | overwritten, n => n

/-- The table with a key in a slot, as a new one or in the place of what was there. Outside the
slots nothing is written. -/
def write (t : Table α) (p : SetOutcome × Nat) (key : String) (value : α) : Table α :=
  if p.2 < t.capacity then (t.put p.2 (.occupied key value)).withCount (p.1.recount t.count)
  else t

/-- The table without the key of a live slot. -/
def clear (t : Table α) (i : Nat) : Table α := (t.put i .tombstone).withCount (t.count - 1)

/-- The index of the slot that setting a key writes, and what the write does. There is none in a
full table, even if the key is live in it. -/
def place? (t : Table α) (key : String) : Option (SetOutcome × Nat) :=
  if t.isFull then none
  else
    match t.find? key with
    | some i => some (.overwritten, i)
    | none => (t.free? key).map fun i => (.inserted, i)

/-- Sets a key. -/
def set? (t : Table α) (key : String) (value : α) : Option (SetOutcome × Table α) :=
  (t.place? key).map fun p => (p.1, t.write p key value)

/-- Changes the value of a live key, also in a full table. -/
def modify? (t : Table α) (key : String) (f : α → α) : Option (Table α) :=
  (t.locate? key).map fun (i, value) => t.write (.overwritten, i) key (f value)

/-- Removes a live key, giving its value. -/
def erase? (t : Table α) (key : String) : Option (α × Table α) :=
  (t.locate? key).map fun (i, value) => (value, t.clear i)

/-- Equality as maps: capacities and the places of the keys do not count. -/
def sameBy (same : α → α → Bool) (a b : Table α) : Bool :=
  a.size == b.size &&
    a.entries.all fun (key, value) => (b.get? key).any (same value)

/-! ### First facts -/

@[simp] theorem capacity_withCapacity (n : Nat) :
    (withCapacity n : Table α).capacity = n := by
  simp [withCapacity, capacity]

@[simp] theorem capacity_put (t : Table α) (i : Nat) (s : Slot α) :
    (t.put i s).capacity = t.capacity := by
  simp [put, capacity]

@[simp] theorem slots_withCount (t : Table α) (n : Nat) : (t.withCount n).slots = t.slots := rfl

@[simp] theorem count_put (t : Table α) (i : Nat) (s : Slot α) : (t.put i s).count = t.count := rfl

@[simp] theorem count_withCount (t : Table α) (n : Nat) : (t.withCount n).count = n := rfl

@[simp] theorem capacity_withCount (t : Table α) (n : Nat) :
    (t.withCount n).capacity = t.capacity := rfl

@[simp] theorem slots_write (t : Table α) (p : SetOutcome × Nat) (key : String) (v : α) :
    (t.write p key v).slots = (t.put p.2 (.occupied key v)).slots := by
  rw [write]
  split
  · rfl
  · next h => exact (Array.setIfInBounds_eq_of_size_le (Nat.le_of_not_lt h)).symm

theorem count_write {t : Table α} {p : SetOutcome × Nat} (h : p.2 < t.capacity) (key : String)
    (v : α) : (t.write p key v).count = p.1.recount t.count := by
  rw [write, if_pos h, count_withCount]

@[simp] theorem capacity_write (t : Table α) (p : SetOutcome × Nat) (key : String) (v : α) :
    (t.write p key v).capacity = t.capacity := by
  rw [capacity, slots_write]
  exact capacity_put ..

@[simp] theorem slots_clear (t : Table α) (i : Nat) :
    (t.clear i).slots = (t.put i .tombstone).slots := rfl

@[simp] theorem capacity_clear (t : Table α) (i : Nat) : (t.clear i).capacity = t.capacity := by
  rw [clear, capacity_withCount, capacity_put]

@[simp] theorem entries_withCapacity (n : Nat) :
    (withCapacity n : Table α).entries = [] := by
  simp [withCapacity, entries, List.filterMap_replicate, Slot.pair?]

/-- The live slots and the live keys are as many. -/
theorem countP_isOccupied (t : Table α) :
    t.slots.countP Slot.isOccupied = t.entries.length := by
  rw [entries, ← Array.countP_toList]
  induction t.slots.toList with
  | nil => rfl
  | cons s rest ih =>
    cases s <;>
      simp [List.countP_cons, Slot.isOccupied, Slot.pair?, List.filterMap_cons, ih]

theorem searchFrom_eq_findSome? (t : Table α) (start : Nat) (ask : Nat → Slot α → Option β)
    (remaining step : Nat) :
    t.searchFrom start ask remaining step =
      ((List.range' step remaining).map (probe start t.capacity)).findSome?
        fun i => ask i (t.slot i) := by
  induction remaining generalizing step with
  | zero => rfl
  | succ remaining ih =>
    rw [searchFrom, List.range'_succ, List.map_cons, List.findSome?_cons]
    split <;> simp_all

/-- A search asks the slots of the probe sequence in order. -/
theorem search_eq_findSome? (t : Table α) (key : String) (ask : Nat → Slot α → Option β) :
    t.search key ask =
      (probes (home key t.capacity) t.capacity).findSome? fun i => ask i (t.slot i) := by
  rw [search, searchFrom_eq_findSome?, probes, List.range_eq_range']

end Table

end Treewalk
