import Treewalk.Value.Basic

/-!
# Equality of values

Numbers are equal if their values and tags are, so not-a-number differs from itself. Objects are
equal as maps from keys to bindings. Functions and natives are compared by identity.

Main statement: `same_object`, equality of objects is equality of tables.
-/

namespace Treewalk

mutual

/-- Structural equality of values. -/
def Value.same : Value → Value → Bool
  | .number a, .number b => a.same b
  | .bool a, .bool b => a == b
  | .null, .null => true
  | .string a, .string b => a == b
  | .object _ ⟨⟨slots⟩, count⟩, .object _ other =>
    count == other.size && sameSlots slots other
  | .native a, .native b => a.number == b.number
  | .function a, .function b => a.same b
  | _, _ => false

/-- Whether every live slot has an equal binding in a table. -/
def sameSlots : List (Slot Binding) → Table Binding → Bool
  | [], _ => true
  | .occupied key ⟨name, isConst, value⟩ :: rest, other =>
    ((other.get? key).any fun b =>
        name == b.name && isConst == b.isConst && value.same b.value) &&
      sameSlots rest other
  | _ :: rest, other => sameSlots rest other

end

/-- Equality of bindings: names, flags and values. -/
def BindingOf.same (a b : Binding) : Bool :=
  a.name == b.name && a.isConst == b.isConst && a.value.same b.value

theorem sameSlots_eq_all (slots : List (Slot Binding)) (other : Table Binding) :
    sameSlots slots other =
      (slots.filterMap Slot.pair?).all fun (key, b) =>
        (other.get? key).any b.same := by
  induction slots with
  | nil => simp [sameSlots]
  | cons s rest ih =>
    cases s with
    | empty => simp [sameSlots, Slot.pair?, ih]
    | tombstone => simp [sameSlots, Slot.pair?, ih]
    | occupied key b => simp [sameSlots, Slot.pair?, ih]; rfl

/-- Objects are equal when their tables are equal as maps. -/
theorem Value.same_object (i j : ObjectId) (a b : Table Binding) :
    (Value.object i a).same (.object j b) = a.sameBy BindingOf.same b := by
  obtain ⟨⟨slots⟩, count⟩ := a
  simp only [Value.same, sameSlots_eq_all, Table.sameBy, Table.size, Table.entries]

end Treewalk
