import Treewalk.Proofs.Table.Map
import Treewalk.Scope.Leaving
import Treewalk.Value.Text

/-!
# Values in values

The values bound in a table of bindings, and the objects nested in a value. Functions on values
recurse through the slots of tables; here each of them gets its equation over the values bound in
an object, and `Value.induction` proves facts about all values with no further look at slots.

An object identity stands for one object. `Value.Obeys` says of a value that its nested objects are
those that a map from identities to tables gives, with all identities below a bound.
-/

namespace Treewalk

/-- The value bound in a live slot. -/
def Slot.value? (slot : Slot Binding) : Option Value := slot.pair?.map fun p => p.2.value

/-- The values bound in a table, in the order of the slots. -/
def Table.values (t : Table Binding) : List Value := t.slots.toList.filterMap Slot.value?

/-! ## Bound values -/

namespace Table

variable {t : Table Binding} {v : Value}

theorem mem_values : v ∈ t.values ↔ ∃ i key b, t.slot i = .occupied key b ∧ b.value = v := by
  simp only [values, List.mem_filterMap, Slot.value?, Option.map_eq_some_iff]
  constructor
  · rintro ⟨slot, hm, ⟨key, b⟩, hp, rfl⟩
    cases slot with
    | occupied k c =>
      obtain ⟨rfl, rfl⟩ : k = key ∧ c = b := by simpa [Slot.pair?] using hp
      obtain ⟨i, hi⟩ := (mem_slots_iff (by simp)).1 hm
      exact ⟨i, k, c, hi, rfl⟩
    | _ => simp [Slot.pair?] at hp
  · rintro ⟨i, key, b, hs, rfl⟩
    exact ⟨.occupied key b, (mem_slots_iff (by simp)).2 ⟨i, hs⟩, (key, b), rfl, rfl⟩

theorem value_mem_values {key : String} {b : Binding} (h : (key, b) ∈ t.entries) :
    b.value ∈ t.values := by
  obtain ⟨i, hi⟩ := mem_entries_iff.1 h
  exact mem_values.2 ⟨i, key, b, hi, rfl⟩

theorem mem_values_of_get? {key : String} {b : Binding} (h : t.get? key = some b) :
    b.value ∈ t.values := by
  obtain ⟨i, -, hs⟩ := get?_eq_some.1 h
  exact mem_values.2 ⟨i, key, b, hs, rfl⟩

theorem WellFormed.mem_values (h : t.WellFormed) :
    v ∈ t.values ↔ ∃ key b, t.get? key = some b ∧ b.value = v := by
  constructor
  · intro hv
    obtain ⟨i, key, b, hs, rfl⟩ := Table.mem_values.1 hv
    exact ⟨key, b, h.get?_eq_some_iff.2 ⟨i, hs⟩, rfl⟩
  · rintro ⟨key, b, hb, rfl⟩
    exact mem_values_of_get? hb

@[simp] theorem values_withCapacity (n : Nat) :
    (withCapacity n : Table Binding).values = [] := by
  rw [List.eq_nil_iff_forall_not_mem]
  intro v hv
  obtain ⟨i, key, b, hs, -⟩ := mem_values.1 hv
  simp at hs

theorem mem_values_write {p : SetOutcome × Nat} {key : String} {b : Binding}
    (h : v ∈ (t.write p key b).values) : v = b.value ∨ v ∈ t.values := by
  obtain ⟨j, k, c, hs, rfl⟩ := mem_values.1 h
  rw [slot_write] at hs
  split at hs
  · cases hs
    exact .inl rfl
  · exact .inr (mem_values.2 ⟨j, k, c, hs, rfl⟩)

/-- The values of a table whose bindings got other values. -/
theorem values_map (g : Value → Value) (t : Table Binding) :
    (t.map fun b => b.withValue (g b.value)).values = t.values.map g := by
  rw [values, values, map, Array.toList_map, List.filterMap_map, List.map_filterMap]
  refine congrArg (t.slots.toList.filterMap ·) (funext fun slot => ?_)
  cases slot <;> rfl

end Table

/-! ## Induction -/

mutual

/-- Facts about all values: an object's follows from those of the values bound in it. -/
theorem Value.induction {motive : Value → Prop} (leaf : ∀ v : Value, v.type ≠ .object → motive v)
    (object : ∀ id t, (∀ v ∈ Table.values t, motive v) → motive (.object id t)) :
    ∀ v : Value, motive v
  | .object id ⟨⟨slots⟩, count⟩ =>
    object id ⟨⟨slots⟩, count⟩ (Value.induction_slots leaf object slots)
  | .number n => leaf (.number n) (by simp [Value.type])
  | .bool b => leaf (.bool b) (by simp [Value.type])
  | .null => leaf .null (by simp [Value.type])
  | .string s => leaf (.string s) (by simp [Value.type])
  | .native f => leaf (.native f) (by simp [Value.type])
  | .function f => leaf (.function f) (by simp [Value.type])

theorem Value.induction_slots {motive : Value → Prop}
    (leaf : ∀ v : Value, v.type ≠ .object → motive v)
    (object : ∀ id t, (∀ v ∈ Table.values t, motive v) → motive (.object id t)) :
    ∀ slots : List (Slot Binding), ∀ v ∈ slots.filterMap Slot.value?, motive v
  | [] => fun _ h => (List.not_mem_nil h).elim
  | .empty :: rest => Value.induction_slots leaf object rest
  | .tombstone :: rest => Value.induction_slots leaf object rest
  | .occupied _ ⟨_, _, w⟩ :: rest => fun v h =>
    (List.mem_cons.1 h).elim (fun hv => hv ▸ Value.induction leaf object w)
      (Value.induction_slots leaf object rest v)

end

/-! ## Text -/

/-- The text of slots whose bindings got other values with the same texts. -/
theorem slotTexts_map (g : Value → Value) {slots : List (Slot Binding)}
    (h : ∀ v ∈ slots.filterMap Slot.value?, (g v).text = v.text) :
    slotTexts (slots.map (Slot.map fun b => b.withValue (g b.value))) = slotTexts slots := by
  induction slots with
  | nil => rfl
  | cons slot rest ih =>
    cases slot with
    | empty | tombstone => exact ih h
    | occupied key b =>
      have hb := h b.value List.mem_cons_self
      have ih := ih fun v hv => h v (List.mem_cons_of_mem _ hv)
      rw [List.map_cons, Slot.map, BindingOf.withValue, slotTexts, hb, ih]
      rfl

/-! ## Handles -/

theorem slotScopes_eq_flatMap (slots : List (Slot Binding)) :
    slotScopes slots = (slots.filterMap Slot.value?).flatMap Value.scopes := by
  induction slots with
  | nil => rfl
  | cons slot rest ih =>
    cases slot with
    | occupied key b => simp [slotScopes, Slot.value?, Slot.pair?, ih]
    | empty => exact ih
    | tombstone => exact ih

theorem Value.scopes_object (id : ObjectId) (t : Table Binding) :
    (Value.object id t).scopes = t.values.flatMap Value.scopes :=
  slotScopes_eq_flatMap t.slots.toList

theorem Value.mentions_iff {v : Value} {s : ScopeId} : v.mentions s = true ↔ s ∈ v.scopes := by
  simp [Value.mentions]

theorem Value.mentions_object {id : ObjectId} {t : Table Binding} {s : ScopeId} :
    (Value.object id t).mentions s = true ↔ ∃ v ∈ t.values, v.mentions s = true := by
  simp only [mentions_iff, scopes_object, List.mem_flatMap]

theorem Value.mentions_function {f : Closure} {s : ScopeId} :
    (Value.function f).mentions s = true ↔ f.scope = s := by
  rw [mentions_iff, Value.scopes, List.mem_singleton, eq_comm]

theorem Table.mentions_iff {t : Table Binding} {s : ScopeId} :
    t.mentions s = true ↔ ∃ v ∈ t.values, v.mentions s = true := by
  rw [Table.mentions, Array.any_eq_true']
  simp only [Table.values, List.mem_filterMap, ← Array.mem_toList_iff]
  constructor
  · rintro ⟨slot, hm, hs⟩
    cases slot with
    | occupied key b => exact ⟨b.value, ⟨_, hm, rfl⟩, hs⟩
    | _ => simp [Slot.mentions] at hs
  · rintro ⟨v, ⟨slot, hm, hv⟩, hs⟩
    cases slot with
    | occupied key b =>
      obtain rfl : b.value = v := by simpa [Slot.value?, Slot.pair?] using hv
      exact ⟨_, hm, hs⟩
    | _ => simp [Slot.value?, Slot.pair?] at hv

/-! ## Nested objects -/

/-- Whether a value is another one or nested in it. -/
inductive Value.Nested (x : Value) : Value → Prop
  | self : Nested x x
  | bound {id : ObjectId} {t : Table Binding} {v : Value} (hv : v ∈ t.values)
    (h : Nested x v) : Nested x (.object id t)

namespace Value

variable {v w x : Value} {T T' : ObjectId → Table Binding} {n n' : Nat}

theorem Nested.trans (h : Nested x v) (h' : Nested v w) : Nested x w := by
  induction h' with
  | self => exact h
  | bound hv _ ih => exact .bound hv ih

/-- The objects nested in a value are those that a map gives, with identities below a bound. -/
def Obeys (T : ObjectId → Table Binding) (n : Nat) (v : Value) : Prop :=
  ∀ id t, Nested (.object id t) v → t = T id ∧ id.index < n

theorem obeys_of_type_ne (h : v.type ≠ .object) : Obeys T n v := by
  intro id t hn
  cases hn with
  | self => exact (h rfl).elim
  | bound => exact (h rfl).elim

theorem obeys_object {id : ObjectId} {t : Table Binding} :
    Obeys T n (.object id t) ↔ (t = T id ∧ id.index < n) ∧ ∀ v ∈ t.values, Obeys T n v := by
  constructor
  · intro h
    exact ⟨h id t .self, fun v hv id' t' hn => h id' t' (.bound hv hn)⟩
  · rintro ⟨hid, hv⟩ id' t' hn
    cases hn with
    | self => exact hid
    | bound hm hn => exact hv _ hm id' t' hn

/-- New identities above the bound do not matter. -/
theorem Obeys.mono (h : Obeys T n v) (hT : ∀ i : ObjectId, i.index < n → T' i = T i)
    (hn : n ≤ n') : Obeys T' n' v := by
  intro id t hm
  obtain ⟨ht, hlt⟩ := h id t hm
  exact ⟨ht.trans (hT id hlt).symm, Nat.lt_of_lt_of_le hlt hn⟩

end Value

end Treewalk
