import Treewalk.Proofs.Scope.Owned
import Treewalk.Proofs.Value.Copy
import Treewalk.Proofs.Value.Equality

/-!
# Values without the identities of objects

`Value.anonymous` gives all objects in a value one identity, so two values are the same anonymously
if they differ in identities alone: they have the same tables with the same slots, and the same
functions. What programs can see of a value they see anonymously, and a copy is anonymously what it
is a copy of.

* `Value.anonymous_object` and `Value.parts_anonymous`: identities are forgotten value by value.
* `Value.text_anonymous` and `Value.same_anonymous`: text and equality do not depend on them.

* `Table.map_anonymous_copyValues`: tables of values are copied value by value.

Main statement: `Value.anonymous_copy`.
-/

namespace Treewalk

mutual

/-- The value with one identity for all objects. -/
def Value.anonymous : Value → Value
  | .object _ ⟨⟨slots⟩, count⟩ => .object ⟨0⟩ ⟨⟨anonymousSlots slots⟩, count⟩
  | v => v

/-- Slots with one identity for all objects in live ones. -/
def anonymousSlots : List (Slot Binding) → List (Slot Binding)
  | [] => []
  | .occupied key ⟨name, isConst, v⟩ :: rest =>
    .occupied key ⟨name, isConst, v.anonymous⟩ :: anonymousSlots rest
  | slot :: rest => slot :: anonymousSlots rest

end

/-- The binding with one identity for all objects in its value. -/
def BindingOf.anonymous (b : Binding) : Binding := b.withValue b.value.anonymous

theorem anonymousSlots_eq_map (slots : List (Slot Binding)) :
    anonymousSlots slots = slots.map (Slot.map BindingOf.anonymous) := by
  induction slots with
  | nil => rfl
  | cons slot rest ih => cases slot <;> exact congrArg (List.cons _) ih

theorem Table.values_anonymous (t : Table Binding) :
    (t.map BindingOf.anonymous).values = t.values.map Value.anonymous :=
  values_map Value.anonymous t

/-- The function that a value is. -/
def Value.closure? : Value → Option Closure
  | .function f => some f
  | _ => none

/-- The functions in a value, as often as they are. -/
def Value.functions (v : Value) : List Closure := v.parts.filterMap Value.closure?

/-- The table of an object. -/
def Value.table? : Value → Option (Table Binding)
  | .object _ t => some t
  | _ => none

/-- The tables in a value, as often as they are. -/
def Value.tables (v : Value) : List (Table Binding) := v.parts.filterMap Value.table?

/-- The slots of a table with their keys, and with the names and flags of the bindings. -/
def Table.shape (t : Table Binding) : Table (String × Bool) := t.map fun b => (b.name, b.isConst)

namespace Value

variable {v w : Value}

theorem anonymous_leaf (h : v.type ≠ .object) : v.anonymous = v := by
  cases v <;> first | rfl | exact (h rfl).elim

theorem anonymous_object (id : ObjectId) (t : Table Binding) :
    (Value.object id t).anonymous = .object ⟨0⟩ (t.map BindingOf.anonymous) := by
  obtain ⟨⟨slots⟩, count⟩ := t
  rw [anonymous, anonymousSlots_eq_map]
  simp [Table.map]

@[simp] theorem type_anonymous (v : Value) : v.anonymous.type = v.type := by
  cases v <;> rfl

@[simp] theorem isTruthy_anonymous (v : Value) : v.anonymous.isTruthy = v.isTruthy := by
  cases v <;> rfl

@[simp] theorem closure?_anonymous (v : Value) : v.anonymous.closure? = v.closure? := by
  cases v <;> rfl

theorem table?_anonymous (v : Value) :
    v.anonymous.table? = v.table?.map (Table.map BindingOf.anonymous) := by
  cases v with
  | object id t =>
    rw [anonymous_object]
    rfl
  | _ => rfl

theorem parts_anonymous (v : Value) : v.anonymous.parts = v.parts.map anonymous := by
  induction v using Value.induction with
  | leaf v hv => rw [anonymous_leaf hv, parts_leaf hv, List.map_singleton, anonymous_leaf hv]
  | object id t ih =>
    rw [anonymous_object, parts_object, parts_object, Table.values_anonymous, List.map_cons,
      anonymous_object, List.flatMap_map, List.map_flatMap]
    exact congrArg _ (List.flatMap_congr ih)

/-- The functions in a value do not depend on identities. -/
theorem functions_anonymous (v : Value) : v.anonymous.functions = v.functions := by
  rw [functions, parts_anonymous, List.filterMap_map, functions]
  exact congrArg (v.parts.filterMap ·) (funext closure?_anonymous)

/-- The shapes of the tables in a value do not depend on identities. -/
theorem shapes_anonymous (v : Value) :
    v.anonymous.tables.map Table.shape = v.tables.map Table.shape := by
  have hshape : Table.shape ∘ Table.map BindingOf.anonymous = Table.shape :=
    funext fun t => Table.map_map BindingOf.anonymous t _
  have hparts : v.parts.filterMap (table? ∘ anonymous) =
      v.tables.map (Table.map BindingOf.anonymous) := by
    rw [tables, List.map_filterMap]
    exact congrArg (v.parts.filterMap ·) (funext table?_anonymous)
  rw [tables, parts_anonymous, List.filterMap_map, hparts, List.map_map, hshape]

/-- The functions of a scope in a value. -/
theorem countP_functions (v : Value) (s : ScopeId) :
    v.functions.countP (·.scope = s) = v.parts.countP (·.scope? = some s) := by
  rw [functions, List.countP_filterMap]
  refine List.countP_congr fun w _ => ?_
  cases w <;> simp [closure?, scope?]

/-! ## Text -/

/-- The text of a value does not depend on identities. -/
theorem text_anonymous (v : Value) : v.anonymous.text = v.text := by
  induction v using Value.induction with
  | leaf v hv => rw [anonymous_leaf hv]
  | object id t ih =>
    obtain ⟨⟨slots⟩, count⟩ := t
    have hslots : slotTexts (slots.map (Slot.map BindingOf.anonymous)) = slotTexts slots :=
      slotTexts_map anonymous ih
    rw [anonymous, anonymousSlots_eq_map]
    unfold text
    rw [hslots]

/-! ## Equality -/

theorem same_leaf_anonymous (h : v.type ≠ .object) (w : Value) :
    v.same w.anonymous = v.same w := by
  cases w with
  | object id t =>
    obtain ⟨⟨slots⟩, count⟩ := t
    cases v <;> first | rfl | exact (h rfl).elim
  | _ => rfl

/-- Equality of values does not depend on identities. -/
theorem same_anonymous (v w : Value) : v.anonymous.same w.anonymous = v.same w := by
  induction v using Value.induction generalizing w with
  | leaf v hv => rw [anonymous_leaf hv, same_leaf_anonymous hv]
  | object id t ih =>
    cases w with
    | object id' u =>
      rw [anonymous_object, anonymous_object, same_object, same_object]
      refine Table.sameBy_map _ t u fun key b c hb _ => ?_
      exact congrArg (b.name == c.name && b.isConst == c.isConst && ·)
        (ih b.value (Table.value_mem_values hb) c.value)
    | _ => obtain ⟨⟨slots⟩, count⟩ := t; rfl

end Value

/-! ## Copies -/

theorem CopiedSlots.map_anonymous {slots slots' : List (Slot Binding)} {n n' : Nat}
    (h : CopiedSlots slots n slots' n')
    (hv : ∀ v ∈ slots.filterMap Slot.value?, ∀ n, (v.copy n).1.anonymous = v.anonymous) :
    slots'.map (Slot.map BindingOf.anonymous) = slots.map (Slot.map BindingOf.anonymous) := by
  induction h with
  | nil => rfl
  | empty _ ih | tombstone _ ih => exact congrArg (List.cons _) (ih hv)
  | @occupied slots slots' n n' key b _ ih =>
    have hb : (b.withValue (b.value.copy n).1).anonymous = b.anonymous :=
      congrArg (fun v => b.withValue v) (hv b.value List.mem_cons_self n)
    have ih := ih fun v hm => hv v (List.mem_cons_of_mem _ hm)
    rw [List.map_cons, List.map_cons, ih, Slot.map, Slot.map, hb]

theorem Table.map_eq_of_slots {α β : Type} {g : α → β} {t u : Table α}
    (h : u.slots.toList.map (Slot.map g) = t.slots.toList.map (Slot.map g))
    (hcount : u.count = t.count) : u.map g = t.map g := by
  refine congrArg₂ Table.mk (Array.toList_inj.1 ?_) hcount
  rw [Array.toList_map, Array.toList_map, h]

/-- **A copy is anonymously what it is a copy of.** -/
theorem Value.anonymous_copy (v : Value) (n : Nat) : (v.copy n).1.anonymous = v.anonymous := by
  induction v using Value.induction generalizing n with
  | leaf v hv => rw [copy_leaf hv]
  | object id t ih =>
    obtain ⟨u, n', h, he⟩ := copy_object id t n
    rw [he, anonymous_object, anonymous_object]
    exact congrArg _ (Table.map_eq_of_slots (h.slots.map_anonymous ih) h.count_eq)

/-- The functions in a copy are those in what is copied, with their code and their scopes. -/
theorem Value.functions_copy (v : Value) (n : Nat) : (v.copy n).1.functions = v.functions := by
  rw [← functions_anonymous, anonymous_copy, functions_anonymous]

/-- The table of a copied object is anonymously the table of the object. -/
theorem Value.exists_copy_object (id : ObjectId) (t : Table Binding) (n : Nat) :
    ∃ id' u, ((Value.object id t).copy n).1 = .object id' u ∧
      u.map BindingOf.anonymous = t.map BindingOf.anonymous := by
  obtain ⟨u, n', h, he⟩ := copy_object id t n
  rw [he]
  exact ⟨⟨n'⟩, u, rfl,
    Table.map_eq_of_slots (h.slots.map_anonymous fun v _ n => v.anonymous_copy n) h.count_eq⟩

theorem foldl_push_map {α β σ : Type} {f : α → β} {step : Array α × σ → α → Array α × σ}
    (h : ∀ p a, ((step p a).1).map f = (p.1.map f).push (f a)) (as : List α) (p : Array α × σ) :
    ((as.foldl step p).1).map f = p.1.map f ++ (as.map f).toArray := by
  induction as generalizing p with
  | nil => simp
  | cons a rest ih => simp [ih, h]

/-- The copy of a table of values is anonymously the table. -/
theorem Table.map_anonymous_copyValues (t : Table Value) (n : Nat) :
    (t.copyValues n).1.map Value.anonymous = t.map Value.anonymous := by
  refine congrArg (Table.mk · t.count) ?_
  rw [copyValues, ← Array.foldl_toList]
  refine (foldl_push_map (fun p slot => ?_) _ _).trans ?_
  · cases slot <;> simp [Slot.map, Value.anonymous_copy]
  · rw [Array.map_empty, Array.empty_append, ← List.map_toArray, Array.toArray_toList]

end Treewalk
