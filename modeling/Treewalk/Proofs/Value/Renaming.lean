import Treewalk.Proofs.Scope.Places
import Treewalk.Proofs.Simulation.Likeness
import Treewalk.Proofs.Table.Map
import Treewalk.Proofs.Value.Copy

/-!
# Scopes renamed in values

`Value.rename` gives every function in a value another scope. All else stays: the code of functions,
the slots of tables, the identities of objects.

* `Value.rename_object` and `Table.values_rename`: renaming goes through tables value by value.
* `Value.scopes_rename`, `Value.mentions_rename` and `Value.captures_rename` for the handles.
* `Value.copy_rename` and `Places.foldl_add_rename`: copies and searches commute with renaming.
* `Value.alike_rename`: operators of the language cannot tell scopes apart.
-/

namespace Treewalk

mutual

/-- The value with its scopes renamed. -/
def Value.rename (f : ScopeId → ScopeId) : Value → Value
  | .function ⟨name, code, s⟩ => .function ⟨name, code, f s⟩
  | .object id ⟨⟨slots⟩, count⟩ => .object id ⟨⟨renameSlots f slots⟩, count⟩
  | v => v

/-- Slots with the scopes in live ones renamed. -/
def renameSlots (f : ScopeId → ScopeId) : List (Slot Binding) → List (Slot Binding)
  | [] => []
  | .occupied key ⟨name, isConst, v⟩ :: rest =>
    .occupied key ⟨name, isConst, v.rename f⟩ :: renameSlots f rest
  | slot :: rest => slot :: renameSlots f rest

end

/-- The binding with the scopes in its value renamed. -/
def BindingOf.rename (f : ScopeId → ScopeId) (b : Binding) : Binding :=
  b.withValue (b.value.rename f)

/-- The table with the scopes in its values renamed. -/
def Table.rename (f : ScopeId → ScopeId) (t : Table Binding) : Table Binding :=
  t.map (BindingOf.rename f)

variable {f : ScopeId → ScopeId} {v w : Value} {s t : ScopeId}

theorem renameSlots_eq_map (f : ScopeId → ScopeId) (slots : List (Slot Binding)) :
    renameSlots f slots = slots.map (Slot.map (BindingOf.rename f)) := by
  induction slots with
  | nil => rfl
  | cons slot rest ih => cases slot <;> exact congrArg (List.cons _) ih

theorem Table.values_rename (f : ScopeId → ScopeId) (t : Table Binding) :
    (t.rename f).values = t.values.map (Value.rename f) :=
  values_map (Value.rename f) t

namespace Value

theorem rename_object (f : ScopeId → ScopeId) (id : ObjectId) (t : Table Binding) :
    (Value.object id t).rename f = .object id (t.rename f) := by
  obtain ⟨⟨slots⟩, count⟩ := t
  rw [rename, renameSlots_eq_map]
  simp [Table.rename, Table.map]

@[simp] theorem rename_function (f : ScopeId → ScopeId) (g : Closure) :
    (Value.function g).rename f = .function ⟨g.name, g.code, f g.scope⟩ := rfl

theorem IsPlain.rename_eq (h : v.IsPlain) (f : ScopeId → ScopeId) : v.rename f = v := by
  cases v <;> first | rfl | exact h.elim

@[simp] theorem type_rename (f : ScopeId → ScopeId) (v : Value) : (v.rename f).type = v.type := by
  cases v <;> rfl

@[simp] theorem objectId?_rename (f : ScopeId → ScopeId) (v : Value) :
    (v.rename f).objectId? = v.objectId? := by
  cases v <;> rfl

theorem scope?_rename (f : ScopeId → ScopeId) (v : Value) :
    (v.rename f).scope? = v.scope?.map f := by
  cases v <;> rfl

/-- Operators cannot tell scopes apart. -/
theorem alike_rename (f : ScopeId → ScopeId) (v : Value) : v.Alike .same (v.rename f) := by
  cases v with
  | object id t =>
    rw [rename_object]
    exact .objects ..
  | function g => exact .functions rfl (Likeness.Closures.refl_same g).code
  | _ => exact .plain ⟨trivial, fun _ _ => trivial⟩

/-! ## Handles -/

theorem scopes_rename (f : ScopeId → ScopeId) (v : Value) :
    (v.rename f).scopes = v.scopes.map f := by
  induction v using Value.induction with
  | leaf v hv => cases v <;> first | rfl | exact (hv rfl).elim
  | object id t ih =>
    rw [rename_object, scopes_object, scopes_object, Table.values_rename, List.map_flatMap,
      List.flatMap_map]
    exact List.flatMap_congr ih

theorem mentions_rename_iff :
    (v.rename f).mentions t = true ↔ ∃ s, v.mentions s = true ∧ f s = t := by
  simp only [mentions_iff, scopes_rename, List.mem_map]

/-- Handles to a scope that alone is renamed to another. -/
theorem mentions_rename (h : ∀ u, f u = t ↔ u = s) (v : Value) :
    (v.rename f).mentions t = v.mentions s := by
  rw [Bool.eq_iff_iff, mentions_rename_iff]
  simp only [h, exists_eq_right]

theorem captures_rename (h : ∀ u, f u = t ↔ u = s) (owned : ObjectId → Bool) (v : Value) :
    (v.rename f).captures t owned = v.captures s owned := by
  induction v using Value.induction with
  | leaf v hv =>
    cases v with
    | function g => simp only [rename_function, captures, h]
    | object => exact (hv rfl).elim
    | _ => rfl
  | object id u ih =>
    rw [rename_object, captures_object, captures_object, Table.values_rename]
    refine congrArg (fun n => if owned id then n else 0) ?_
    rw [sumOf, sumOf, List.map_map]
    exact congrArg List.sum (List.map_congr_left ih)

/-- A value whose scopes keep their names stays as it is. -/
theorem rename_eq_self (h : ∀ s, v.mentions s = true → f s = s) : v.rename f = v := by
  induction v using Value.induction with
  | leaf v hv =>
    cases v with
    | function g => rw [rename_function, h g.scope (mentions_function.2 rfl)]
    | object => exact (hv rfl).elim
    | _ => rfl
  | object id u ih =>
    rw [rename_object]
    refine congrArg (Value.object id) ?_
    obtain ⟨⟨slots⟩, count⟩ := u
    have hslots : ∀ slot ∈ slots, slot.map (BindingOf.rename f) = slot := by
      intro slot hm
      cases slot with
      | occupied key b =>
        have hb : b.value ∈ (⟨⟨slots⟩, count⟩ : Table Binding).values :=
          List.mem_filterMap.2 ⟨_, hm, rfl⟩
        have he := ih b.value hb fun s hs => h s (mentions_object.2 ⟨_, hb, hs⟩)
        rw [Slot.map, BindingOf.rename, he]
        rfl
      | _ => rfl
    rw [Table.rename, Table.map, List.map_toArray, List.map_congr_left hslots, List.map_id']

end Value

/-- A table whose scopes keep their names stays as it is. -/
theorem Table.rename_eq_self {u : Table Binding} (h : ∀ s, u.mentions s = true → f s = s) :
    u.rename f = u := by
  have hobject : (Value.object ⟨0⟩ u).rename f = .object ⟨0⟩ u :=
    Value.rename_eq_self fun s hs => h s (mentions_iff.2 (Value.mentions_object.1 hs))
  rw [Value.rename_object] at hobject
  exact (Value.object.inj hobject).2

theorem Table.mentions_rename (h : ∀ u, f u = t ↔ u = s) (u : Table Binding) :
    (u.rename f).mentions t = u.mentions s := by
  rw [Bool.eq_iff_iff, mentions_iff, mentions_iff, values_rename]
  simp only [List.mem_map, exists_exists_and_eq_and, Value.mentions_rename h]

theorem slotCaptures_rename (h : ∀ u, f u = t ↔ u = s) (owned : ObjectId → Bool)
    (u : Table Binding) : slotCaptures t owned (u.rename f).slots.toList =
      slotCaptures s owned u.slots.toList := by
  have hvalues := Table.values_rename f u
  rw [Table.values, Table.values] at hvalues
  rw [slotCaptures_eq_sumOf, slotCaptures_eq_sumOf, hvalues, sumOf, sumOf, List.map_map]
  exact congrArg List.sum (List.map_congr_left fun v _ => Value.captures_rename h owned v)

/-! ## Copies -/

theorem copySlots_rename {slots : List (Slot Binding)}
    (h : ∀ v ∈ slots.filterMap Slot.value?, ∀ n,
      (v.rename f).copy n = ((v.copy n).1.rename f, (v.copy n).2))
    (done : Array (Slot Binding)) (n : Nat) :
    copySlots (done.map (Slot.map (BindingOf.rename f)))
        (slots.map (Slot.map (BindingOf.rename f))) n =
      ((copySlots done slots n).1.map (Slot.map (BindingOf.rename f)),
        (copySlots done slots n).2) := by
  induction slots generalizing done n with
  | nil => rfl
  | cons slot rest ih =>
    have hpush : ∀ slot : Slot Binding,
        (done.map (Slot.map (BindingOf.rename f))).push (slot.map (BindingOf.rename f)) =
          (done.push slot).map (Slot.map (BindingOf.rename f)) :=
      fun slot => Array.map_push.symm
    cases slot with
    | occupied key b =>
      have ih := ih (fun v hv => h v (List.mem_cons_of_mem _ hv))
        (done.push (.occupied key (b.withValue (b.value.copy n).1))) (b.value.copy n).2
      rw [← hpush] at ih
      rw [List.map_cons, Slot.map, BindingOf.rename, BindingOf.withValue, copySlots, copySlots,
        h b.value List.mem_cons_self n]
      exact ih
    | empty => exact (congrArg (copySlots · _ n) (hpush .empty)).trans (ih h _ n)
    | tombstone => exact (congrArg (copySlots · _ n) (hpush .tombstone)).trans (ih h _ n)

/-- A copy of a renamed value is a copy renamed. -/
theorem Value.copy_rename (f : ScopeId → ScopeId) (v : Value) (n : Nat) :
    (v.rename f).copy n = ((v.copy n).1.rename f, (v.copy n).2) := by
  induction v using Value.induction generalizing n with
  | leaf v hv => rw [copy_leaf hv, copy_leaf (by rwa [type_rename])]
  | object id t ih =>
    obtain ⟨⟨slots⟩, count⟩ := t
    have hslots := copySlots_rename ih #[] n
    rw [rename, renameSlots_eq_map, copy, copy]
    rw [List.map_toArray, List.map_nil] at hslots
    rw [hslots, rename, renameSlots_eq_map, ← Array.toList_map]

/-! ## Searches for places -/

/-- The places with the scopes in their values renamed. -/
def Places.rename (f : ScopeId → ScopeId) (p : Places) : Places :=
  ⟨p.values.map (Value.rename f), p.searched⟩

theorem Places.add_rename (f : ScopeId → ScopeId) (p : Places) (v : Value) :
    (p.rename f).add (v.rename f) = (p.add v).rename f := by
  induction v using Value.induction generalizing p with
  | leaf v hv => rw [add_leaf p hv, add_leaf _ (by rwa [Value.type_rename])]; rfl
  | object id t ih =>
    have hfoldl : ∀ (vs : List Value) (p : Places), vs ⊆ t.values →
        (vs.map (Value.rename f)).foldl add (p.rename f) = (vs.foldl add p).rename f := by
      intro vs
      induction vs with
      | nil => exact fun _ _ => rfl
      | cons v rest ih' =>
        intro p hvs
        obtain ⟨hv, hrest⟩ := List.cons_subset.1 hvs
        rw [List.map_cons, List.foldl_cons, List.foldl_cons, ih v hv p, ih' _ hrest]
    rw [Value.rename_object, add_object, add_object, Table.values_rename, ← Value.rename_object]
    change (if p.searched.contains id = true then _ else _) = _
    by_cases hid : p.searched.contains id = true
    · rw [if_pos hid, if_pos hid]
      rfl
    · rw [if_neg hid, if_neg hid]
      exact hfoldl t.values ⟨.object id t :: p.values, id :: p.searched⟩ (List.Subset.refl _)

theorem Places.foldl_add_rename (f : ScopeId → ScopeId) (vs : List Value) (p : Places) :
    (vs.map (Value.rename f)).foldl add (p.rename f) = (vs.foldl add p).rename f := by
  rw [List.foldl_map]
  exact List.foldl_hom (rename f) fun p v => add_rename f p v

end Treewalk
