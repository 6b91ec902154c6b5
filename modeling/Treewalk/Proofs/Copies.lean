import Treewalk.Proofs.Scope.CopyHandles
import Treewalk.Proofs.Table.InStep

/-!
# Copies are faithful and independent

A copy differs from what it is a copy of in the identities of its objects alone. These are new, so
the copy owns its objects, and it shares nothing but code and scopes of functions, to which it holds
handles of its own. A table and its copy, shallow or deep, see the operations on themselves only,
and answer the same.

Main statement: `copies_faithful`.
-/

namespace Treewalk

/-- What a copy has in common with what it is a copy of. -/
structure Value.Resembles (w v : Value) : Prop where
  type : w.type = v.type
  isTruthy : w.isTruthy = v.isTruthy
  text : w.text = v.text
  /-- The tables in both have the same slots, with bindings of the same names and flags. -/
  shapes : w.tables.map Table.shape = v.tables.map Table.shape
  /-- The functions in both have the same code and the same scopes. -/
  functions : w.functions = v.functions
  /-- Nothing but identities of objects differs. -/
  anonymous : w.anonymous = v.anonymous

namespace Value

variable {v w : Value}

theorem resembles_of_anonymous (h : w.anonymous = v.anonymous) : w.Resembles v where
  type := by rw [← type_anonymous, h, type_anonymous]
  isTruthy := by rw [← isTruthy_anonymous, h, isTruthy_anonymous]
  text := by rw [← text_anonymous, h, text_anonymous]
  shapes := by rw [← shapes_anonymous, h, shapes_anonymous]
  functions := by rw [← functions_anonymous, h, functions_anonymous]
  anonymous := h

/-- A copy is equal to what it is a copy of as that is to itself. -/
theorem same_copy (v : Value) (n : Nat) :
    (v.copy n).1.same v = v.same v ∧ v.same (v.copy n).1 = v.same v := by
  refine ⟨?_, ?_⟩
  · rw [← same_anonymous, anonymous_copy, same_anonymous]
  · rw [← same_anonymous, anonymous_copy, same_anonymous]

end Value

/-- **Copies are faithful and independent.** A copy resembles what it is a copy of, and both are
equal unless there is not-a-number in them. Among the copy and all values from before it, each
object in the copy is at one place. A copy of a value that is held adds one handle to a scope for
each function of the scope in the value. A table copied to another name, as it is or value by value,
answers operations like the table, and neither of them sees the operations on the other. -/
theorem copies_faithful :
    (∀ v n, (Value.copy v n).1.Resembles v) ∧
    (∀ v n, v.IsMade → ((Value.copy v n).1.same v = true ↔ v.HasNoNaN) ∧
      (v.same (v.copy n).1 = true ↔ v.HasNoNaN)) ∧
    (∀ v n others, (∀ x ∈ others, ∀ id ∈ Value.objectIds x, id.index < n) →
      ∀ id ∈ (Value.copy v n).1.objectIds,
        (((v.copy n).1 :: others).flatMap Value.objectIds).count id = 1) ∧
    (∀ (σ : Store) outside T (v : Value), σ.Obeys T → (∀ h ∈ outside, Held.Obeys T σ.nextObject h) →
      (∀ t, v.mentions t = true → ¬σ.Dropped outside t) → ∀ s,
        ((σ.copy v).2.handleCount (Held.empty.value (σ.copy v).1 :: outside) s).all =
          (σ.handleCount outside s).all + v.functions.countP (·.scope = s)) ∧
    (∀ (α : Type) (m : Named (Table α)) x y t, x ≠ y → m.get? x = some t →
      Table.AsCopy id (m.set y t) x y t) ∧
    (∀ (m : Named (Table Value)) x y t n, x ≠ y → m.get? x = some t →
      Table.AsCopy Value.anonymous (m.set y (t.copyValues n).1) x y t) ∧
    (∀ (m : Named (Table Binding)) x y t id n, x ≠ y → m.get? x = some t →
      ∃ id' u, ((Value.object id t).copy n).1 = .object id' u ∧
        Table.AsCopy BindingOf.anonymous (m.set y u) x y t) := by
  refine ⟨fun v n => Value.resembles_of_anonymous (v.anonymous_copy n), fun v n hv => ?_,
    fun v n others h id => Value.count_objectIds_copy h,
    fun σ outside T v hσ hout hv s => Store.handleCount_copy hσ hout hv s,
    fun α m x y t hne hx => Table.asCopy hne hx rfl,
    fun m x y t n hne hx => Table.asCopy hne hx (t.map_anonymous_copyValues n),
    fun m x y t id n hne hx => ?_⟩
  · rw [(v.same_copy n).1, (v.same_copy n).2, Value.same_self_iff hv]
    exact ⟨Iff.rfl, Iff.rfl⟩
  · obtain ⟨id', u, hcopy, hu⟩ := Value.exists_copy_object id t n
    exact ⟨id', u, hcopy, Table.asCopy hne hx hu⟩

/-- An object with a method of the global scope, held outside the store, and its copy. -/
theorem copies_faithful_method :
    let s : ScopeId := ⟨0⟩
    let method : Value := .function ⟨"m", ⟨0, [], []⟩, s⟩
    let t := (Table.withCapacity 1).after [.set "m" ⟨"m", false, method⟩]
    let v : Value := .object ⟨0⟩ t
    let σ : Store := { (Store.empty.root 4 4).2 with nextObject := 1 }
    let outside := [Held.empty.value v]
    let w := (σ.copy v).1
    w.text = v.text ∧ w.same v = true ∧
      (∀ id ∈ w.objectIds, ([w, v].flatMap Value.objectIds).count id = 1) ∧
      ((σ.copy v).2.handleCount (Held.empty.value w :: outside) s).all =
        (σ.handleCount outside s).all + 1 := by
  intro s method t v σ outside w
  have hfunction : ∀ x ∈ t.values, x.type = .function := by decide +kernel
  have hleaf : ∀ x ∈ t.values, x.type ≠ .object := fun x hx h => by
    rw [hfunction x hx] at h
    cases h
  have hmade : v.IsMade := Value.isMade_object_iff.2
    ⟨(Table.Made.withCapacity 1).after _, fun x hx => Value.isMade_leaf (hleaf x hx)⟩
  have hnumbers : v.HasNoNaN := Value.hasNoNaN_object_iff.2 fun x hx n hn => by
    rw [Value.nested_leaf_iff (hleaf x hx)] at hn
    rw [← hn] at hx
    cases hfunction _ hx
  have hobeys : v.Obeys (fun _ => t) 1 := Value.obeys_object.2
    ⟨⟨rfl, Nat.zero_lt_one⟩, fun x hx => Value.obeys_of_type_ne (hleaf x hx)⟩
  have hstore : σ.Obeys fun _ => t := by
    intro u x hx
    have hbindings : σ.bindings u = if u.index = 0 then .withCapacity 4 else .withCapacity 0 :=
      Store.bindings_add Store.empty 4 none 4 u
    rw [hbindings] at hx
    split at hx <;> simp at hx
  have hout : ∀ h ∈ outside, h.Obeys (fun _ => t) 1 := by
    have hempty : Held.empty.Obeys (fun _ => t) 1 := by simp [Held.Obeys]
    simpa [outside] using hempty.value hobeys
  have hlive : ∀ u, v.mentions u = true → ¬σ.Dropped outside u := by
    intro u hu hd
    have hunheld := hd.unheld _ (List.mem_singleton.2 rfl)
    rw [Held.mentions_value.2 (.inl hu)] at hunheld
    cases hunheld
  have hfunctions : v.functions.countP (·.scope = s) = 1 := by decide +kernel
  obtain ⟨hresembles, hsame, howner, hhandles, -⟩ := copies_faithful
  refine ⟨(hresembles v 1).text, (hsame v 1 hmade).1.2 hnumbers, howner v 1 [v] ?_, ?_⟩
  · intro x hx id hid
    obtain rfl := List.mem_singleton.1 hx
    exact hobeys.index_lt hid
  · rw [← hfunctions]
    exact hhandles σ outside _ v hstore hout hlive s

end Treewalk
