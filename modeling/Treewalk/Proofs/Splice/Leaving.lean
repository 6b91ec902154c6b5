import Treewalk.Proofs.Scope.Dropped
import Treewalk.Proofs.Scope.Held
import Treewalk.Proofs.Splice.Store

/-!
# Leaving scopes beside an empty scope

In two stores that differ by an empty scope, a scope that is left is discarded in both or in none.
The handles to the extra scope and to its parent do not count for this, as long as both are held by
the evaluation: all other scopes have as many handles as their twins.

* `Held.Spliced` ties the handles held outside the two stores.
* `Store.Spliced.dropped_twin` and `Store.Spliced.liveHolders_twin`: the twins of live scopes are
  alive.
* `Store.Spliced.handleCount_twin` and `Store.Spliced.leave`: handles are counted the same.
-/

namespace Treewalk

open Splice

/-- Handles held outside the store, and those held with the extra scope left out. -/
structure Held.Spliced (p : Splice) (h₁ h₂ : Held) : Prop where
  count_twin : ∀ s, p.Apart s → h₂.count (p.twin s) = h₁.count s
  objectsFor_twin : ∀ s, p.Apart s →
    h₂.objectsFor (p.twin s) = (h₁.objectsFor s).map (Value.rename p.twin)

variable {p : Splice} {h₁ h₂ : Held} {s t : ScopeId}

namespace Held.Spliced

theorem empty : Held.Spliced p .empty .empty :=
  ⟨fun s _ => by rw [count_empty, count_empty],
    fun s _ => by rw [objectsFor_empty, objectsFor_empty, List.map_nil]⟩

theorem scope (h : h₁.Spliced p h₂) (s : ScopeId) :
    (h₁.scope s).Spliced p (h₂.scope (p.twin s)) where
  count_twin t ht := by
    rw [count_scope, count_scope, h.count_twin t ht]
    simp only [twin_eq_twin_iff ht]
  objectsFor_twin := h.objectsFor_twin

/-- The extra scope may be held. -/
theorem scope_extra (h : h₁.Spliced p h₂) : (h₁.scope p.extra).Spliced p h₂ where
  count_twin t ht := by
    rw [count_scope, if_neg (Ne.symm ht.ne_extra), h.count_twin t ht, Nat.add_zero]
  objectsFor_twin := h.objectsFor_twin

theorem value (h : h₁.Spliced p h₂) (v : Value) :
    (h₁.value v).Spliced p (h₂.value (v.rename p.twin)) where
  count_twin t ht := by
    rw [count_value, count_value, h.count_twin t ht]
    cases v with
    | function f => simp only [Value.rename_function, twin_eq_twin_iff ht]
    | _ => rfl
  objectsFor_twin t ht := by
    rw [objectsFor_value, objectsFor_value, h.objectsFor_twin t ht, Value.type_rename,
      Value.mentions_rename (twin_eq_twin_iff ht)]
    split <;> rfl

theorem mentions_twin (h : h₁.Spliced p h₂) (hs : p.Apart s) :
    h₂.mentions (p.twin s) = h₁.mentions s := by
  rw [mentions, mentions, h.count_twin s hs, h.objectsFor_twin s hs, List.isEmpty_map]

end Held.Spliced

/-- The handles of evaluations, where values stand for values with the scopes renamed. -/
theorem Context.spliced {base base' : Held} (hb : base.Spliced p base') {Γ : Context}
    (hΓ : ∀ v w, .value v w ∈ Γ → w = v.rename p.twin) :
    (Γ.left base).Spliced p (Γ.right p.twin base') := by
  induction Γ with
  | nil => exact hb
  | cons x Γ ih =>
    have ih := ih fun v w hm => hΓ v w (List.mem_cons_of_mem x hm)
    cases x with
    | scope s => exact ih.scope s
    | value v w =>
      obtain rfl := hΓ v w List.mem_cons_self
      exact ih.value v

namespace Store.Spliced

variable {σ₁ σ₂ : Store} {outside₁ outside₂ : List Held} {live : List ScopeId}

theorem isHeld_twin (ho : List.Forall₂ (Held.Spliced p) outside₁ outside₂) (hs : p.Apart s) :
    isHeld outside₂ (p.twin s) = isHeld outside₁ s := by
  induction ho with
  | nil => rfl
  | cons hh _ ih =>
    rw [isHeld, isHeld] at ih ⊢
    rw [List.any_cons, List.any_cons, hh.mentions_twin hs, ih]

theorem ne_extra_of_holds (h : σ₁.Spliced p σ₂) (hs : p.Apart s) (ht : σ₁.holds t s = true) :
    t ≠ p.extra := by
  rintro rfl
  exact hs.ne_parent (h.eq_parent_of_holds ht)

/-- The holders of a twin are the twins of the holders. -/
theorem holds_twin_iff (h : σ₁.Spliced p σ₂) (hs : p.Apart s) (u : ScopeId) :
    σ₂.holds u (p.twin s) = true ↔ ∃ t, σ₁.holds t s = true ∧ p.twin t = u := by
  constructor
  · intro hu
    obtain ⟨t, ht, rfl⟩ := p.exists_twin_eq u
    exact ⟨t, (h.holds_twin ht hs).symm.trans hu, rfl⟩
  · rintro ⟨t, ht, rfl⟩
    exact (h.holds_twin (h.ne_extra_of_holds hs ht) hs).trans ht

/-! ## Live scopes -/

section Parent

-- the evaluation holds the parent of the extra scope
variable (hp₁ : isHeld outside₁ p.parent = true) (hp₂ : isHeld outside₂ p.parent = true)
include hp₁ hp₂

/-- A scope is dropped if its twin is. -/
theorem dropped_twin (h : σ₁.Spliced p σ₂)
    (ho : List.Forall₂ (Held.Spliced p) outside₁ outside₂) (hs : s ≠ p.extra) :
    σ₂.Dropped outside₂ (p.twin s) ↔ σ₁.Dropped outside₁ s := by
  have halive : ∀ {σ : Store} {outside : List Held}, isHeld outside p.parent = true →
      ¬σ.Dropped outside p.parent := fun hp hd =>
    Bool.false_ne_true ((Store.isHeld_eq_false.2 hd.unheld).symm.trans hp)
  constructor
  · generalize hu : p.twin s = u
    intro hd
    induction hd generalizing s with
    | @intro u hunheld hholders ih =>
      subst hu
      have hd : σ₂.Dropped outside₂ (p.twin s) := .intro hunheld hholders
      have hapart : p.Apart s := ⟨hs, fun he => by
        rw [he, twin_parent] at hd
        exact halive hp₂ hd⟩
      refine .intro (Store.isHeld_eq_false.1 ?_) fun t ht => ?_
      · rw [← isHeld_twin ho hapart]
        exact Store.isHeld_eq_false.2 hunheld
      · have hte := h.ne_extra_of_holds hapart ht
        exact ih _ ((h.holds_twin hte hapart).trans ht) hte rfl
  · intro hd
    induction hd with
    | @intro s hunheld hholders ih =>
      have hapart : p.Apart s := ⟨hs, by
        rintro rfl
        exact halive hp₁ (.intro hunheld hholders)⟩
      refine .intro (Store.isHeld_eq_false.1 ?_) fun u hu => ?_
      · rw [isHeld_twin ho hapart]
        exact Store.isHeld_eq_false.2 hunheld
      · obtain ⟨t, ht, rfl⟩ := (h.holds_twin_iff hapart u).1 hu
        exact ih t ht (h.ne_extra_of_holds hapart ht)

/-- The live holders of a twin are the twins of the live holders. -/
theorem liveHolders_twin (h : σ₁.Spliced p σ₂)
    (ho : List.Forall₂ (Held.Spliced p) outside₁ outside₂) (hs : p.Apart s) :
    σ₂.liveHolders outside₂ (p.twin s) = (σ₁.liveHolders outside₁ s).map p.twin := by
  have hne : ∀ t ∈ σ₁.liveHolders outside₁ s, t ≠ p.extra := fun t ht =>
    h.ne_extra_of_holds hs (Store.mem_liveHolders_iff.1 ht).1
  refine Store.liveHolders_eq_map p.twin
    (fun t u ht hu hlt => (twin_lt_twin_iff (hne t ht) (hne u hu)).2 hlt) fun u => ?_
  rw [Store.mem_liveHolders_iff, h.holds_twin_iff hs]
  constructor
  · rintro ⟨⟨t, ht, rfl⟩, hd⟩
    have hd := mt (h.dropped_twin hp₁ hp₂ ho (h.ne_extra_of_holds hs ht)).2 hd
    exact ⟨t, Store.mem_liveHolders_iff.2 ⟨ht, hd⟩, rfl⟩
  · rintro ⟨t, ht, rfl⟩
    have hte := hne t ht
    obtain ⟨ht, hd⟩ := Store.mem_liveHolders_iff.1 ht
    exact ⟨⟨t, ht, rfl⟩, mt (h.dropped_twin hp₁ hp₂ ho hte).1 hd⟩

end Parent

/-! ## Counting handles -/

theorem objectsFor_twin (ho : List.Forall₂ (Held.Spliced p) outside₁ outside₂)
    (hs : p.Apart s) : outside₂.flatMap (·.objectsFor (p.twin s)) =
      (outside₁.flatMap (·.objectsFor s)).map (Value.rename p.twin) := by
  induction ho with
  | nil => rfl
  | cons hh _ ih =>
    rw [List.flatMap_cons, List.flatMap_cons, List.map_append, hh.objectsFor_twin s hs, ih]

/-- The places found for a twin are those found for the scope. -/
theorem places_twin (h : σ₁.Spliced p σ₂) (ho : List.Forall₂ (Held.Spliced p) outside₁ outside₂)
    (hs : p.Apart s) (hlive : ∀ t ∈ live, t ≠ p.extra) :
    σ₂.places outside₂ (live.map p.twin) (p.twin s) =
      (σ₁.places outside₁ live s).map (Value.rename p.twin) := by
  have hbound : ∀ t, t ≠ p.extra →
      (σ₂.bindings (p.twin t)).values.filter (·.mentions (p.twin s)) =
        ((σ₁.bindings t).values.filter (·.mentions s)).map (Value.rename p.twin) := by
    intro t ht
    rw [h.bindings_twin ht, Table.values_rename, List.filter_map]
    simp only [Function.comp_def, Value.mentions_rename (twin_eq_twin_iff hs)]
  have hscopes : (live.map p.twin).flatMap (fun t =>
      (σ₂.bindings t).values.filter (·.mentions (p.twin s))) =
        (live.flatMap fun t => (σ₁.bindings t).values.filter (·.mentions s)).map
          (Value.rename p.twin) := by
    rw [List.flatMap_map, List.map_flatMap]
    exact List.flatMap_congr fun t ht => hbound t (hlive t ht)
  have htaken : σ₂.taken outside₂ (live.map p.twin) (p.twin s) =
      (σ₁.taken outside₁ live s).map (Value.rename p.twin) := by
    rw [Store.taken, Store.taken, objectsFor_twin ho hs, hscopes, List.map_append]
  rw [Store.places_eq, Store.places_eq, htaken]
  exact congrArg Places.values (Places.foldl_add_rename p.twin _ ⟨[], []⟩)

/-- Handles to a twin are counted like those to the scope. -/
theorem handleCount_twin (h : σ₁.Spliced p σ₂)
    (ho : List.Forall₂ (Held.Spliced p) outside₁ outside₂)
    (hp₁ : isHeld outside₁ p.parent = true) (hp₂ : isHeld outside₂ p.parent = true)
    (hs : p.Apart s) :
    σ₂.handleCount outside₂ (p.twin s) = σ₁.handleCount outside₁ s := by
  have hlive : ∀ t ∈ σ₁.liveHolders outside₁ s, t ≠ p.extra := fun t ht =>
    h.ne_extra_of_holds hs (Store.mem_liveHolders_iff.1 ht).1
  have hdirect : outside₂.foldr (fun h n => h.count (p.twin s) + n) 0 =
      outside₁.foldr (fun h n => h.count s + n) 0 := by
    refine (List.rel_foldr (P := Eq) ?_ rfl ho).symm
    rintro _ _ hh n _ rfl
    exact congrArg (· + n) (hh.count_twin s hs).symm
  rw [Store.handleCount, Store.handleCount]
  dsimp only
  rw [h.liveHolders_twin hp₁ hp₂ ho hs, h.places_twin ho hs hlive, hdirect]
  generalize σ₁.liveHolders outside₁ s = live at hlive ⊢
  generalize σ₁.places outside₁ live s = places
  have hsome : ∀ o : Option ScopeId, o.map p.twin = some (p.twin s) ↔ o = some s := by
    intro o
    cases o with
    | none => simp
    | some u => simp [twin_eq_twin_iff hs]
  have hscope : (places.map (Value.rename p.twin)).countP (·.scope? = some (p.twin s)) =
      places.countP (·.scope? = some s) := by
    simp only [List.countP_map, Function.comp_def, Value.scope?_rename, hsome]
  have howned : ∀ id, (places.map (Value.rename p.twin)).countP (·.objectId? = some id) =
      places.countP (·.objectId? = some id) := by
    intro id
    simp only [List.countP_map, Function.comp_def, Value.objectId?_rename]
  have hchildren : (live.map p.twin).countP (σ₂.parent? · = some (p.twin s)) =
      live.countP (σ₁.parent? · = some s) := by
    rw [List.countP_map]
    refine List.countP_congr fun t ht => ?_
    simp only [Function.comp_apply, h.parent?_twin (hlive t ht), hsome]
  have hself : (live.map p.twin).contains (p.twin s) = live.contains s := by
    simp [twin_eq_twin_iff hs]
  simp only [hscope, howned, hchildren, hself, h.bindings_twin hs.ne_extra,
    slotCaptures_rename (twin_eq_twin_iff hs)]

/-- A scope that is left is discarded with its twin, or stays with it. -/
theorem leave (h : σ₁.Spliced p σ₂) (ho : List.Forall₂ (Held.Spliced p) outside₁ outside₂)
    (hp₁ : isHeld outside₁ p.parent = true) (hp₂ : isHeld outside₂ p.parent = true)
    (hs : p.Apart s) :
    (σ₁.leave outside₁ s).Spliced p (σ₂.leave outside₂ (p.twin s)) := by
  rw [Store.leave, Store.leave, h.handleCount_twin ho hp₁ hp₂ hs]
  split
  · exact h.discard hs.ne_extra
  · exact h

end Store.Spliced

end Treewalk
