import Treewalk.Proofs.Matching.Values
import Treewalk.Proofs.Scope.Held
import Treewalk.Proofs.Scope.Leaving

/-!
# Stores of two like evaluations

Stores match if their scopes match one by one: the same parents and capacities, and tables that
match. So names resolve in the same scopes, scopes hold the same handles, and every operation does
the same on both sides: `Store.Matches.declare`, `Store.Matches.assign`. The handles to a scope are
as many, so that leaving it discards it on both sides or on none: `Store.Matches.leave`.
-/

namespace Treewalk

variable {L : Likeness} {v w : Value}

/-- Scopes with one parent whose tables match. -/
structure Scope.Matches (L : Likeness) (a b : Scope) : Prop where
  bindings : a.bindings.Matches L b.bindings
  parent : a.parent = b.parent
  childCapacity : a.childCapacity = b.childCapacity
  isDiscarded : a.isDiscarded = b.isDiscarded

/-- Stores whose scopes match one by one. -/
structure Store.Matches (L : Likeness) (σ₁ σ₂ : Store) : Prop where
  scopes : ∀ i : Nat, Option.Rel (Scope.Matches L) σ₁.scopes[i]? σ₂.scopes[i]?
  nextObject_eq : σ₁.nextObject = σ₂.nextObject
  holders_eq : σ₁.holders = σ₂.holders

/-- Handles to the same scopes, by way of objects that match. -/
structure Held.Matches (L : Likeness) (h₁ h₂ : Held) : Prop where
  count_eq : ∀ s, h₁.count s = h₂.count s
  objects : ∀ s, List.Forall₂ (Value.Matches L) (h₁.objectsFor s) (h₂.objectsFor s)

/-! ## Handles held outside -/

namespace Held.Matches

variable {h₁ h₂ : Held}

theorem empty : Held.Matches L .empty .empty :=
  ⟨fun _ => rfl, fun s => by rw [objectsFor_empty]; exact .nil⟩

theorem scope (h : h₁.Matches L h₂) (s : ScopeId) : Held.Matches L (h₁.scope s) (h₂.scope s) := by
  refine ⟨fun t => ?_, h.objects⟩
  rw [count_scope, count_scope, h.count_eq]

theorem value (h : h₁.Matches L h₂) (hvw : v.Matches L w) :
    Held.Matches L (h₁.value v) (h₂.value w) := by
  refine ⟨fun t => ?_, fun t => ?_⟩
  · rw [count_value, count_value, h.count_eq]
    cases hvw with
    | plain => rfl
    | function hf => dsimp only; rw [hf.scope]
    | object => rfl
  · rw [objectsFor_value, objectsFor_value, hvw.type_eq, hvw.mentions_eq]
    split
    · exact .cons hvw (h.objects t)
    · exact h.objects t

theorem mentions_eq (h : h₁.Matches L h₂) (s : ScopeId) : h₁.mentions s = h₂.mentions s := by
  have hempty : (h₁.objectsFor s).isEmpty = (h₂.objectsFor s).isEmpty := by
    have ho := h.objects s
    generalize h₁.objectsFor s = vs at ho
    generalize h₂.objectsFor s = ws at ho
    cases ho <;> rfl
  rw [mentions, mentions, h.count_eq, hempty]

end Held.Matches

/-- The handles of two evaluations match. -/
theorem Context.matches {base base' : Held} (hb : base.Matches L base') {Γ : Context}
    (h : ∀ v w, .value v w ∈ Γ → v.Matches L w) : (Γ.left base).Matches L (Γ.right id base') := by
  induction Γ with
  | nil => exact hb
  | cons x Γ ih =>
    have ih := ih fun v w hm => h v w (List.mem_cons_of_mem x hm)
    cases x with
    | scope s => exact ih.scope s
    | value v w => exact ih.value (h v w List.mem_cons_self)

namespace Store.Matches

variable {σ₁ σ₂ : Store} {s : ScopeId}

/-! ## Look-ups -/

theorem empty : Store.Matches L .empty .empty :=
  ⟨fun _ => .none, rfl, rfl⟩

theorem size_eq (h : σ₁.Matches L σ₂) : σ₁.scopes.size = σ₂.scopes.size := by
  have hle : ∀ {i : Nat}, i < σ₁.scopes.size ↔ i < σ₂.scopes.size := by
    intro i
    have hi := h.scopes i
    rw [← not_iff_not, Nat.not_lt, Nat.not_lt, ← Array.getElem?_eq_none_iff,
      ← Array.getElem?_eq_none_iff]
    generalize σ₁.scopes[i]? = a at hi
    generalize σ₂.scopes[i]? = b at hi
    cases hi <;> simp
  have h₁ := (hle (i := σ₁.scopes.size)).2
  have h₂ := (hle (i := σ₂.scopes.size)).1
  omega

theorem bindings (h : σ₁.Matches L σ₂) (s : ScopeId) :
    (σ₁.bindings s).Matches L (σ₂.bindings s) := by
  have hs := h.scopes s.index
  rw [Store.bindings, Store.bindings]
  generalize σ₁.scopes[s.index]? = a at hs
  generalize σ₂.scopes[s.index]? = b at hs
  cases hs with
  | none => exact .withCapacity 0
  | some hs => exact hs.bindings

theorem parent?_eq (h : σ₁.Matches L σ₂) (s : ScopeId) : σ₁.parent? s = σ₂.parent? s := by
  have hs := h.scopes s.index
  rw [parent?, parent?]
  generalize σ₁.scopes[s.index]? = a at hs
  generalize σ₂.scopes[s.index]? = b at hs
  cases hs with
  | none => rfl
  | some hs => exact hs.parent

theorem childCapacity_eq (h : σ₁.Matches L σ₂) (s : ScopeId) :
    σ₁.childCapacity s = σ₂.childCapacity s := by
  have hs := h.scopes s.index
  rw [childCapacity, childCapacity]
  generalize σ₁.scopes[s.index]? = a at hs
  generalize σ₂.scopes[s.index]? = b at hs
  cases hs with
  | none => rfl
  | some hs => exact hs.childCapacity

theorem chain_eq (h : σ₁.Matches L σ₂) (s : ScopeId) : σ₁.chain s = σ₂.chain s :=
  chain_congr (P := fun _ => True) (fun t _ => h.parent?_eq t) (fun _ _ _ _ _ => trivial) trivial

theorem owner?_eq (h : σ₁.Matches L σ₂) (s : ScopeId) (name : String) :
    σ₁.owner? s name = σ₂.owner? s name := by
  rw [owner?, owner?, h.chain_eq]
  congr 1
  funext t
  exact (h.bindings t).contains_eq name

/-- A name resolves on both sides or on none. -/
theorem resolve (h : σ₁.Matches L σ₂) (s : ScopeId) (name : String) :
    Option.Rel (BindingOf.Matches L) (σ₁.resolve s name) (σ₂.resolve s name) := by
  rw [Store.resolve, Store.resolve, h.chain_eq]
  induction σ₂.chain s with
  | nil => exact .none
  | cons t rest ih =>
    have ht := (h.bindings t).get? name
    rw [List.findSome?_cons, List.findSome?_cons]
    generalize (σ₁.bindings t).get? name = b at ht
    generalize (σ₂.bindings t).get? name = c at ht
    cases ht with
    | none => exact ih
    | some hbc => exact .some hbc

/-- Scopes hold the same handles. -/
theorem holds_eq (h : σ₁.Matches L σ₂) (t s : ScopeId) : σ₁.holds t s = σ₂.holds t s := by
  have hmentions : ∀ {t u : Table Binding}, t.Matches L u → t.mentions s = u.mentions s := by
    intro t u htu
    have hslots : ∀ {slot slot' : Slot Binding}, slot.Matches (Value.Matches L) slot' →
        slot.mentions s = slot'.mentions s := by
      intro slot slot' hs
      cases hs with
      | empty | tombstone => rfl
      | occupied key name isConst hv => exact hv.mentions_eq s
    have hmap := map_eq_of_forall₂ htu.slots fun _ _ _ hs => hslots hs
    rw [Table.mentions, Table.mentions, ← Array.any_toList, ← Array.any_toList]
    simpa only [List.any_map, Function.id_comp] using congrArg (List.any · id) hmap
  have ht := h.scopes t.index
  rw [holds, holds]
  generalize σ₁.scopes[t.index]? = a at ht
  generalize σ₂.scopes[t.index]? = b at ht
  cases ht with
  | none => rfl
  | some ht =>
    simp only [Option.any_some, Scope.holds, ht.isDiscarded, ht.parent, hmentions ht.bindings]

/-! ## Operations -/

theorem nextObject (h : σ₁.Matches L σ₂) (n : Nat) :
    Store.Matches L { σ₁ with nextObject := n } { σ₂ with nextObject := n } :=
  ⟨h.scopes, rfl, h.holders_eq⟩

theorem add (h : σ₁.Matches L σ₂) (capacity : Nat) (parent : Option ScopeId)
    (childCapacity : Nat) :
    (σ₁.add capacity parent childCapacity).1 = (σ₂.add capacity parent childCapacity).1 ∧
      (σ₁.add capacity parent childCapacity).2.Matches L
        (σ₂.add capacity parent childCapacity).2 := by
  refine ⟨ScopeId.index_inj.1 h.size_eq, fun i => ?_, h.nextObject_eq, ?_⟩
  · rw [getElem?_scopes_add, getElem?_scopes_add, h.size_eq]
    split
    · exact .some ⟨.withCapacity capacity, rfl, rfl, rfl⟩
    · exact h.scopes i
  · change σ₁.holders.noteAll ⟨σ₁.scopes.size⟩ _ = σ₂.holders.noteAll ⟨σ₂.scopes.size⟩ _
    rw [h.size_eq, h.holders_eq]

theorem child (h : σ₁.Matches L σ₂) (s : ScopeId) :
    (σ₁.child s).1 = (σ₂.child s).1 ∧ (σ₁.child s).2.Matches L (σ₂.child s).2 := by
  rw [Store.child, Store.child, h.childCapacity_eq]
  exact h.add _ _ _

/-- Matching bindings written into one slot on both sides. -/
theorem place (h : σ₁.Matches L σ₂) {b c : Binding} (hbc : b.Matches L c) (s : ScopeId)
    (p : Table.SetOutcome × Nat) (key : String) :
    (σ₁.place s p key b).Matches L (σ₂.place s p key c) := by
  refine ⟨fun j => ?_, h.nextObject_eq, ?_⟩
  · have hj := h.scopes j
    rw [getElem?_scopes_place, getElem?_scopes_place]
    split
    · generalize σ₁.scopes[j]? = a at hj
      generalize σ₂.scopes[j]? = a' at hj
      cases hj with
      | none => exact .none
      | some ha => exact .some { ha with bindings := ha.bindings.write hbc p key }
    · exact hj
  · change σ₁.holders.noteAll s b.value.scopes = σ₂.holders.noteAll s c.value.scopes
    rw [h.holders_eq, hbc.value.scopes_eq]

/-- A name is declared on both sides, or does not fit on both. -/
theorem declare (h : σ₁.Matches L σ₂) (hvw : v.Matches L w) (s : ScopeId) (name : String)
    (isConst : Bool) :
    Corresponds (fun _ => False) (fun p q => p.2.Matches L q.2)
      (σ₁.declare s name v isConst) (σ₂.declare s name w isConst) := by
  rw [Store.declare, Store.declare, (h.bindings s).place?_eq, (h.bindings s).capacity_eq]
  cases (σ₂.bindings s).place? name with
  | none => exact .error _
  | some p =>
    have hbc : BindingOf.Matches L ⟨name, isConst, v⟩ ⟨name, isConst, w⟩ := ⟨rfl, rfl, hvw⟩
    exact .ok (h.place hbc s p name)

/-- A variable is assigned on both sides, or the same fault is found on both. -/
theorem assign (h : σ₁.Matches L σ₂) (hvw : v.Matches L w) (s : ScopeId) (name : String) :
    Corresponds (fun _ => False) (fun p q => p.2.Matches L q.2)
      (σ₁.assign s name v) (σ₂.assign s name w) := by
  rw [Store.assign, Store.assign, h.owner?_eq]
  cases σ₂.owner? s name with
  | none => exact .error _
  | some t =>
    have ht := (h.bindings t).locate? name
    dsimp only
    generalize (σ₁.bindings t).locate? name = p at ht
    generalize (σ₂.bindings t).locate? name = q at ht
    cases ht with
    | none => exact .error _
    | @some p q hpq =>
      obtain ⟨i, b⟩ := p
      obtain ⟨j, c⟩ := q
      obtain ⟨rfl, hbc⟩ := hpq
      dsimp only at hbc ⊢
      rw [hbc.isConst]
      split
      · exact .error _
      · have hvw' : BindingOf.Matches L { b with value := v } { c with value := w } :=
          ⟨hbc.name, hbc.isConst, hvw⟩
        exact .ok (h.place hvw' t (.overwritten, i) name)

theorem copy (h : σ₁.Matches L σ₂) (hvw : v.Matches L w) :
    (σ₁.copy v).1.Matches L (σ₂.copy w).1 ∧ (σ₁.copy v).2.Matches L (σ₂.copy w).2 := by
  obtain ⟨hn, hcopy⟩ := hvw.copy σ₂.nextObject
  rw [Store.copy, Store.copy, h.nextObject_eq]
  refine ⟨hcopy, ?_⟩
  dsimp only
  rw [hn]
  exact h.nextObject _

theorem object (h : σ₁.Matches L σ₂) {t u : Table Binding} (htu : t.Matches L u) :
    (σ₁.object t).1.Matches L (σ₂.object u).1 ∧ (σ₁.object t).2.Matches L (σ₂.object u).2 := by
  rw [Store.object, Store.object, h.nextObject_eq]
  exact ⟨Value.Matches.object_iff.2 ⟨rfl, htu⟩, h.nextObject _⟩

theorem discard (h : σ₁.Matches L σ₂) (s : ScopeId) : (σ₁.discard s).Matches L (σ₂.discard s) := by
  refine ⟨fun j => ?_, h.nextObject_eq, ?_⟩
  · have hj := h.scopes j
    rw [getElem?_scopes_discard, getElem?_scopes_discard]
    split
    · generalize σ₁.scopes[j]? = a at hj
      generalize σ₂.scopes[j]? = a' at hj
      cases hj with
      | none => exact .none
      | some ha => exact .some { ha with bindings := .withCapacity 0, isDiscarded := rfl }
    · exact hj
  · change (s :: (σ₁.parent? s).toList).foldl (fun h u => h.erase s u) σ₁.holders =
      (s :: (σ₂.parent? s).toList).foldl (fun h u => h.erase s u) σ₂.holders
    rw [h.parent?_eq, h.holders_eq]

/-! ## Leaving -/

variable {outside₁ outside₂ : List Held}

/-- The same scopes alive hold a scope. -/
theorem liveHolders_eq (h : σ₁.Matches L σ₂)
    (ho : List.Forall₂ (Held.Matches L) outside₁ outside₂) (s : ScopeId) :
    σ₁.liveHolders outside₁ s = σ₂.liveHolders outside₂ s := by
  refine liveHolders_congr h.holds_eq (fun t => ?_) s
  induction ho with
  | nil => rfl
  | cons hh _ ih =>
    rw [isHeld, isHeld] at ih ⊢
    rw [List.any_cons, List.any_cons, hh.mentions_eq, ih]

/-- The values at places match, one by one. -/
theorem places (h : σ₁.Matches L σ₂) (ho : List.Forall₂ (Held.Matches L) outside₁ outside₂)
    (live : List ScopeId) (s : ScopeId) :
    List.Forall₂ (Value.Matches L) (σ₁.places outside₁ live s) (σ₂.places outside₂ live s) := by
  have htaken : List.Forall₂ (Value.Matches L) (σ₁.taken outside₁ live s)
      (σ₂.taken outside₂ live s) := by
    refine List.rel_append ?_ ?_
    · exact List.rel_flatMap ho fun _ _ hh => hh.objects s
    · refine List.rel_flatMap (R := (· = ·)) (List.forall₂_same.2 fun _ _ => rfl) ?_
      rintro t _ rfl
      refine List.rel_filter (fun v w hvw => ?_) (h.bindings t).values
      exact Iff.of_eq (congrArg (· = true) (hvw.mentions_eq s))
  rw [places_eq, places_eq]
  exact (Places.Matches.foldl htaken (fun _ _ _ _ _ hvw hp => hp.add hvw) ⟨.nil, rfl⟩).values

/-- The handles to a scope are as many. -/
theorem handleCount_eq (h : σ₁.Matches L σ₂)
    (ho : List.Forall₂ (Held.Matches L) outside₁ outside₂) (s : ScopeId) :
    σ₁.handleCount outside₁ s = σ₂.handleCount outside₂ s := by
  have hdirect : outside₁.foldr (fun h n => h.count s + n) 0 =
      outside₂.foldr (fun h n => h.count s + n) 0 := by
    refine List.rel_foldr (P := Eq) ?_ rfl ho
    rintro _ _ hh n _ rfl
    exact congrArg (· + n) (hh.count_eq s)
  rw [handleCount, handleCount]
  dsimp only
  rw [h.liveHolders_eq ho]
  generalize σ₂.liveHolders outside₂ s = live
  have hplaces := h.places ho live s
  generalize σ₁.places outside₁ live s = places at hplaces
  generalize σ₂.places outside₂ live s = places' at hplaces
  have hscope : places.countP (·.scope? = some s) = places'.countP (·.scope? = some s) := by
    have hmap := map_eq_of_forall₂ hplaces fun _ _ _ hvw => hvw.scope?_eq
    simpa only [List.countP_map, Function.comp_def] using congrArg (List.countP (· = some s)) hmap
  have howned : ∀ id, places.countP (·.objectId? = some id) =
      places'.countP (·.objectId? = some id) := by
    intro id
    have hmap := map_eq_of_forall₂ hplaces fun _ _ _ hvw => hvw.objectId?_eq
    simpa only [List.countP_map, Function.comp_def] using congrArg (List.countP (· = some id)) hmap
  have hchildren : live.countP (σ₁.parent? · = some s) = live.countP (σ₂.parent? · = some s) :=
    List.countP_congr fun t _ => by rw [h.parent?_eq]
  have hcaptures : ∀ owned, slotCaptures s owned (σ₁.bindings s).slots.toList =
      slotCaptures s owned (σ₂.bindings s).slots.toList := by
    intro owned
    rw [slotCaptures_eq_sumOf, slotCaptures_eq_sumOf, sumOf, sumOf]
    exact congrArg List.sum
      (map_eq_of_forall₂ (h.bindings s).values fun _ _ _ hvw => hvw.captures_eq s owned)
  simp only [hscope, howned, hchildren, hdirect, hcaptures]

/-- A scope that is left is discarded on both sides or on none. -/
theorem leave (h : σ₁.Matches L σ₂) (ho : List.Forall₂ (Held.Matches L) outside₁ outside₂)
    (s : ScopeId) : (σ₁.leave outside₁ s).Matches L (σ₂.leave outside₂ s) := by
  rw [Store.leave, Store.leave, h.handleCount_eq ho]
  split
  · exact h.discard s
  · exact h

end Store.Matches

end Treewalk
