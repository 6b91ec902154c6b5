import Mathlib.Algebra.BigOperators.Group.List.Basic
import Mathlib.Algebra.Ring.Nat
import Treewalk.Proofs.Value.Nesting

/-!
# Sums over the places of values

The search for places takes values one by one and goes on into the properties of an object the
first time that it meets it. If identities stand for one object each, then what a sum over all
places comes to does not depend on the order: it is the sum over the values taken, and over the
properties of each object found, once.

* `Places.Adds` says all that taking values does to the places; `Places.exists_adds_foldl` and
  `Places.exists_adds_one` prove it, one from the other.
* `Places.Survey` is its meaning for a whole search, with `Places.exists_survey`.
* `Places.Survey.countP_scope_eq` relates the handles at places to those that are captured: besides
  those in objects with one owner there are those in objects with more.
-/

namespace Treewalk

/-- The sum of a measure over values. -/
def sumOf (g : Value → Nat) (vs : List Value) : Nat := (vs.map g).sum

@[simp] theorem sumOf_nil (g : Value → Nat) : sumOf g [] = 0 := rfl

@[simp] theorem sumOf_cons (g : Value → Nat) (v : Value) (vs : List Value) :
    sumOf g (v :: vs) = g v + sumOf g vs := by
  simp [sumOf]

@[simp] theorem sumOf_append (g : Value → Nat) (vs ws : List Value) :
    sumOf g (vs ++ ws) = sumOf g vs + sumOf g ws := by
  simp [sumOf]

theorem sumOf_flatMap {α : Type} (g : Value → Nat) (f : α → List Value) (as : List α) :
    sumOf g (as.flatMap f) = (as.map fun a => sumOf g (f a)).sum := by
  induction as with
  | nil => rfl
  | cons a rest ih => simp [ih]

theorem sumOf_eq_zero_iff {g : Value → Nat} {vs : List Value} :
    sumOf g vs = 0 ↔ ∀ v ∈ vs, g v = 0 := by
  simp [sumOf, List.sum_eq_zero_iff_forall_eq_nat]

theorem sumOf_filter_eq (g : Value → Nat) (keep : Value → Bool) (vs : List Value) :
    sumOf g (vs.filter keep) = sumOf (fun v => if keep v then g v else 0) vs := by
  induction vs with
  | nil => rfl
  | cons v rest ih =>
    rw [List.filter_cons, sumOf_cons, ← ih]
    split <;> simp

/-- A filter may leave out what counts nothing. -/
theorem sumOf_filter {g : Value → Nat} {keep : Value → Bool}
    (h : ∀ v, keep v = false → g v = 0) (vs : List Value) :
    sumOf g (vs.filter keep) = sumOf g vs := by
  have hg : (fun v => if keep v then g v else 0) = g := by
    funext v
    split
    · rfl
    · next hk => exact (h v (by simpa using hk)).symm
  rw [sumOf_filter_eq, hg]

theorem countP_eq_sumOf (p : Value → Bool) (vs : List Value) :
    vs.countP p = sumOf (fun v => if p v then 1 else 0) vs := by
  induction vs with
  | nil => rfl
  | cons v rest ih => rw [List.countP_cons, sumOf_cons, ih, Nat.add_comm]

/-! ## Handles captured -/

theorem slotCaptures_eq_sumOf (s : ScopeId) (owned : ObjectId → Bool)
    (slots : List (Slot Binding)) :
    slotCaptures s owned slots =
      sumOf (Value.captures s owned) (slots.filterMap Slot.value?) := by
  induction slots with
  | nil => rfl
  | cons slot rest ih =>
    cases slot with
    | occupied key b => simp [slotCaptures, Slot.value?, Slot.pair?, ih]
    | empty => exact ih
    | tombstone => exact ih

namespace Value

theorem captures_object (s : ScopeId) (owned : ObjectId → Bool) (id : ObjectId)
    (t : Table Binding) :
    captures s owned (.object id t) =
      if owned id then sumOf (captures s owned) t.values else 0 := by
  rw [captures, slotCaptures_eq_sumOf]
  rfl

theorem captures_eq_zero {s : ScopeId} {v : Value} (owned : ObjectId → Bool)
    (h : v.mentions s = false) : captures s owned v = 0 := by
  induction v using Value.induction with
  | leaf v hv =>
    cases v with
    | function f =>
      rw [captures, if_neg]
      intro hf
      simp [mentions_function.2 hf] at h
    | object id t => exact (hv rfl).elim
    | _ => rfl
  | object id t ih =>
    rw [captures_object]
    split
    · refine sumOf_eq_zero_iff.2 fun v hv => ih v hv ?_
      by_contra hm
      have hobj : (Value.object id t).mentions s = true :=
        mentions_object.2 ⟨v, hv, by simpa using hm⟩
      simp [h] at hobj
    · rfl

end Value

/-! ## Taking values -/

namespace Places

theorem addSlots_eq_foldl (p : Places) (slots : List (Slot Binding)) :
    p.addSlots slots = (slots.filterMap Slot.value?).foldl add p := by
  induction slots generalizing p with
  | nil => rfl
  | cons slot rest ih =>
    cases slot with
    | occupied key b => exact ih (p.add b.value)
    | empty => exact ih p
    | tombstone => exact ih p

theorem add_leaf (p : Places) {v : Value} (h : v.type ≠ .object) :
    p.add v = ⟨v :: p.values, p.searched⟩ := by
  cases v <;> first | rfl | exact (h rfl).elim

theorem add_object (p : Places) (id : ObjectId) (t : Table Binding) :
    p.add (.object id t) =
      if p.searched.contains id then ⟨.object id t :: p.values, p.searched⟩
      else t.values.foldl add ⟨.object id t :: p.values, id :: p.searched⟩ := by
  rw [add, addSlots_eq_foldl]
  rfl

/-- All that it does to places to take values, given what the identities stand for: new objects
were searched, and each value is a place as often as it occurs among the values taken and the
properties of the new objects. -/
structure Adds (T : ObjectId → Table Binding) (p : Places) (vs : List Value) (found : List ObjectId)
    (p' : Places) : Prop where
  searched : p'.searched = found ++ p.searched
  nodup : p.searched.Nodup → p'.searched.Nodup
  sum : ∀ g, sumOf g p'.values =
    sumOf g p.values + sumOf g vs + (found.map fun id => sumOf g (T id).values).sum
  subset : p.values ⊆ p'.values
  taken : vs ⊆ p'.values
  closed : ∀ id ∈ found, .object id (T id) ∈ p'.values ∧ (T id).values ⊆ p'.values
  listed : ∀ id t, .object id t ∈ p'.values → .object id t ∈ p.values ∨ id ∈ p'.searched
  nested : ∀ v ∈ p'.values, v ∈ p.values ∨ ∃ w ∈ vs, v.Nested w

variable {T : ObjectId → Table Binding} {n : Nat} {p p' p'' : Places} {vs ws : List Value}
variable {found found' : List ObjectId}

theorem adds_nil (T : ObjectId → Table Binding) (p : Places) : Adds T p [] [] p where
  searched := rfl
  nodup h := h
  sum g := by simp
  subset := List.Subset.refl _
  taken := List.nil_subset _
  closed id h := (List.not_mem_nil h).elim
  listed id t h := .inl h
  nested v h := .inl h

theorem Adds.append (h : Adds T p vs found p') (h' : Adds T p' ws found' p'') :
    Adds T p (vs ++ ws) (found' ++ found) p'' where
  searched := by rw [h'.searched, h.searched, List.append_assoc]
  nodup hp := h'.nodup (h.nodup hp)
  sum g := by
    rw [h'.sum, h.sum, sumOf_append, List.map_append, List.sum_append]
    omega
  subset := List.Subset.trans h.subset h'.subset
  taken := List.append_subset.2 ⟨List.Subset.trans h.taken h'.subset, h'.taken⟩
  closed id hid := by
    rcases List.mem_append.1 hid with hid | hid
    · exact h'.closed id hid
    · obtain ⟨hm, hs⟩ := h.closed id hid
      exact ⟨h'.subset hm, List.Subset.trans hs h'.subset⟩
  listed id t hm := by
    rcases h'.listed id t hm with hm | hm
    · rcases h.listed id t hm with hm | hm
      · exact .inl hm
      · exact .inr (h'.searched ▸ List.mem_append_right _ hm)
    · exact .inr hm
  nested v hv := by
    rcases h'.nested v hv with hv | ⟨w, hw, hn⟩
    · rcases h.nested v hv with hv | ⟨w, hw, hn⟩
      · exact .inl hv
      · exact .inr ⟨w, List.mem_append_left _ hw, hn⟩
    · exact .inr ⟨w, List.mem_append_right _ hw, hn⟩

/-- A value with nothing to search: not an object, or one that was searched before. -/
theorem adds_cons {v : Value} (p : Places)
    (h : ∀ id t, v = .object id t → p.searched.contains id = true) :
    Adds T p [v] [] ⟨v :: p.values, p.searched⟩ where
  searched := rfl
  nodup hp := hp
  sum g := by simp [Nat.add_comm]
  subset := List.subset_cons_self v _
  taken := by simp
  closed id hid := (List.not_mem_nil hid).elim
  listed id t hm := by
    rcases List.mem_cons.1 hm with rfl | hm
    · exact .inr (by simpa using h id t rfl)
    · exact .inl hm
  nested w hw := by
    rcases List.mem_cons.1 hw with rfl | hw
    · exact .inr ⟨w, List.mem_cons_self, .self⟩
    · exact .inl hw

/-- An object that was not searched before: its properties are taken after it. -/
theorem Adds.object {id : ObjectId} (hn : p.searched.contains id = false)
    (h : Adds T ⟨.object id (T id) :: p.values, id :: p.searched⟩ (T id).values found p') :
    Adds T p [.object id (T id)] (found ++ [id]) p' where
  searched := by rw [h.searched, List.append_assoc, List.singleton_append]
  nodup hp := h.nodup (List.nodup_cons.2 ⟨by simpa using hn, hp⟩)
  sum g := by
    rw [h.sum, List.map_append, List.sum_append]
    simp
    omega
  subset := List.Subset.trans (List.subset_cons_self _ _) h.subset
  taken := by simpa using h.subset List.mem_cons_self
  closed i hi := by
    rcases List.mem_append.1 hi with hi | hi
    · exact h.closed i hi
    · obtain rfl := List.mem_singleton.1 hi
      exact ⟨h.subset List.mem_cons_self, h.taken⟩
  listed i t hm := by
    rcases h.listed i t hm with hm | hm
    · rcases List.mem_cons.1 hm with hm | hm
      · cases hm
        exact .inr (h.searched ▸ List.mem_append_right _ List.mem_cons_self)
      · exact .inl hm
    · exact .inr hm
  nested w hw := by
    rcases h.nested w hw with hw | ⟨x, hx, hn⟩
    · rcases List.mem_cons.1 hw with rfl | hw
      · exact .inr ⟨_, List.mem_cons_self, .self⟩
      · exact .inl hw
    · exact .inr ⟨_, List.mem_cons_self, .bound hx hn⟩

/-- Values taken one after the other, if each of them can be. -/
theorem exists_adds_foldl (h : ∀ v ∈ vs, ∀ p, ∃ found, Adds T p [v] found (p.add v)) (p : Places) :
    ∃ found, Adds T p vs found (vs.foldl add p) := by
  induction vs generalizing p with
  | nil => exact ⟨[], adds_nil T p⟩
  | cons v rest ih =>
    obtain ⟨found, hf⟩ := h v List.mem_cons_self p
    obtain ⟨found', hf'⟩ := ih (fun w hw => h w (List.mem_cons_of_mem v hw)) (p.add v)
    exact ⟨found' ++ found, hf.append hf'⟩

theorem exists_adds_one {v : Value} (h : v.Obeys T n) (p : Places) :
    ∃ found, Adds T p [v] found (p.add v) := by
  induction v using Value.induction generalizing p with
  | leaf v hv =>
    rw [add_leaf p hv]
    refine ⟨[], adds_cons p ?_⟩
    rintro id t rfl
    exact (hv rfl).elim
  | object id t ih =>
    obtain ⟨⟨rfl, -⟩, hvs⟩ := Value.obeys_object.1 h
    rw [add_object]
    split
    · next hc =>
      refine ⟨[], adds_cons p ?_⟩
      rintro id' t ⟨⟩
      exact hc
    · next hc =>
      obtain ⟨found, hf⟩ := exists_adds_foldl (fun v hv => ih v hv (hvs v hv))
        ⟨.object id (T id) :: p.values, id :: p.searched⟩
      exact ⟨found ++ [id], hf.object (by simpa using hc)⟩

/-- What a search for places finds. -/
structure Survey (T : ObjectId → Table Binding) (vs : List Value) (found : List ObjectId)
    (places : List Value) : Prop where
  nodup : found.Nodup
  sum : ∀ g, sumOf g places = sumOf g vs + (found.map fun id => sumOf g (T id).values).sum
  taken : vs ⊆ places
  closed : ∀ id ∈ found, .object id (T id) ∈ places ∧ (T id).values ⊆ places
  listed : ∀ id t, .object id t ∈ places → id ∈ found
  nested : ∀ v ∈ places, ∃ w ∈ vs, v.Nested w

theorem exists_survey (h : ∀ v ∈ vs, v.Obeys T n) :
    ∃ found, Survey T vs found (vs.foldl add ⟨[], []⟩).values := by
  obtain ⟨found, hf⟩ := exists_adds_foldl (fun v hv => exists_adds_one (h v hv)) ⟨[], []⟩
  have hs : (vs.foldl add ⟨[], []⟩).searched = found := by
    rw [hf.searched, List.append_nil]
  refine ⟨found, hs ▸ hf.nodup List.nodup_nil, fun g => by rw [hf.sum]; simp, hf.taken, hf.closed,
    fun id t hm => ?_, fun v hv => ?_⟩
  · rcases hf.listed id t hm with hm | hm
    · exact (List.not_mem_nil hm).elim
    · exact hs ▸ hm
  · rcases hf.nested v hv with hv | hv
    · exact (List.not_mem_nil hv).elim
    · exact hv

namespace Survey

/-- What an object at a place captures: nothing, unless it has one owner. -/
theorem sumOf_captures_split (s : ScopeId) (owned : ObjectId → Bool) (places : List Value) :
    sumOf (Value.captures s owned) places = places.countP (·.scope? = some s) +
      sumOf (fun v => if v.objectId?.any owned then v.captures s owned else 0) places := by
  induction places with
  | nil => rfl
  | cons v rest ih =>
    rw [sumOf_cons, sumOf_cons, List.countP_cons, ih]
    cases v with
    | function f =>
      by_cases hf : f.scope = s <;> simp [Value.captures, Value.scope?, Value.objectId?, hf]
      omega
    | object id t =>
      simp only [Value.captures_object, Value.scope?, Value.objectId?, Option.any_some]
      split
      · simp
        omega
      · simp
    | _ => simp [Value.captures, Value.scope?, Value.objectId?]

variable {T : ObjectId → Table Binding} {n : Nat} {vs places : List Value}
variable {found : List ObjectId}

theorem obeys (h : Survey T vs found places) (hvs : ∀ v ∈ vs, v.Obeys T n) {v : Value}
    (hv : v ∈ places) : v.Obeys T n := by
  obtain ⟨w, hw, hn⟩ := h.nested v hv
  exact fun id t hm => hvs w hw id t (hm.trans hn)

/-- The objects with one owner: as places they are what is found, each once. -/
theorem perm_owned (h : Survey T vs found places) {owned : ObjectId → Bool}
    (ho : ∀ id, owned id = true → places.countP (·.objectId? = some id) = 1) :
    ((places.filterMap Value.objectId?).filter owned).Perm (found.filter owned) := by
  have hmem : ∀ id, id ∈ places.filterMap Value.objectId? ↔ ∃ t, .object id t ∈ places := by
    intro id
    rw [List.mem_filterMap]
    constructor
    · rintro ⟨v, hv, hid⟩
      cases v <;> simp only [Value.objectId?, Option.some.injEq, reduceCtorEq] at hid
      subst hid
      exact ⟨_, hv⟩
    · rintro ⟨t, ht⟩
      exact ⟨_, ht, rfl⟩
  have hcount : ∀ id, (places.filterMap Value.objectId?).count id =
      places.countP (·.objectId? = some id) := by
    intro id
    rw [List.count_filterMap]
    exact List.countP_congr fun v _ => by simp
  refine (List.perm_ext_iff_of_nodup ?_ (h.nodup.filter owned)).2 fun id => ?_
  · refine List.nodup_iff_count_le_one.2 fun id => ?_
    by_cases hid : owned id = true
    · exact Nat.le_of_eq (((List.count_filter hid).trans (hcount id)).trans (ho id hid))
    · rw [List.count_eq_zero_of_not_mem]
      · exact Nat.zero_le 1
      · exact fun hm => hid (List.mem_filter.1 hm).2
  · rw [List.mem_filter, List.mem_filter, hmem]
    refine and_congr_left fun _ => ⟨?_, fun hid => ⟨T id, (h.closed id hid).1⟩⟩
    rintro ⟨t, ht⟩
    exact h.listed id t ht

/-- The objects with one owner at places capture what their properties do. -/
theorem sumOf_captures_owned (hall : ∀ v ∈ places, v.Obeys T n) (s : ScopeId)
    (owned : ObjectId → Bool) :
    sumOf (fun v => if v.objectId?.any owned then v.captures s owned else 0) places =
      (((places.filterMap Value.objectId?).filter owned).map fun id =>
        sumOf (Value.captures s owned) (T id).values).sum := by
  induction places with
  | nil => rfl
  | cons v rest ih =>
    have ih := ih fun w hw => hall w (List.mem_cons_of_mem v hw)
    rw [sumOf_cons, ih, List.filterMap_cons]
    cases v with
    | object id t =>
      obtain ⟨⟨rfl, -⟩, -⟩ := Value.obeys_object.1 (hall _ List.mem_cons_self)
      simp only [Value.objectId?, Option.any_some, List.filter_cons]
      split
      · next hid => simp [Value.captures_object, hid]
      · next hid => simp [hid]
    | _ => simp [Value.objectId?]

/-- The functions of a scope at places are those captured by the values taken, and those in
objects with several owners. -/
theorem countP_scope_eq (h : Survey T vs found places) (hvs : ∀ v ∈ vs, v.Obeys T n)
    (s : ScopeId) {owned : ObjectId → Bool}
    (ho : ∀ id, owned id = true → places.countP (·.objectId? = some id) = 1) :
    places.countP (·.scope? = some s) = sumOf (Value.captures s owned) vs +
      ((found.filter fun id => !owned id).map fun id =>
        sumOf (Value.captures s owned) (T id).values).sum := by
  have hsplit := sumOf_captures_split s owned places
  have hsum := h.sum (Value.captures s owned)
  have hobjects : sumOf (fun v => if v.objectId?.any owned then v.captures s owned else 0) places =
      ((found.filter owned).map fun id => sumOf (Value.captures s owned) (T id).values).sum := by
    rw [← ((h.perm_owned ho).map _).sum_eq]
    exact sumOf_captures_owned (fun v hv => h.obeys hvs hv) s owned
  have hfound : (found.map fun id => sumOf (Value.captures s owned) (T id).values).sum =
      ((found.filter owned).map fun id => sumOf (Value.captures s owned) (T id).values).sum +
      ((found.filter fun id => !owned id).map fun id =>
        sumOf (Value.captures s owned) (T id).values).sum := by
    rw [← ((List.filter_append_perm owned found).map _).sum_eq, List.map_append, List.sum_append]
  omega

end Survey

end Places

end Treewalk
