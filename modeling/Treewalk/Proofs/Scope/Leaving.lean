import Mathlib.Data.Set.Basic
import Treewalk.Proofs.Scope.Dropped
import Treewalk.Proofs.Scope.Held
import Treewalk.Proofs.Scope.Places

/-!
# A scope is left only if nothing else leads to it

`Store.Reaches` are the scopes that handles lead to from some roots. If the count of the handles to
a scope comes out as its own ones alone, then no handle held outside the store leads to it:
`Store.not_reaches_of_count`. So a scope that is discarded when it is left cannot be reached any
more.

The count is right because identities stand for one object each. A handle in an object with several
owners, or at a place outside the scope's bindings, is one more than the scope's own.
-/

namespace Treewalk

/-- The values bound in the scopes of a store obey a map from identities to tables. -/
def Store.Obeys (T : ObjectId → Table Binding) (σ : Store) : Prop :=
  ∀ s, ∀ v ∈ (σ.bindings s).values, v.Obeys T σ.nextObject

namespace Store

variable {σ : Store} {s t : ScopeId}

theorem holds_iff : σ.holds t s = true ↔ ∃ scope, σ.scopes[t.index]? = some scope ∧
    scope.isDiscarded = false ∧ (scope.parent = some s ∨ scope.bindings.mentions s = true) := by
  rw [holds, Option.any_eq_true]
  refine exists_congr fun scope => and_congr_right fun _ => ?_
  simp [Scope.holds]

theorem cases_of_holds (h : σ.holds t s = true) :
    σ.parent? t = some s ∨ ∃ v ∈ (σ.bindings t).values, v.mentions s = true := by
  obtain ⟨scope, hs, -, hp | hm⟩ := holds_iff.1 h
  · left
    rw [parent?, hs]
    exact hp
  · right
    rw [bindings, hs]
    exact Table.mentions_iff.1 hm

/-- The scopes that handles lead to from some roots. -/
inductive Reaches (σ : Store) (roots : ScopeId → Prop) : ScopeId → Prop
  | root {s : ScopeId} (h : roots s) : Reaches σ roots s
  | step {t s : ScopeId} (ht : Reaches σ roots t) (h : σ.holds t s = true) : Reaches σ roots s

/-! ## The places of a search -/

/-- The values that the search for places takes: the objects held outside the store, and the
values in live scopes, with handles to a scope in them. -/
def taken (σ : Store) (outside : List Held) (live : List ScopeId) (s : ScopeId) : List Value :=
  outside.flatMap (·.objectsFor s) ++
    live.flatMap fun t => (σ.bindings t).values.filter (·.mentions s)

theorem addTableFor_eq_foldl (s : ScopeId) (p : Places) (t : Table Binding) :
    p.addTableFor s t = (t.values.filter (·.mentions s)).foldl Places.add p := by
  rw [Places.addTableFor, ← Array.foldl_toList, Table.values]
  induction t.slots.toList generalizing p with
  | nil => rfl
  | cons slot rest ih =>
    cases slot with
    | occupied key b =>
      rw [List.foldl_cons, ih, List.filterMap_cons_some (b := b.value) (by rfl), List.filter_cons]
      dsimp only
      rw [Places.addFor]
      split <;> rfl
    | empty => exact ih p
    | tombstone => exact ih p

theorem places_eq (σ : Store) (outside : List Held) (live : List ScopeId) (s : ScopeId) :
    σ.places outside live s = ((σ.taken outside live s).foldl Places.add ⟨[], []⟩).values := by
  rw [places, taken, List.foldl_append]
  have houter : ∀ p : Places, outside.foldl (fun p h => (h.objectsFor s).foldl Places.add p) p =
      (outside.flatMap (·.objectsFor s)).foldl Places.add p := by
    induction outside with
    | nil => exact fun _ => rfl
    | cons h rest ih =>
      exact fun p => by rw [List.foldl_cons, ih, List.flatMap_cons, List.foldl_append]
  have hlive : ∀ p : Places, live.foldl (fun p t => p.addTableFor s (σ.bindings t)) p =
      (live.flatMap fun t => (σ.bindings t).values.filter (·.mentions s)).foldl Places.add p := by
    induction live with
    | nil => exact fun _ => rfl
    | cons t rest ih =>
      exact fun p => by
        rw [List.foldl_cons, ih, List.flatMap_cons, List.foldl_append, addTableFor_eq_foldl]
  rw [houter, hlive]

variable {T : ObjectId → Table Binding} {n : Nat}

theorem taken_obeys {outside : List Held} (live : List ScopeId)
    (hout : ∀ h ∈ outside, ∀ v ∈ h.objectsFor s, v.Obeys T n)
    (hσ : ∀ t, ∀ v ∈ (σ.bindings t).values, v.Obeys T n) :
    ∀ v ∈ σ.taken outside live s, v.Obeys T n := by
  intro v hv
  rcases List.mem_append.1 hv with hv | hv
  · obtain ⟨h, hh, hv⟩ := List.mem_flatMap.1 hv
    exact hout h hh v hv
  · obtain ⟨t, -, hv⟩ := List.mem_flatMap.1 hv
    exact hσ t v (List.mem_filter.1 hv).1

/-- What the values taken capture: the bindings that do not mention the scope capture nothing. -/
theorem sumOf_captures_taken (σ : Store) (outside : List Held) (live : List ScopeId)
    (s : ScopeId) (owned : ObjectId → Bool) :
    sumOf (Value.captures s owned) (σ.taken outside live s) =
      sumOf (Value.captures s owned) (outside.flatMap (·.objectsFor s)) +
        (live.map fun t => sumOf (Value.captures s owned) (σ.bindings t).values).sum := by
  rw [taken, sumOf_append, sumOf_flatMap _ _ live]
  have hf : ∀ t, sumOf (Value.captures s owned) ((σ.bindings t).values.filter (·.mentions s)) =
      sumOf (Value.captures s owned) (σ.bindings t).values :=
    fun t => sumOf_filter (fun v hv => Value.captures_eq_zero owned hv) _
  rw [funext hf]

end Store

/-- A value at a place that captures nothing holds no handle, unless an object with several owners
does. -/
theorem Places.Survey.mentions_eq_false {T : ObjectId → Table Binding} {n : Nat}
    {vs places : List Value} {found : List ObjectId} (h : Survey T vs found places)
    (hvs : ∀ v ∈ vs, v.Obeys T n) {s : ScopeId} {owned : ObjectId → Bool}
    (hshared : ∀ id ∈ found, owned id = false →
      sumOf (Value.captures s owned) (T id).values = 0) {v : Value} (hv : v ∈ places)
    (hc : v.captures s owned = 0) : v.mentions s = false := by
  induction v using Value.induction with
  | leaf v hleaf =>
    cases v with
    | object id t => exact (hleaf rfl).elim
    | function f =>
      by_contra hm
      have hf : f.scope = s := Value.mentions_function.1 (by simpa using hm)
      simp [Value.captures, hf] at hc
    | _ => rfl
  | object id t ih =>
    obtain ⟨⟨rfl, -⟩, -⟩ := Value.obeys_object.1 (h.obeys hvs hv)
    have hid := h.listed id _ hv
    have hsum : sumOf (Value.captures s owned) (T id).values = 0 := by
      by_cases ho : owned id = true
      · rwa [Value.captures_object, if_pos ho] at hc
      · exact hshared id hid (by simpa using ho)
    by_contra hm
    obtain ⟨w, hw, hwm⟩ := Value.mentions_object.1 (by simpa using hm)
    have hfalse := ih w hw ((h.closed id hid).2 hw) (sumOf_eq_zero_iff.1 hsum w hw)
    simp [hwm] at hfalse

namespace Store

variable {σ : Store} {s : ScopeId} {T : ObjectId → Table Binding} {n : Nat}

theorem foldr_count_eq_sum (outside : List Held) (s : ScopeId) :
    outside.foldr (fun h n => h.count s + n) 0 = (outside.map (·.count s)).sum := by
  rw [List.sum_eq_foldr, List.foldr_map]

theorem taken_subset_places {outside : List Held} (live : List ScopeId)
    (hout : ∀ h ∈ outside, ∀ v ∈ h.objectsFor s, v.Obeys T n)
    (hσ : ∀ t, ∀ v ∈ (σ.bindings t).values, v.Obeys T n) :
    σ.taken outside live s ⊆ σ.places outside live s := by
  obtain ⟨found, hsv⟩ := Places.exists_survey (taken_obeys live hout hσ)
  exact places_eq .. ▸ hsv.taken

/-- What an equal count leaves: the scope's own bindings account for one summand of the live
holders, so nothing else counts a handle. -/
theorem exists_owned_of_count {outside : List Held}
    (hout : ∀ h ∈ outside, ∀ v ∈ h.objectsFor s, v.Obeys T n)
    (hσ : ∀ t, ∀ v ∈ (σ.bindings t).values, v.Obeys T n)
    (hc : (σ.handleCount outside s).all = (σ.handleCount outside s).own) :
    ∃ owned : ObjectId → Bool, (∀ id, owned id = true →
        (σ.places outside (σ.liveHolders outside s) s).countP (·.objectId? = some id) = 1) ∧
      (∀ h ∈ outside, h.count s = 0) ∧
      (∀ v ∈ outside.flatMap (·.objectsFor s), v.captures s owned = 0) ∧
      (∀ t ∈ σ.liveHolders outside s, σ.parent? t ≠ some s ∧
        (t ≠ s → ∀ v ∈ (σ.bindings t).values, v.captures s owned = 0)) ∧
      ∀ v ∈ σ.places outside (σ.liveHolders outside s) s,
        v.captures s owned = 0 → v.mentions s = false := by
  rw [handleCount, foldr_count_eq_sum] at hc
  dsimp only at hc
  generalize σ.liveHolders outside s = live at hc ⊢
  rw [places_eq] at hc ⊢
  obtain ⟨found, hsv⟩ := Places.exists_survey (taken_obeys live hout hσ)
  have htaken := taken_obeys live hout hσ
  generalize ((σ.taken outside live s).foldl Places.add ⟨[], []⟩).values = places at hc hsv ⊢
  generalize howned : (fun id => decide (places.countP (·.objectId? = some id) = 1)) = owned at hc
  have ho : ∀ id, owned id = true → places.countP (·.objectId? = some id) = 1 := by
    rintro id hid
    rw [← howned] at hid
    simpa using hid
  have hown : slotCaptures s owned (σ.bindings s).slots.toList =
      sumOf (Value.captures s owned) (σ.bindings s).values := slotCaptures_eq_sumOf ..
  rw [hsv.countP_scope_eq htaken s ho, sumOf_captures_taken, hown] at hc
  have hlist : (live.map fun t => sumOf (Value.captures s owned) (σ.bindings t).values).sum =
      (if live.contains s then sumOf (Value.captures s owned) (σ.bindings s).values else 0) +
        ((live.erase s).map fun t => sumOf (Value.captures s owned) (σ.bindings t).values).sum := by
    split
    · next hs => exact (List.sum_map_erase _ (List.contains_iff_mem.1 hs)).symm
    · next hs =>
      rw [List.erase_of_not_mem fun hm => hs (List.contains_iff_mem.2 hm), Nat.zero_add]
  have hdirect : (outside.map (·.count s)).sum = 0 := by omega
  have hchildren : live.countP (σ.parent? · = some s) = 0 := by omega
  have houter : sumOf (Value.captures s owned) (outside.flatMap (·.objectsFor s)) = 0 := by omega
  have hothers : ((live.erase s).map fun t =>
      sumOf (Value.captures s owned) (σ.bindings t).values).sum = 0 := by omega
  have hshared : ((found.filter fun id => !owned id).map fun id =>
      sumOf (Value.captures s owned) (T id).values).sum = 0 := by omega
  refine ⟨owned, ho, fun h hh => ?_, sumOf_eq_zero_iff.1 houter,
    fun t ht => ⟨fun hp => ?_, fun hne => ?_⟩,
    fun v hv hz => hsv.mentions_eq_false htaken (fun id hid hf => ?_) hv hz⟩
  · exact List.sum_eq_zero_iff_forall_eq_nat.1 hdirect _ (List.mem_map.2 ⟨h, hh, rfl⟩)
  · exact List.countP_eq_zero.1 hchildren t ht (by simpa using hp)
  · exact sumOf_eq_zero_iff.1 (List.sum_eq_zero_iff_forall_eq_nat.1 hothers _
      (List.mem_map.2 ⟨t, (List.mem_erase_of_ne hne).2 ht, rfl⟩))
  · exact List.sum_eq_zero_iff_forall_eq_nat.1 hshared _
      (List.mem_map.2 ⟨id, List.mem_filter.2 ⟨hid, by simp [hf]⟩, rfl⟩)

/-- All that an equal count says: no handle to the scope but in its own bindings. -/
theorem no_handle_of_count {outside : List Held}
    (hout : ∀ h ∈ outside, ∀ v ∈ h.objectsFor s, v.Obeys T n)
    (hσ : ∀ t, ∀ v ∈ (σ.bindings t).values, v.Obeys T n)
    (hc : (σ.handleCount outside s).all = (σ.handleCount outside s).own) :
    (∀ h ∈ outside, ¬h.IsRoot s) ∧ ∀ t ∈ σ.liveHolders outside s, t = s := by
  obtain ⟨owned, -, hdirect, houter, hlive, hclean⟩ := exists_owned_of_count hout hσ hc
  have hplaces := taken_subset_places (σ.liveHolders outside s) hout hσ
  refine ⟨fun h hh hr => ?_, fun t ht => ?_⟩
  · obtain hcount | ⟨v, hv, hm⟩ := hr
    · exact hcount (hdirect h hh)
    · have hmem : v ∈ outside.flatMap (·.objectsFor s) := List.mem_flatMap.2 ⟨h, hh, hv⟩
      have hfalse := hclean v (hplaces (List.mem_append_left _ hmem)) (houter v hmem)
      simp [hm] at hfalse
  · by_contra hne
    obtain ⟨hparent, hothers⟩ := hlive t ht
    obtain hp | ⟨v, hv, hm⟩ := cases_of_holds (holds_of_mem_liveHolders ht)
    · exact hparent hp
    · have hmem : v ∈ σ.taken outside (σ.liveHolders outside s) s := List.mem_append_right _
        (List.mem_flatMap.2 ⟨t, ht, List.mem_filter.2 ⟨hv, hm⟩⟩)
      have hfalse := hclean v (hplaces hmem) (hothers hne v hv)
      simp [hm] at hfalse

/-- **A scope whose handles are all its own cannot be reached from outside the store.** -/
theorem not_reaches_of_count {outside : List Held}
    (hout : ∀ h ∈ outside, ∀ v ∈ h.objectsFor s, v.Obeys T n)
    (hσ : ∀ t, ∀ v ∈ (σ.bindings t).values, v.Obeys T n)
    (hc : (σ.handleCount outside s).all = (σ.handleCount outside s).own) :
    ¬σ.Reaches (fun t => ∃ h ∈ outside, h.IsRoot t) s := by
  obtain ⟨hroot, hlive⟩ := no_handle_of_count hout hσ hc
  -- whatever is reached is neither the scope nor dropped
  have hreach : ∀ t, σ.Reaches (fun t => ∃ h ∈ outside, h.IsRoot t) t →
      t ≠ s ∧ ¬σ.Dropped outside t := by
    intro t ht
    induction ht with
    | @root t hr =>
      obtain ⟨h, hh, hr⟩ := hr
      refine ⟨?_, fun hd => ?_⟩
      · rintro rfl
        exact hroot h hh hr
      · have hunheld := hd.unheld h hh
        simp [hr.mentions] at hunheld
    | @step t u _ hh ih =>
      refine ⟨?_, fun hd => ih.2 (hd.holders hh)⟩
      rintro rfl
      exact ih.1 (hlive t (mem_liveHolders_iff.2 ⟨hh, ih.2⟩))
  exact fun hs => (hreach s hs).1 rfl

end Store

end Treewalk
