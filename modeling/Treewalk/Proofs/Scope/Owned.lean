import Mathlib.Data.List.Flatten
import Treewalk.Proofs.Scope.Dropped
import Treewalk.Proofs.Scope.Leaving

/-!
# Handles of a scope on itself

If nothing holds a scope but values in its own bindings, and each object among them that does is at
one place, then all handles to the scope are counted as its own: `Store.count_of_heldByItself`.

The search for places meets an object with handles to the scope once then, so it meets every handle
as often as the handle is a part of the bindings: `Places.countP_add_of_once`. Nothing is assumed
of identities here; objects without handles to the scope may be shared in any way.
-/

namespace Treewalk

mutual

/-- A value and all that is nested in it, as often as it is. -/
def Value.parts : Value → List Value
  | .object id ⟨⟨slots⟩, count⟩ => .object id ⟨⟨slots⟩, count⟩ :: slotParts slots
  | v => [v]

/-- The parts of the values in live slots. -/
def slotParts : List (Slot Binding) → List Value
  | [] => []
  | .occupied _ ⟨_, _, v⟩ :: rest => v.parts ++ slotParts rest
  | _ :: rest => slotParts rest

end

/-- Whether each object with a handle to a scope in it is at one place, among all parts of some
values. -/
def Unshared (s : ScopeId) (vs : List Value) : Prop :=
  ∀ id t, .object id t ∈ vs.flatMap Value.parts → (Value.object id t).mentions s = true →
    (vs.flatMap Value.parts).countP (·.objectId? = some id) ≤ 1

theorem Unshared.of_sublist {s : ScopeId} {vs ws : List Value} (h : Unshared s vs)
    (hw : (ws.flatMap Value.parts).Sublist (vs.flatMap Value.parts)) : Unshared s ws :=
  fun id t ht hm => hw.countP_le.trans (h id t (hw.subset ht) hm)

theorem Unshared.filter {s : ScopeId} {vs : List Value} (h : Unshared s vs)
    (keep : Value → Bool) : Unshared s (vs.filter keep) :=
  h.of_sublist (List.filter_sublist.flatMap _)

/-! ## Parts -/

namespace Value

variable {v w : Value} {s : ScopeId}

theorem parts_leaf (h : v.type ≠ .object) : v.parts = [v] := by
  cases v <;> first | rfl | exact (h rfl).elim

theorem parts_object (id : ObjectId) (t : Table Binding) :
    (Value.object id t).parts = .object id t :: t.values.flatMap parts := by
  have hslots : ∀ slots : List (Slot Binding),
      slotParts slots = (slots.filterMap Slot.value?).flatMap parts := by
    intro slots
    induction slots with
    | nil => rfl
    | cons slot rest ih =>
      cases slot with
      | occupied key b => simp [slotParts, Slot.value?, Slot.pair?, ih]
      | empty => exact ih
      | tombstone => exact ih
  exact congrArg _ (hslots t.slots.toList)

theorem flatMap_parts_object (id : ObjectId) (t : Table Binding) :
    [Value.object id t].flatMap parts = .object id t :: t.values.flatMap parts := by
  simp [parts_object]

theorem self_mem_parts (v : Value) : v ∈ v.parts := by
  induction v using Value.induction with
  | leaf v hv => simp [parts_leaf hv]
  | object id t => simp [parts_object]

theorem mentions_of_mem_parts (h : w ∈ v.parts) (hm : w.mentions s = true) :
    v.mentions s = true := by
  induction v using Value.induction with
  | leaf v hv =>
    rw [parts_leaf hv, List.mem_singleton] at h
    exact h ▸ hm
  | object id t ih =>
    rw [parts_object, List.mem_cons] at h
    obtain rfl | h := h
    · exact hm
    · obtain ⟨x, hx, hw⟩ := List.mem_flatMap.1 h
      exact mentions_object.2 ⟨x, hx, ih x hx hw⟩

/-- Only values with handles to a scope have parts with handles to it. -/
theorem countP_parts_eq_zero {q : Value → Bool} (hq : ∀ w, q w = true → w.mentions s = true)
    (h : v.mentions s = false) : v.parts.countP q = 0 := by
  refine List.countP_eq_zero.2 fun w hw hqw => ?_
  simp [mentions_of_mem_parts hw (hq w hqw)] at h

theorem mentions_of_scope? (h : v.scope? = some s) : v.mentions s = true := by
  cases v with
  | function f => exact mentions_function.2 (Option.some.inj h)
  | _ => cases h

/-- If no object with a handle to a scope is passed over, what is captured are all functions of the
scope. -/
theorem captures_eq_countP {owned : ObjectId → Bool}
    (h : ∀ id t, .object id t ∈ v.parts → (object id t).mentions s = true → owned id = true) :
    v.captures s owned = v.parts.countP (·.scope? = some s) := by
  induction v using Value.induction with
  | leaf v hv =>
    rw [parts_leaf hv]
    cases v with
    | function f => by_cases hf : f.scope = s <;> simp [captures, scope?, hf]
    | object id t => exact (hv rfl).elim
    | _ => rfl
  | object id t ih =>
    by_cases hm : (object id t).mentions s = true
    · have ho := h id t (self_mem_parts _) hm
      rw [captures_object, if_pos ho, parts_object, List.countP_cons_of_neg (by simp [scope?]),
        List.countP_flatMap]
      refine congrArg List.sum (List.map_congr_left fun w hw => ih w hw fun id' t' hw' => ?_)
      exact h id' t' (by
        rw [parts_object]
        exact List.mem_cons_of_mem _ (List.mem_flatMap.2 ⟨w, hw, hw'⟩))
    · have hm : (object id t).mentions s = false := by simpa using hm
      rw [captures_eq_zero owned hm, countP_parts_eq_zero (fun w hw => ?_) hm]
      cases w <;> simp_all [scope?, mentions_function]

end Value

/-! ## The places found -/

namespace Places

/-- What taking values does to the places: there are more of them, but no more than there are
parts, and what was searched is at a place. -/
structure Finds (p : Places) (vs : List Value) (p' : Places) : Prop where
  le : ∀ q : Value → Bool, p.values.countP q ≤ p'.values.countP q
  bound : ∀ q : Value → Bool,
    p'.values.countP q ≤ p.values.countP q + (vs.flatMap Value.parts).countP q
  placed : (∀ id ∈ p.searched, 0 < p.values.countP (·.objectId? = some id)) →
    ∀ id ∈ p'.searched, 0 < p'.values.countP (·.objectId? = some id)

variable {p p' : Places} {v : Value} {vs : List Value} {s : ScopeId} {q : Value → Bool}

theorem finds_foldl (h : ∀ v ∈ vs, ∀ p, Finds p [v] (p.add v)) (p : Places) :
    Finds p vs (vs.foldl add p) := by
  induction vs generalizing p with
  | nil => exact ⟨fun _ => Nat.le_refl _, fun _ => by simp, fun hp => hp⟩
  | cons v rest ih =>
    obtain ⟨hle, hbound, hplaced⟩ := h v List.mem_cons_self p
    obtain ⟨hle', hbound', hplaced'⟩ :=
      ih (fun w hw => h w (List.mem_cons_of_mem v hw)) (p.add v)
    refine ⟨fun q => (hle q).trans (hle' q), fun q => ?_, fun hp => hplaced' (hplaced hp)⟩
    have := hbound q
    have := hbound' q
    simp only [List.flatMap_cons, List.flatMap_nil, List.append_nil, List.foldl_cons,
      List.countP_append] at *
    omega

theorem finds_add (p : Places) (v : Value) : Finds p [v] (p.add v) := by
  have hone : ∀ {v : Value} {p : Places}, Finds p [v] ⟨v :: p.values, p.searched⟩ := by
    intro v p
    have hle : ∀ q : Value → Bool, p.values.countP q ≤ (v :: p.values).countP q := fun q => by
      simp [List.countP_cons]
    refine ⟨hle, fun q => ?_, fun hp id hid => (hp id hid).trans_le (hle _)⟩
    have : [v].countP q ≤ v.parts.countP q :=
      List.Sublist.countP_le (List.singleton_sublist.2 v.self_mem_parts)
    simp only [List.countP_cons, List.countP_nil] at this
    simp only [List.countP_cons, List.flatMap_cons, List.flatMap_nil, List.append_nil]
    omega
  induction v using Value.induction generalizing p with
  | leaf v hv =>
    rw [add_leaf p hv]
    exact hone
  | object id t ih =>
    rw [add_object]
    split
    · exact hone
    · obtain ⟨hle, hbound, hplaced⟩ := finds_foldl (fun v hv p => ih v hv p)
        ⟨.object id t :: p.values, id :: p.searched⟩
      refine ⟨fun q => Nat.le_trans (by simp [List.countP_cons]) (hle q), fun q => ?_,
        fun hp => hplaced fun id' hid' => ?_⟩
      · have := hbound q
        rw [List.countP_cons] at this
        rw [Value.flatMap_parts_object, List.countP_cons]
        omega
      · rw [List.countP_cons]
        obtain rfl | hid' := List.mem_cons.1 hid'
        · simp [Value.objectId?]
        · have := hp id' hid'
          omega

theorem finds (p : Places) (vs : List Value) : Finds p vs (vs.foldl add p) :=
  finds_foldl (fun v _ p => finds_add p v) p

/-- Whether what was searched is at a place, and the objects with a handle to a scope among some
values come to at most one place each when the values are taken. -/
structure Once (s : ScopeId) (p : Places) (vs : List Value) : Prop where
  placed : ∀ id ∈ p.searched, 0 < p.values.countP (·.objectId? = some id)
  once : ∀ id t, .object id t ∈ vs.flatMap Value.parts → (Value.object id t).mentions s = true →
    (vs.foldl add p).values.countP (·.objectId? = some id) ≤ 1

theorem Once.head (h : Once s p (v :: vs)) : Once s p [v] where
  placed := h.placed
  once id t ht hm := by
    refine ((finds (p.add v) vs).le _).trans (h.once id t ?_ hm)
    simp only [List.flatMap_cons, List.flatMap_nil, List.append_nil] at ht ⊢
    exact List.mem_append_left _ ht

theorem Once.tail (h : Once s p (v :: vs)) : Once s (p.add v) vs where
  placed := (finds_add p v).placed h.placed
  once id t ht hm := h.once id t (List.flatMap_cons ▸ List.mem_append_right _ ht) hm

/-- A search from nothing comes to the objects that are at one place at most once. -/
theorem once_of_unshared (h : Unshared s vs) : Once s ⟨[], []⟩ vs where
  placed _ hid := (List.not_mem_nil hid).elim
  once id t ht hm := by
    have hbound := (finds ⟨[], []⟩ vs).bound (·.objectId? = some id)
    simpa using hbound.trans (by simpa using h id t ht hm)

/-- Every handle is met as often as it is a part. -/
theorem countP_foldl_of_once (hone : ∀ v ∈ vs, ∀ p, Once s p [v] →
      (p.add v).values.countP q = p.values.countP q + v.parts.countP q) {p : Places}
    (h : Once s p vs) :
    (vs.foldl add p).values.countP q = p.values.countP q + (vs.flatMap Value.parts).countP q := by
  induction vs generalizing p with
  | nil => simp
  | cons v rest ih =>
    rw [List.foldl_cons, ih (fun w hw => hone w (List.mem_cons_of_mem v hw)) h.tail,
      hone v List.mem_cons_self p h.head, List.flatMap_cons, List.countP_append, Nat.add_assoc]

theorem countP_add_of_once (hq : ∀ w, q w = true → w.mentions s = true) (h : Once s p [v]) :
    (p.add v).values.countP q = p.values.countP q + v.parts.countP q := by
  induction v using Value.induction generalizing p with
  | leaf v hv => rw [add_leaf p hv, Value.parts_leaf hv, List.countP_cons, List.countP_singleton]
  | object id t ih =>
    obtain ⟨hplaced, honce⟩ := h
    rw [Value.flatMap_parts_object, List.foldl_cons, List.foldl_nil] at honce
    by_cases hm : (Value.object id t).mentions s = true
    · -- if it had been searched before, it would be at a second place now
      have hle := honce id t List.mem_cons_self hm
      have hid : p.searched.contains id = false := by
        by_contra hc
        have := hplaced id (List.contains_iff_mem.1 (by simpa using hc))
        rw [add_object, if_pos (by simpa using hc),
          List.countP_cons_of_pos (by simp [Value.objectId?])] at hle
        omega
      rw [add_object, if_neg (by simpa using hid)] at honce ⊢
      have hnext : Once s ⟨.object id t :: p.values, id :: p.searched⟩ t.values := by
        refine ⟨fun id' hid' => ?_, fun id' t' ht' => honce id' t' (List.mem_cons_of_mem _ ht')⟩
        rw [List.countP_cons]
        obtain rfl | hid' := List.mem_cons.1 hid'
        · simp [Value.objectId?]
        · have := hplaced id' hid'
          omega
      rw [countP_foldl_of_once (fun w hw p hp => ih w hw hp) hnext, Value.parts_object,
        List.countP_cons, List.countP_cons]
      omega
    · -- nothing that counts is found in it
      obtain ⟨hle, hbound, -⟩ := finds_add p (.object id t)
      have hzero := Value.countP_parts_eq_zero hq (by simpa using hm)
      have := hle q
      have := hbound q
      simp only [List.flatMap_cons, List.flatMap_nil, List.append_nil] at this
      omega

/-- A search from nothing. -/
theorem countP_of_once (hq : ∀ w, q w = true → w.mentions s = true)
    (h : Once s ⟨[], []⟩ vs) :
    (vs.foldl add ⟨[], []⟩).values.countP q = (vs.flatMap Value.parts).countP q := by
  simpa using countP_foldl_of_once (fun v _ p => countP_add_of_once hq) h

theorem countP_objectId_of_unshared (h : Unshared s vs) {id : ObjectId} {t : Table Binding}
    (ht : .object id t ∈ vs.flatMap Value.parts) (hm : (Value.object id t).mentions s = true) :
    (vs.foldl add ⟨[], []⟩).values.countP (·.objectId? = some id) = 1 := by
  have honce := once_of_unshared h
  refine Nat.le_antisymm (honce.once id t ht hm) ?_
  -- the object itself is found, as it has a handle to the scope
  have hcount := countP_of_once (s := s)
    (q := fun w => w.objectId? = some id && w.mentions s) (by simp) honce
  have hpos : 0 < (vs.flatMap Value.parts).countP
      (fun w => w.objectId? = some id && w.mentions s) :=
    List.countP_pos_iff.2 ⟨_, ht, by simp [Value.objectId?, hm]⟩
  rw [← hcount] at hpos
  exact Nat.lt_of_lt_of_le hpos (List.countP_mono_left (by simp +contextual))

/-- The functions of a scope at the places found are those that are captured. -/
theorem countP_scope_of_unshared (h : Unshared s vs) {owned : ObjectId → Bool}
    (ho : owned = fun id =>
      decide ((vs.foldl add ⟨[], []⟩).values.countP (·.objectId? = some id) = 1)) :
    (vs.foldl add ⟨[], []⟩).values.countP (·.scope? = some s) =
      sumOf (Value.captures s owned) vs := by
  rw [countP_of_once (fun w hw => Value.mentions_of_scope? (of_decide_eq_true hw))
    (once_of_unshared h), List.countP_flatMap]
  refine congrArg List.sum (List.map_congr_left fun v hv => ?_)
  refine (Value.captures_eq_countP fun id t ht hm => ?_).symm
  rw [ho]
  exact decide_eq_true (countP_objectId_of_unshared h (List.mem_flatMap.2 ⟨v, hv, ht⟩) hm)

end Places

/-! ## The count -/

namespace Store

variable {σ : Store} {outside : List Held} {s t : ScopeId}

/-- Whether nothing but values in its own bindings holds a scope: nothing outside the store, no
other scope that is not dropped, and not itself as its parent. -/
structure HeldByItself (σ : Store) (outside : List Held) (s : ScopeId) : Prop where
  unheld : ∀ h ∈ outside, h.mentions s = false
  others : ∀ t, t ≠ s → σ.holds t s = true → σ.Dropped outside t
  parent : σ.parent? s ≠ some s

/-- No other scope holds it at all. -/
theorem heldByItself_of_holds (hu : ∀ h ∈ outside, h.mentions s = false)
    (hh : ∀ i < σ.scopes.size, i ≠ s.index → σ.holds ⟨i⟩ s = false)
    (hp : σ.parent? s ≠ some s) : σ.HeldByItself outside s := by
  refine ⟨hu, fun t hne ht => ?_, hp⟩
  have hf := hh t.index (lt_size_of_holds ht) fun he => hne (ScopeId.index_inj.1 he)
  exact (Bool.false_ne_true (hf.symm.trans ht)).elim

theorem HeldByItself.liveHolders (h : σ.HeldByItself outside s) :
    σ.liveHolders outside s = [] ∨ σ.liveHolders outside s = [s] := by
  have hs : ∀ t ∈ σ.liveHolders outside s, t = s := by
    intro t ht
    obtain ⟨hts, hd⟩ := mem_liveHolders_iff.1 ht
    by_contra hne
    exact hd (h.others t hne hts)
  have hn := σ.nodup_liveHolders outside s
  generalize σ.liveHolders outside s = live at hs hn ⊢
  match live with
  | [] => exact .inl rfl
  | [t] => exact .inr (by rw [hs t (by simp)])
  | t :: u :: rest =>
    rw [hs t (by simp), hs u (by simp)] at hn
    simp at hn

/-- A search for a scope that only itself holds takes nothing outside the store. -/
theorem HeldByItself.taken_eq (h : σ.HeldByItself outside s) (live : List ScopeId) :
    σ.taken outside live s =
      live.flatMap fun t => (σ.bindings t).values.filter (·.mentions s) := by
  have houter : outside.flatMap (·.objectsFor s) = [] :=
    List.flatMap_eq_nil_iff.2 fun h' hh => by
      simpa using (Bool.or_eq_false_iff.1 (h.unheld h' hh)).2
  rw [taken, houter, List.nil_append]

/-- **The count of a scope that only itself holds comes out as its own handles alone.** -/
theorem HeldByItself.count_eq (h : σ.HeldByItself outside s)
    (hu : Unshared s (σ.bindings s).values) :
    (σ.handleCount outside s).all = (σ.handleCount outside s).own := by
  have hdirect : (outside.map (·.count s)).sum = 0 :=
    List.sum_eq_zero_iff_forall_eq_nat.2 (by
      simpa using fun h' hh => by simpa using (Bool.or_eq_false_iff.1 (h.unheld h' hh)).1)
  rw [handleCount, foldr_count_eq_sum, hdirect, places_eq, h.taken_eq]
  dsimp only
  obtain hlive | hlive := h.liveHolders
  · rw [hlive]
    simp
  · -- its own bindings are searched, of which only those with handles to it matter
    have hcount := Places.countP_scope_of_unshared (hu.filter (·.mentions s)) rfl
    rw [sumOf_filter fun v hv => Value.captures_eq_zero _ hv] at hcount
    rw [hlive]
    simp only [List.flatMap_cons, List.flatMap_nil, List.append_nil, hcount, slotCaptures_eq_sumOf]
    simp [h.parent, Table.values]

end Store

end Treewalk
