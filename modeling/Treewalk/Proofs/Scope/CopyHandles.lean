import Treewalk.Proofs.Value.Anonymous
import Treewalk.Proofs.Value.Ownership

/-!
# The handles that a copy adds

A copy that is held outside the store adds to the handles of a scope one for each function of the
scope in the value that was copied. For the objects in the copy are new: the search for places comes
to them apart from all others, and to each of them once.

* `Places.foldl_add_beside`: a search is not changed by the objects of another.
* `Store.liveHolders_hold`: a value that mentions no dropped scope keeps no other scopes alive.

Main statement: `Store.handleCount_copy`.
-/

namespace Treewalk

/-! ## Searches beside each other -/

namespace Places

variable {p q : Places} {v : Value} {vs : List Value} {s : ScopeId}

/-- Places found after others. -/
def beside (p q : Places) : Places := ⟨p.values ++ q.values, p.searched ++ q.searched⟩

theorem foldl_beside (h : ∀ v ∈ vs, ∀ p : Places, (p.beside q).add v = (p.add v).beside q)
    (p : Places) : vs.foldl add (p.beside q) = (vs.foldl add p).beside q := by
  induction vs generalizing p with
  | nil => rfl
  | cons v rest ih =>
    rw [List.foldl_cons, List.foldl_cons, h v List.mem_cons_self,
      ih fun w hw => h w (List.mem_cons_of_mem v hw)]

theorem add_beside (h : ∀ id ∈ v.objectIds, id ∉ q.searched) (p : Places) :
    (p.beside q).add v = (p.add v).beside q := by
  induction v using Value.induction generalizing p with
  | leaf v hv => rw [add_leaf _ hv, add_leaf _ hv]; rfl
  | object id t ih =>
    rw [Value.objectIds_object, List.forall_mem_cons] at h
    obtain ⟨hid, hids⟩ := h
    have hcontains : (p.beside q).searched.contains id = p.searched.contains id := by
      rw [Bool.eq_iff_iff, List.contains_iff_mem, List.contains_iff_mem, beside, List.mem_append,
        or_iff_left hid]
    rw [add_object, add_object, hcontains]
    split
    · rfl
    · refine foldl_beside (fun v hv => ih v hv fun i hi => hids i ?_)
        ⟨.object id t :: p.values, id :: p.searched⟩
      exact List.mem_flatMap.2 ⟨v, hv, hi⟩

/-- A search is not changed by the objects of another. -/
theorem foldl_add_beside (h : ∀ v ∈ vs, ∀ id ∈ v.objectIds, id ∉ q.searched) (p : Places) :
    vs.foldl add (p.beside q) = (vs.foldl add p).beside q :=
  foldl_beside (fun v hv => add_beside (h v hv)) p

theorem mem_objectIds_of_searched {id : ObjectId} (h : id ∈ (add ⟨[], []⟩ v).searched) :
    id ∈ v.objectIds := by
  have hfinds := finds_add ⟨[], []⟩ v
  have hplaced := hfinds.placed (fun _ hid => (List.not_mem_nil hid).elim) id h
  have hbound := hfinds.bound (·.objectId? = some id)
  rw [← List.count_pos_iff, Value.count_objectIds]
  simp only [List.flatMap_cons, List.flatMap_nil, List.append_nil, List.countP_nil] at hbound
  omega

/-- The places of a value that shares no object, neither in itself nor with others, are all of its
parts. -/
theorem countP_foldl_cons {w : Value} (hw : Unshared s [w])
    (h : ∀ v ∈ vs, ∀ id ∈ v.objectIds, id ∉ w.objectIds) :
    ((w :: vs).foldl add ⟨[], []⟩).values.countP (·.scope? = some s) =
      (vs.foldl add ⟨[], []⟩).values.countP (·.scope? = some s) +
        w.parts.countP (·.scope? = some s) := by
  have hfirst : (add ⟨[], []⟩ w).values.countP (·.scope? = some s) =
      w.parts.countP (·.scope? = some s) := by
    simpa using countP_of_once (fun x hx => Value.mentions_of_scope? (of_decide_eq_true hx))
      (once_of_unshared hw)
  have hapart : ∀ v ∈ vs, ∀ id ∈ v.objectIds, id ∉ (add ⟨[], []⟩ w).searched :=
    fun v hv id hid hs => h v hv id hid (mem_objectIds_of_searched hs)
  have hbeside := foldl_add_beside hapart ⟨[], []⟩
  have hstart : beside ⟨[], []⟩ (add ⟨[], []⟩ w) = add ⟨[], []⟩ w := rfl
  rw [hstart] at hbeside
  rw [List.foldl_cons, hbeside, beside, List.countP_append, hfirst]

end Places

/-! ## One more value held -/

namespace Store

variable {σ : Store} {outside : List Held} {s t : ScopeId} {v : Value}
variable {T : ObjectId → Table Binding}

/-- A value that mentions no dropped scope leads to nothing that would be dropped without it. -/
theorem dropped_hold_iff (hv : ∀ t, v.mentions t = true → ¬σ.Dropped outside t) :
    σ.Dropped (Held.empty.value v :: outside) t ↔ σ.Dropped outside t := by
  constructor
  · intro h
    refine h.of_unheld fun u hu x hx => ?_
    have hu : σ.Dropped (Held.empty.value v :: outside) u := by
      obtain rfl | hu := hu
      · exact h
      · exact h.of_leadsTo hu
    exact hu.unheld x (List.mem_cons_of_mem _ hx)
  · intro h
    refine h.of_unheld fun u hu x hx => ?_
    have hu : σ.Dropped outside u := by
      obtain rfl | hu := hu
      · exact h
      · exact h.of_leadsTo hu
    obtain rfl | hx := List.mem_cons.1 hx
    · rw [← Bool.not_eq_true, Held.mentions_value]
      rintro (hm | hm)
      · exact hv u hm hu
      · simp [Held.mentions] at hm
    · exact hu.unheld x hx

/-- No other scopes are alive for a value that mentions no dropped scope. -/
theorem liveHolders_hold (hv : ∀ t, v.mentions t = true → ¬σ.Dropped outside t) (s : ScopeId) :
    σ.liveHolders (Held.empty.value v :: outside) s = σ.liveHolders outside s := by
  refine (liveHolders_eq_map id (fun _ _ _ _ h => h) fun u => ?_).trans (List.map_id _)
  simp only [mem_liveHolders_iff, dropped_hold_iff hv, id_eq, exists_eq_right]

theorem taken_hold (σ : Store) (outside : List Held) (live : List ScopeId) (s : ScopeId)
    (v : Value) : σ.taken (Held.empty.value v :: outside) live s =
      (if v.type = .object ∧ v.mentions s = true then [v] else []) ++
        σ.taken outside live s := by
  rw [taken, taken, List.flatMap_cons, Held.objectsFor_value, Held.objectsFor_empty,
    List.append_assoc]

/-- What a value held adds to the handles that are not in objects, and to those at places. -/
theorem countP_taken_hold {live : List ScopeId} (hunshared : Unshared s [v])
    (hapart : ∀ x ∈ σ.taken outside live s, ∀ id ∈ x.objectIds, id ∉ v.objectIds) :
    (Held.empty.value v).count s +
      (σ.places (Held.empty.value v :: outside) live s).countP (·.scope? = some s) =
        (σ.places outside live s).countP (·.scope? = some s) +
          v.parts.countP (·.scope? = some s) := by
  rw [places_eq, places_eq, taken_hold, Held.count_value, Held.count_empty]
  cases v with
  | object id t =>
    dsimp only
    by_cases hm : (Value.object id t).mentions s = true
    · rw [if_pos ⟨rfl, hm⟩, List.singleton_append, Places.countP_foldl_cons hunshared hapart]
      omega
    · have hnone : (Value.object id t).parts.countP (·.scope? = some s) = 0 :=
        Value.countP_parts_eq_zero
          (fun x hx => Value.mentions_of_scope? (of_decide_eq_true hx)) (by simpa using hm)
      rw [if_neg fun h => hm h.2, hnone, List.nil_append]
      omega
  | function f =>
    rw [if_neg fun h => absurd h.1 (by simp [Value.type]), List.nil_append,
      Value.parts_leaf (by simp [Value.type])]
    by_cases hf : f.scope = s <;> simp [Value.scope?, hf, Nat.add_comm]
  | _ => simp [Value.type, Value.parts, Value.scope?]

/-- A value held that shares no object with others adds the functions of a scope in it. -/
theorem handleCount_hold (hv : ∀ t, v.mentions t = true → ¬σ.Dropped outside t)
    (hunshared : Unshared s [v])
    (hapart : ∀ live, ∀ x ∈ σ.taken outside live s, ∀ id ∈ x.objectIds, id ∉ v.objectIds) :
    (σ.handleCount (Held.empty.value v :: outside) s).all =
      (σ.handleCount outside s).all + v.parts.countP (·.scope? = some s) := by
  have hcount := countP_taken_hold hunshared (hapart (σ.liveHolders outside s))
  rw [handleCount, handleCount, liveHolders_hold hv]
  dsimp only
  rw [List.foldr_cons]
  omega

theorem handleCount_nextObject (σ : Store) (n : Nat) (outside : List Held) (s : ScopeId) :
    Store.handleCount { σ with nextObject := n } outside s = σ.handleCount outside s := by
  have hlive : Store.liveHolders { σ with nextObject := n } outside s =
      σ.liveHolders outside s := by
    refine liveHolders_congr (fun t u => ?_) (fun t => ?_) s <;> rfl
  rw [handleCount, handleCount, hlive]
  rfl

/-- **A copy adds one handle to a scope for each function of the scope in what is copied**, if
what is copied is itself held. -/
theorem handleCount_copy (hσ : σ.Obeys T) (hout : ∀ h ∈ outside, h.Obeys T σ.nextObject)
    (hv : ∀ t, v.mentions t = true → ¬σ.Dropped outside t) (s : ScopeId) :
    ((σ.copy v).2.handleCount (Held.empty.value (σ.copy v).1 :: outside) s).all =
      (σ.handleCount outside s).all + v.functions.countP (·.scope = s) := by
  have hmentions : ∀ t, (v.copy σ.nextObject).1.mentions t = v.mentions t := fun t => by
    rw [Value.mentions, Value.mentions, Value.scopes_copy]
  have hfresh := v.objectIds_copy σ.nextObject
  have hapart : ∀ live, ∀ x ∈ σ.taken outside live s, ∀ id ∈ x.objectIds,
      id ∉ (v.copy σ.nextObject).1.objectIds := by
    intro live x hx id hid hcopy
    have hlt := (taken_obeys live (fun h hh => hout h hh s) hσ x hx).index_lt hid
    exact absurd hlt (Nat.not_lt.2 (hfresh.le id hcopy))
  rw [← Value.functions_copy v σ.nextObject, Value.countP_functions]
  refine (congrArg HandleCount.all (handleCount_nextObject σ (v.copy σ.nextObject).2
    (Held.empty.value (v.copy σ.nextObject).1 :: outside) s)).trans ?_
  exact handleCount_hold (fun t hm => hv t ((hmentions t).symm.trans hm)) (v.unshared_copy _ s)
    hapart

end Store

end Treewalk
