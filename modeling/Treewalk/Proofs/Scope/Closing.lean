import Treewalk.Proofs.Scope.Owned

/-!
# Closing a scope

To close a scope is to give up a handle to it that stays for now. The bindings are dropped if all
other handles to the scope are the scope's own. Then nothing else leads to the scope, and with the
last handle gone it is dropped; if the bindings are kept, nothing has changed.

The count that decides it passes over objects at more than one place, so that no handle counts that
something else could lead to. The price is a scope with such an object all of whose places are in
the scope's own bindings: it is kept, and as it holds itself it is never dropped.

* `Store.unshared_of_count`: if the count comes out as the scope's own handles, then no object with
  a handle to the scope is at two places.
* `Store.HeldByItself.own_ne_zero`: a scope that holds itself has handles of its own to count.

Main statements: `Store.close_spares_reachable` and `Store.close_frees_heldByItself`.
-/

namespace Treewalk

/-- A value with a handle to a scope has a function of the scope among its parts. -/
theorem Value.exists_function_of_mentions {v : Value} {s : ScopeId} (h : v.mentions s = true) :
    ∃ w ∈ v.parts, w.scope? = some s := by
  induction v using Value.induction with
  | leaf v hv =>
    cases v with
    | function f => exact ⟨_, self_mem_parts _, congrArg some (mentions_function.1 h)⟩
    | object id t => exact (hv rfl).elim
    | _ => simp [mentions, scopes] at h
  | object id t ih =>
    obtain ⟨v, hv, hm⟩ := mentions_object.1 h
    obtain ⟨w, hw, hf⟩ := ih v hv hm
    rw [parts_object]
    exact ⟨w, List.mem_cons_of_mem _ (List.mem_flatMap.2 ⟨v, hv, hw⟩), hf⟩

/-- The parts of a value are those nested in it. -/
theorem Value.nested_of_mem_parts {v w : Value} (h : w ∈ v.parts) : w.Nested v := by
  induction v using Value.induction with
  | leaf v hv =>
    rw [parts_leaf hv, List.mem_singleton] at h
    exact h ▸ .self
  | object id t ih =>
    rw [parts_object, List.mem_cons] at h
    obtain rfl | h := h
    · exact .self
    · obtain ⟨v, hv, hw⟩ := List.mem_flatMap.1 h
      exact .bound hv (ih v hv hw)

/-- Whatever is nested in a place of a search is at a place. -/
theorem Places.Survey.mem_of_mem_parts {T : ObjectId → Table Binding} {n : Nat}
    {vs places : List Value} {found : List ObjectId} (h : Survey T vs found places)
    (hvs : ∀ v ∈ vs, v.Obeys T n) {v w : Value} (hv : v ∈ places) (hw : w ∈ v.parts) :
    w ∈ places := by
  induction v using Value.induction with
  | leaf v hleaf =>
    rw [Value.parts_leaf hleaf, List.mem_singleton] at hw
    exact hw ▸ hv
  | object id t ih =>
    obtain ⟨⟨rfl, -⟩, -⟩ := Value.obeys_object.1 (h.obeys hvs hv)
    rw [Value.parts_object, List.mem_cons] at hw
    obtain rfl | hw := hw
    · exact hv
    · obtain ⟨x, hx, hw⟩ := List.mem_flatMap.1 hw
      exact ih x hx ((h.closed id (h.listed id _ hv)).2 hx) hw

theorem Held.mentions_scope_eq_false {s t : ScopeId} (h : s ≠ t) :
    (Held.empty.scope s).mentions t = false := by
  simp [Held.mentions, Held.count_scope, h]

namespace Store

variable {σ σ' : Store} {outside : List Held} {s t : ScopeId}

/-! ## Fewer handles -/

theorem Dropped.mono (h : σ.Dropped outside s)
    (hle : ∀ t u, σ'.holds t u = true → σ.holds t u = true) : σ'.Dropped outside s := by
  induction h with
  | intro unheld _ ih => exact .intro unheld fun t ht => ih t (hle _ _ ht)

theorem Reaches.mono {roots : ScopeId → Prop} (h : σ'.Reaches roots s)
    (hle : ∀ t u, σ'.holds t u = true → σ.holds t u = true) : σ.Reaches roots s := by
  induction h with
  | root h => exact .root h
  | step _ h ih => exact ih.step (hle _ _ h)

theorem holds_of_holds_clear {u : ScopeId} (h : (σ.clear s).holds t u = true) :
    σ.holds t u = true := by
  obtain ⟨scope, hs, hd, hh⟩ := holds_iff.1 h
  rw [getElem?_scopes_clear] at hs
  split at hs
  · obtain ⟨old, hold, rfl⟩ := Option.map_eq_some_iff.1 hs
    exact holds_iff.2 ⟨old, hold, hd, .inl (by simpa using hh)⟩
  · exact holds_iff.2 ⟨scope, hs, hd, hh⟩

/-- Without bindings, a scope holds its parent only. -/
theorem holds_clear_self (hp : σ.parent? s ≠ some s) : (σ.clear s).holds s s = false := by
  by_contra h
  obtain ⟨scope, hs, -, hh⟩ := holds_iff.1 (by simpa using h)
  rw [getElem?_scopes_clear, if_pos rfl] at hs
  obtain ⟨old, hold, rfl⟩ := Option.map_eq_some_iff.1 hs
  refine hp ?_
  rw [parent?, hold]
  simpa using hh

/-! ## What an equal count says of objects -/

variable {T : ObjectId → Table Binding} {n : Nat}

/-- If all handles to a scope are its own, no object with a handle to it is at two places. -/
theorem unshared_of_count (hout : ∀ h ∈ outside, ∀ v ∈ h.objectsFor s, v.Obeys T n)
    (hσ : ∀ t, ∀ v ∈ (σ.bindings t).values, v.Obeys T n)
    (hc : (σ.handleCount outside s).all = (σ.handleCount outside s).own)
    (hs : s ∈ σ.liveHolders outside s) : Unshared s (σ.bindings s).values := by
  obtain ⟨owned, howned, -, -, -, hclean⟩ := exists_owned_of_count hout hσ hc
  generalize σ.liveHolders outside s = live at hs howned hclean
  have htaken := taken_obeys live hout hσ
  obtain ⟨found, hsv⟩ := Places.exists_survey htaken
  rw [places_eq] at howned hclean
  -- an object with a handle to the scope captures something, so it has one owner
  have hone : ∀ id t, .object id t ∈ (σ.taken outside live s).flatMap Value.parts →
      (Value.object id t).mentions s = true →
        ((σ.taken outside live s).foldl Places.add ⟨[], []⟩).values.countP
          (·.objectId? = some id) = 1 := by
    intro id t ht hm
    obtain ⟨v, hv, ht⟩ := List.mem_flatMap.1 ht
    refine howned id (by_contra fun ho => ?_)
    have hfalse := hclean _ (hsv.mem_of_mem_parts htaken (hsv.taken hv) ht)
      (by rw [Value.captures_object, if_neg ho])
    simp [hm] at hfalse
  have honce : Places.Once s ⟨[], []⟩ (σ.taken outside live s) :=
    ⟨fun _ hid => (List.not_mem_nil hid).elim, fun id t ht hm => (hone id t ht hm).le⟩
  -- the bindings taken are those with handles to the scope
  have hsub : (((σ.bindings s).values.filter (·.mentions s)).flatMap Value.parts).Sublist
      ((σ.taken outside live s).flatMap Value.parts) := by
    rw [taken, List.flatMap_append]
    refine List.Sublist.trans ?_ (List.sublist_append_right _ _)
    have hlive := (List.singleton_sublist.2 hs).flatMap fun t =>
      (σ.bindings t).values.filter (·.mentions s)
    rw [List.flatMap_cons, List.flatMap_nil, List.append_nil] at hlive
    exact hlive.flatMap _
  intro id t ht hm
  have hobeys : ∀ {w}, w ∈ (σ.bindings s).values.flatMap Value.parts → w.objectId? = some id →
      w = .object id t := by
    intro w hw hid
    have hT : ∀ {t}, .object id t ∈ (σ.bindings s).values.flatMap Value.parts → t = T id := by
      intro t ht
      obtain ⟨v, hv, ht⟩ := List.mem_flatMap.1 ht
      exact (hσ s v hv id t (Value.nested_of_mem_parts ht)).1
    cases w with
    | object id' t' =>
      obtain rfl : id' = id := by simpa [Value.objectId?] using hid
      rw [hT hw, hT ht]
    | _ => simp [Value.objectId?] at hid
  have hq : ∀ w : Value, (decide (w.objectId? = some id) && w.mentions s) = true →
      w.mentions s = true := by simp
  calc ((σ.bindings s).values.flatMap Value.parts).countP (·.objectId? = some id)
    _ = ((σ.bindings s).values.flatMap Value.parts).countP
          (fun w => w.objectId? = some id && w.mentions s) := by
      refine List.countP_congr fun w hw => ?_
      simp only [decide_eq_true_eq, Bool.and_eq_true]
      exact ⟨fun hid => ⟨hid, hobeys hw hid ▸ hm⟩, And.left⟩
    _ = (((σ.bindings s).values.filter (·.mentions s)).flatMap Value.parts).countP
          (fun w => w.objectId? = some id && w.mentions s) := by
      rw [List.countP_flatMap, List.countP_flatMap]
      exact (sumOf_filter (fun v hv => Value.countP_parts_eq_zero hq hv) _).symm
    _ ≤ ((σ.taken outside live s).flatMap Value.parts).countP
          (fun w => w.objectId? = some id && w.mentions s) := hsub.countP_le
    _ = ((σ.taken outside live s).foldl Places.add ⟨[], []⟩).values.countP
          (fun w => w.objectId? = some id && w.mentions s) :=
      (Places.countP_of_once hq honce).symm
    _ ≤ ((σ.taken outside live s).foldl Places.add ⟨[], []⟩).values.countP
          (·.objectId? = some id) := List.countP_mono_left (by simp +contextual)
    _ ≤ 1 := by
      obtain ⟨v, hv, ht⟩ := List.mem_flatMap.1 ht
      refine (hone id t (hsub.subset (List.mem_flatMap.2 ⟨v, List.mem_filter.2 ⟨hv, ?_⟩, ht⟩))
        hm).le
      exact Value.mentions_of_mem_parts ht hm

theorem mem_liveHolders_of_own_ne_zero (h : (σ.handleCount outside s).own ≠ 0) :
    s ∈ σ.liveHolders outside s := by
  rw [handleCount] at h
  by_contra hs
  exact h (if_neg (by simpa using hs))

/-- A scope that only itself holds has handles of its own to count. -/
theorem HeldByItself.own_ne_zero (h : σ.HeldByItself outside s) (hs : σ.holds s s = true)
    (hu : Unshared s (σ.bindings s).values) : (σ.handleCount outside s).own ≠ 0 := by
  intro hown
  have hall := (h.count_eq hu).trans hown
  obtain ⟨v, hv, hm⟩ := (cases_of_holds hs).resolve_left h.parent
  obtain ⟨w, hw, hf⟩ := Value.exists_function_of_mentions hm
  have hlive : σ.liveHolders outside s = [s] := h.liveHolders.resolve_left fun hnil =>
    List.not_mem_nil (hnil ▸ self_mem_liveHolders outside hs)
  -- the function is met in the search of the scope's own bindings
  have hcount := Places.countP_of_once (q := fun w => decide (w.scope? = some s))
    (fun w hw => Value.mentions_of_scope? (of_decide_eq_true hw))
    (Places.once_of_unshared (hu.filter (·.mentions s)))
  have hpos : 0 < (((σ.bindings s).values.filter (·.mentions s)).flatMap Value.parts).countP
      fun w => decide (w.scope? = some s) :=
    List.countP_pos_iff.2
      ⟨w, List.mem_flatMap.2 ⟨v, List.mem_filter.2 ⟨hv, hm⟩, hw⟩, decide_eq_true hf⟩
  rw [← hcount] at hpos
  rw [handleCount, places_eq, h.taken_eq, hlive, List.flatMap_cons, List.flatMap_nil,
    List.append_nil] at hall
  dsimp only at hall
  omega

/-! ## Closing -/

theorem close_cases (σ : Store) (outside : List Held) (s : ScopeId) :
    σ.close outside s = σ ∨ σ.close outside s = σ.clear s ∧
      (σ.handleCount outside s).own ≠ 0 ∧
        (σ.handleCount outside s).all = (σ.handleCount outside s).own := by
  rw [close]
  split
  · next hc => exact .inr ⟨rfl, hc⟩
  · exact .inl rfl

/-- Whether all handles to a scope, but for one that is given up, are in its own bindings: in
functions bound there, or in objects that nothing else owns. -/
structure Enclosed (σ : Store) (outside : List Held) (s : ScopeId) : Prop where
  held : σ.holds s s = true
  unheld : ∀ h ∈ outside, ¬h.IsRoot s
  others : ∀ t, t ≠ s → σ.holds t s = true → σ.Dropped outside t
  parent : σ.parent? s ≠ some s
  unshared : Unshared s (σ.bindings s).values

/-- What the count that closes a scope says. -/
theorem enclosed_of_count (hout : ∀ h ∈ outside, h.Obeys T n)
    (hσ : ∀ t, ∀ v ∈ (σ.bindings t).values, v.Obeys T n)
    (hown : (σ.handleCount outside s).own ≠ 0)
    (hc : (σ.handleCount outside s).all = (σ.handleCount outside s).own) :
    σ.Enclosed outside s := by
  have hs := mem_liveHolders_of_own_ne_zero hown
  have hout : ∀ h ∈ outside, ∀ v ∈ h.objectsFor s, v.Obeys T n := fun h hh => hout h hh s
  obtain ⟨hroots, hlive⟩ := no_handle_of_count hout hσ hc
  obtain ⟨_, -, -, -, hparents, -⟩ := exists_owned_of_count hout hσ hc
  exact {
    held := (mem_liveHolders_iff.1 hs).1
    unheld := hroots
    others := fun t hne ht => by
      by_contra hd
      exact hne (hlive t (mem_liveHolders_iff.2 ⟨ht, hd⟩))
    parent := (hparents s hs).1
    unshared := unshared_of_count hout hσ hc hs }

/-- A scope that only itself holds is closed, unless an object with a handle to it is at two
places. -/
theorem HeldByItself.close_eq_clear (h : σ.HeldByItself outside s) (hs : σ.holds s s = true)
    (hu : Unshared s (σ.bindings s).values) : σ.close outside s = σ.clear s :=
  if_pos ⟨h.own_ne_zero hs hu, h.count_eq hu⟩

/-- Without its bindings, a scope that only itself held is dropped. -/
theorem HeldByItself.dropped_clear (h : σ.HeldByItself outside s) :
    (σ.clear s).Dropped outside s := by
  refine .intro h.unheld fun t ht => ?_
  refine (h.others t ?_ (holds_of_holds_clear ht)).mono fun _ _ => holds_of_holds_clear
  rintro rfl
  exact Bool.false_ne_true ((holds_clear_self h.parent).symm.trans ht)

/-- What leads to an enclosed scope without bindings, but for itself, is dropped: also while the
handle to the scope that is given up is still there. -/
theorem Enclosed.dropped_of_leadsTo (h : σ.Enclosed outside s)
    (ht : (σ.clear s).LeadsTo t s) : (σ.clear s).Dropped (Held.empty.scope s :: outside) t := by
  -- the last scope on the way
  obtain ⟨u, htu, hu⟩ := Relation.TransGen.tail'_iff.1 ht
  have hne : u ≠ s := by
    rintro rfl
    exact Bool.false_ne_true ((holds_clear_self h.parent).symm.trans hu)
  have hus := holds_of_holds_clear hu
  have hd := h.others u hne hus
  have hd' : (σ.clear s).Dropped (Held.empty.scope s :: outside) u := by
    refine (hd.of_unheld fun w hw => List.forall_mem_cons.2 ⟨?_, ?_⟩).mono
      fun _ _ => holds_of_holds_clear
    · -- the scope does not lead to its dropped holders
      refine Held.mentions_scope_eq_false fun he => ?_
      obtain rfl | hw := hw
      · exact hne he.symm
      · exact hd.irrefl (.head hus (he ▸ hw))
    · obtain rfl | hw := hw
      · exact hd.unheld
      · exact (hd.of_leadsTo hw).unheld
  obtain rfl | htu := Relation.reflTransGen_iff_eq_or_transGen.1 htu
  · exact hd'
  · exact hd'.of_leadsTo htu

/-- **Closing a scope spares what can be reached.** If the bindings of a scope are dropped, then
all other handles to the scope were in its own bindings: nothing held outside the store leads to
the scope, its other holders are dropped, and the objects with handles to it have one owner each.
Afterwards nothing that is alive leads to it. Otherwise nothing changes; and never do the bindings
of other scopes. -/
theorem close_spares_reachable {T : ObjectId → Table Binding} {n : Nat}
    (hout : ∀ h ∈ outside, h.Obeys T n) (hσ : ∀ t, ∀ v ∈ (σ.bindings t).values, v.Obeys T n) :
    let σ' := σ.close outside s
    (σ' = σ ∨ (σ'.bindings s).values = [] ∧ σ.Enclosed outside s ∧
      ¬σ'.Reaches (fun t => ∃ h ∈ outside, h.IsRoot t) s ∧
      ∀ t, σ'.LeadsTo t s → σ'.Dropped (Held.empty.scope s :: outside) t) ∧
    ∀ t, t ≠ s → σ'.bindings t = σ.bindings t := by
  intro σ'
  obtain hc | ⟨hc, hown, hall⟩ := σ.close_cases outside s
  · have hσ' : σ' = σ := hc
    rw [hσ']
    exact ⟨.inl rfl, fun t _ => rfl⟩
  · have hσ' : σ' = σ.clear s := hc
    have hs := enclosed_of_count hout hσ hown hall
    rw [hσ']
    refine ⟨.inr ⟨?_, hs, fun hr => ?_, fun t => hs.dropped_of_leadsTo⟩, fun t hne => ?_⟩
    · rw [bindings_clear, if_pos rfl, Table.values_withCapacity]
    · exact not_reaches_of_count (fun h hh => hout h hh s) hσ hall
        (hr.mono fun _ _ => holds_of_holds_clear)
    · rw [bindings_clear, if_neg hne.symm]

/-- A scope that binds one value, below a root. -/
def ofValue (v : Value) : Store :=
  ((Store.empty.root 1 1).2.child ⟨0⟩).2.place ⟨1⟩ (.inserted, 0) "x" ⟨"x", true, v⟩

theorem obeys_ofValue {v : Value} (hv : v.Obeys T n) :
    ∀ t, ∀ w ∈ ((ofValue v).bindings t).values, w.Obeys T n := by
  intro t w hw
  have hempty : (((Store.empty.root 1 1).2.child ⟨0⟩).2.bindings t).values = [] := by
    rw [child, bindings_add, root, bindings_add]
    split
    · exact Table.values_withCapacity _
    · split <;> exact Table.values_withCapacity _
  rw [ofValue, bindings_place] at hw
  split at hw
  · obtain rfl | hw := Table.mem_values_write hw
    · exact hv
    · simp [hempty] at hw
  · simp [hempty] at hw

/-- A scope that binds an object with a method, below a root that the host holds. -/
theorem close_spares_reachable_method :
    let s : ScopeId := ⟨1⟩
    let method : Value := .function ⟨"m", ⟨0, [], []⟩, s⟩
    let properties := (Table.withCapacity 1).write (.inserted, 0) "m" ⟨"m", false, method⟩
    let σ := ofValue (.object ⟨0⟩ properties)
    let outside := [Held.empty.scope ⟨0⟩]
    ((σ.close outside s).bindings s).values = [] ∧ σ.Enclosed outside s := by
  intro s method properties σ outside
  have hobject : (Value.object ⟨0⟩ properties).Obeys (fun _ => properties) 1 := by
    refine Value.obeys_object.2 ⟨⟨rfl, Nat.zero_lt_one⟩, fun v hv => ?_⟩
    obtain rfl | hv := Table.mem_values_write hv
    · exact Value.obeys_of_type_ne (by decide)
    · simp at hv
  have hout : ∀ h ∈ outside, h.Obeys (fun _ => properties) 1 := by
    simp [outside, Held.Obeys]
  have hclosed : ((σ.close outside s).bindings s).capacity ≠ (σ.bindings s).capacity := by
    decide +kernel
  obtain ⟨hsame | ⟨hempty, hs, -⟩, -⟩ :=
    close_spares_reachable (s := s) hout (obeys_ofValue hobject)
  · exact (hclosed (congrArg (fun σ => (σ.bindings s).capacity) hsame)).elim
  · exact ⟨hempty, hs⟩

/-- **Closing a scope frees it if only itself holds it**, unless an object with a handle to it is
at several places: then the scope is kept, and never dropped. -/
theorem close_frees_heldByItself {T : ObjectId → Table Binding} {n : Nat}
    (hout : ∀ h ∈ outside, h.Obeys T n) (hσ : ∀ t, ∀ v ∈ (σ.bindings t).values, v.Obeys T n)
    (h : σ.HeldByItself outside s) (hs : σ.holds s s = true) :
    let σ' := σ.close outside s
    (Unshared s (σ.bindings s).values → (σ'.bindings s).values = [] ∧
      σ'.isDropped outside s = true) ∧
    (¬Unshared s (σ.bindings s).values → σ' = σ ∧ σ'.isDropped outside s = false) := by
  intro σ'
  refine ⟨fun hu => ?_, fun hu => ?_⟩
  · have hσ' : σ' = σ.clear s := h.close_eq_clear hs hu
    rw [hσ', bindings_clear, if_pos rfl, isDropped_iff]
    exact ⟨Table.values_withCapacity 0, h.dropped_clear⟩
  · have hσ' : σ' = σ := (σ.close_cases outside s).resolve_right fun ⟨_, hown, hall⟩ =>
      hu (enclosed_of_count hout hσ hown hall).unshared
    rw [hσ']
    refine ⟨rfl, Bool.eq_false_iff.2 fun hd => ?_⟩
    exact (isDropped_iff.1 hd).irrefl (.single hs)

/-- A scope that binds a function of its own, below a root that the host holds. -/
theorem close_frees_heldByItself_function :
    let s : ScopeId := ⟨1⟩
    let σ := ofValue (.function ⟨"f", ⟨0, [], []⟩, s⟩)
    let outside := [Held.empty.scope ⟨0⟩]
    σ.HeldByItself outside s ∧ (σ.close outside s).isDropped outside s = true := by
  intro s σ outside
  have hs : σ.HeldByItself outside s :=
    heldByItself_of_holds (by decide +kernel) (by decide +kernel) (by decide +kernel)
  have hout : ∀ h ∈ outside, h.Obeys (fun _ => .withCapacity 0) 0 := by
    simp [outside, Held.Obeys]
  have hparts : (σ.bindings s).values.flatMap Value.parts |>.all (·.objectId? = none) := by
    decide +kernel
  obtain ⟨hfrees, -⟩ := close_frees_heldByItself hout
    (obeys_ofValue (Value.obeys_of_type_ne (by decide))) hs (by decide +kernel)
  refine ⟨hs, (hfrees fun id t ht _ => ?_).2⟩
  simpa [Value.objectId?] using List.all_eq_true.1 hparts _ ht

-- One object at two places of the scope: the scope is kept, and holds itself for good.
example :
    let s : ScopeId := ⟨1⟩
    let method : Value := .function ⟨"m", ⟨0, [], []⟩, s⟩
    let inner : Value := .object ⟨0⟩ ⟨#[.occupied "m" ⟨"m", false, method⟩], 1⟩
    let pair : Table Binding :=
      ⟨#[.occupied "a" ⟨"a", false, inner⟩, .occupied "b" ⟨"b", false, inner⟩], 2⟩
    let σ := ofValue (.object ⟨1⟩ pair)
    let outside := [Held.empty.scope ⟨0⟩]
    (σ.close outside s).isDropped outside s = false := by
  decide +kernel

end Store

end Treewalk
