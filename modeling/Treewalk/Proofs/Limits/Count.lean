import Treewalk.Proofs.Limits.Copy
import Treewalk.Proofs.Limits.Store

/-!
# The count of handles does not depend on the layout of tables

Scopes hold the same handles in stores that are the same up to layout, so the search for live scopes
takes the same course: `Store.Resized.liveHolders_eq`.

The search for places takes the values of tables in the order of their slots, but what it counts
does not depend on the order: every object found on one side is paired with one found on the other,
with the same values up to layout. So the counts of the handles to a scope are equal:
`Store.Resized.handleCount_eq`.
-/

namespace Treewalk

namespace Store

/-! ## The search for live scopes -/

variable {P : Pairing} {σ₁ σ₂ : Store} {outside₁ outside₂ : List Held}

theorem isHeld_eq (ho : List.Forall₂ (Held.Resized P) outside₁ outside₂) (s : ScopeId) :
    isHeld outside₁ s = isHeld outside₂ s := by
  induction ho with
  | nil => rfl
  | cons hh _ ih =>
    rw [isHeld, isHeld] at ih ⊢
    rw [List.any_cons, List.any_cons, hh.mentions_eq, ih]

/-- The scopes alive that hold a scope. -/
theorem Resized.liveHolders_eq (h : σ₁.Resized P σ₂)
    (ho : List.Forall₂ (Held.Resized P) outside₁ outside₂) (s : ScopeId) :
    σ₁.liveHolders outside₁ s = σ₂.liveHolders outside₂ s :=
  liveHolders_congr h.holds_eq (isHeld_eq ho) s

end Store

/-! ## Places -/

/-- Values that are the same up to layout, in any order. -/
structure Places.Resized (P : Pairing) (vs ws : List Value) : Prop where
  sum : ∀ f g : Value → Nat, (∀ v w, v.Resized P w → f v = g w) → sumOf f vs = sumOf g ws
  left : ∀ v ∈ vs, ∃ w ∈ ws, v.Resized P w
  right : ∀ w ∈ ws, ∃ v ∈ vs, v.Resized P w

/-- A sum over paired elements is the same on both sides. -/
theorem sum_eq_of_biUnique {α β : Type} [DecidableEq β] {R : α → β → Prop} (hR : Relator.BiUnique R)
    {as : List α} {bs : List β} (ha : as.Nodup) (hb : bs.Nodup) (hl : ∀ a ∈ as, ∃ b ∈ bs, R a b)
    (hr : ∀ b ∈ bs, ∃ a ∈ as, R a b) {f : α → Nat} {g : β → Nat}
    (hfg : ∀ a ∈ as, ∀ b ∈ bs, R a b → f a = g b) : (as.map f).sum = (bs.map g).sum := by
  induction as generalizing bs with
  | nil =>
    cases bs with
    | nil => rfl
    | cons b rest =>
      obtain ⟨a, ha, -⟩ := hr b List.mem_cons_self
      exact (List.not_mem_nil ha).elim
  | cons a as ih =>
    obtain ⟨ha, has⟩ := List.nodup_cons.1 ha
    obtain ⟨b, hb', hab⟩ := hl a List.mem_cons_self
    have hperm := List.perm_cons_erase hb'
    have hrest : (as.map f).sum = ((bs.erase b).map g).sum := by
      refine ih has (hb.erase b) (fun a' ha' => ?_) (fun b' hb'' => ?_) fun a' ha' b' hb'' =>
        hfg a' (List.mem_cons_of_mem a ha') b' (List.mem_of_mem_erase hb'')
      · obtain ⟨b', hb'', hab'⟩ := hl a' (List.mem_cons_of_mem a ha')
        refine ⟨b', (hb.mem_erase_iff).2 ⟨?_, hb''⟩, hab'⟩
        rintro rfl
        exact ha (hR.1 hab hab' ▸ ha')
      · obtain ⟨hne, hb''⟩ := hb.mem_erase_iff.1 hb''
        obtain ⟨a', ha', hab'⟩ := hr b' hb''
        rcases List.mem_cons.1 ha' with rfl | ha'
        · exact (hne (hR.2 hab' hab)).elim
        · exact ⟨a', ha', hab'⟩
    rw [List.map_cons, List.sum_cons, hrest, (hperm.map g).sum_eq, List.map_cons, List.sum_cons,
      hfg a List.mem_cons_self b hb' hab]

namespace Places

variable {P : Pairing} {vs ws vs' ws' : List Value} {T₁ T₂ : ObjectId → Table Binding}
variable {n m : Nat} {found found' : List ObjectId} {places places' : List Value}

theorem Resized.symm (h : Resized P vs ws) : Resized (flip P) ws vs where
  sum f g hfg := (h.sum g f fun v w hvw => (hfg w v hvw.symm).symm).symm
  left w hw := by
    obtain ⟨v, hv, hvw⟩ := h.right w hw
    exact ⟨v, hv, hvw.symm⟩
  right v hv := by
    obtain ⟨w, hw, hvw⟩ := h.left v hv
    exact ⟨w, hw, hvw.symm⟩

theorem Resized.append (h : Resized P vs ws) (h' : Resized P vs' ws') :
    Resized P (vs ++ vs') (ws ++ ws') where
  sum f g hfg := by rw [sumOf_append, sumOf_append, h.sum f g hfg, h'.sum f g hfg]
  left v hv := by
    rcases List.mem_append.1 hv with hv | hv
    · obtain ⟨w, hw, hvw⟩ := h.left v hv
      exact ⟨w, List.mem_append_left _ hw, hvw⟩
    · obtain ⟨w, hw, hvw⟩ := h'.left v hv
      exact ⟨w, List.mem_append_right _ hw, hvw⟩
  right w hw := by
    rcases List.mem_append.1 hw with hw | hw
    · obtain ⟨v, hv, hvw⟩ := h.right w hw
      exact ⟨v, List.mem_append_left _ hv, hvw⟩
    · obtain ⟨v, hv, hvw⟩ := h'.right w hw
      exact ⟨v, List.mem_append_right _ hv, hvw⟩

theorem Resized.of_forall₂ (h : List.Forall₂ (Value.Resized P) vs ws) : Resized P vs ws := by
  induction h with
  | nil => exact ⟨fun _ _ _ => rfl, by simp, by simp⟩
  | @cons v w vs ws hvw _ ih =>
    have hone : Resized P [v] [w] := by
      refine ⟨fun f g hfg => ?_, fun v' hv' => ?_, fun w' hw' => ?_⟩
      · simp [hfg v w hvw]
      · exact ⟨w, List.mem_singleton_self w, List.mem_singleton.1 hv' ▸ hvw⟩
      · exact ⟨v, List.mem_singleton_self v, List.mem_singleton.1 hw' ▸ hvw⟩
    exact hone.append ih

/-- What is kept of places by what does not depend on the layout of a value. -/
theorem Resized.filter (h : Resized P vs ws) {keep : Value → Bool}
    (hk : ∀ v w, v.Resized P w → keep v = keep w) :
    Resized P (vs.filter keep) (ws.filter keep) where
  sum f g hfg := by
    rw [sumOf_filter_eq, sumOf_filter_eq]
    refine h.sum _ _ fun v w hvw => ?_
    rw [hk v w hvw, hfg v w hvw]
  left v hv := by
    obtain ⟨hv, hm⟩ := List.mem_filter.1 hv
    obtain ⟨w, hw, hvw⟩ := h.left v hv
    exact ⟨w, List.mem_filter.2 ⟨hw, hk v w hvw ▸ hm⟩, hvw⟩
  right w hw := by
    obtain ⟨hw, hm⟩ := List.mem_filter.1 hw
    obtain ⟨v, hv, hvw⟩ := h.right w hw
    exact ⟨v, List.mem_filter.2 ⟨hv, hk v w hvw ▸ hm⟩, hvw⟩

theorem Resized.of_table {t u : Table Binding} (h : t.Resized (Value.Resized P) u) :
    Resized P t.values u.values where
  sum f g hfg := h.sumOf_eq hfg
  left v hv := h.exists_of_mem_values hv
  right w hw := by
    obtain ⟨v, hv, hvw⟩ := h.symm.exists_of_mem_values hw
    exact ⟨v, hv, hvw⟩

/-- What a search finds holds all that is nested in the values taken. -/
theorem Survey.mem_of_nested (h : Survey T₁ vs found places) (hvs : ∀ v ∈ vs, v.Obeys T₁ n)
    {v w : Value} (hn : v.Nested w) (hw : w ∈ places) : v ∈ places := by
  induction hn with
  | self => exact hw
  | @bound id t x hx _ ih =>
    obtain ⟨⟨rfl, -⟩, -⟩ := Value.obeys_object.1 (h.obeys hvs hw)
    exact ih ((h.closed id (h.listed id _ hw)).2 hx)

/-- An object found on one side is found on the other, with the same values up to layout. -/
theorem Resized.exists_found (h : Resized P vs ws) (hs : Survey T₁ vs found places)
    (hs' : Survey T₂ ws found' places') (hws : ∀ w ∈ ws, w.Obeys T₂ m) {i : ObjectId}
    (hi : i ∈ found) :
    ∃ j ∈ found', P i j ∧ (T₁ i).Resized (Value.Resized P) (T₂ j) := by
  obtain ⟨v, hv, hn⟩ := hs.nested _ (hs.closed i hi).1
  obtain ⟨w, hw, hvw⟩ := h.left v hv
  obtain ⟨y, hy, hxy⟩ := hvw.nested hn
  have hplace := hs'.mem_of_nested hws hy (hs'.taken hw)
  cases hxy with
  | leaf hleaf => exact (hleaf rfl).elim
  | @object _ j _ u hid left right keys flags values =>
    have ht := (Value.resized_object.1 (.object hid left right keys flags values)).2
    obtain ⟨⟨rfl, -⟩, -⟩ := Value.obeys_object.1 (hs'.obeys hws hplace)
    exact ⟨j, hs'.listed j _ hplace, hid, ht⟩

/-- What a search counts does not depend on layout. -/
theorem Resized.sumOf_places_eq (h : Resized P vs ws) (hP : Relator.BiUnique P)
    (hs : Survey T₁ vs found places) (hs' : Survey T₂ ws found' places')
    (hvs : ∀ v ∈ vs, v.Obeys T₁ n) (hws : ∀ w ∈ ws, w.Obeys T₂ m) {f g : Value → Nat}
    (hfg : ∀ v w, v.Resized P w → f v = g w) : sumOf f places = sumOf g places' := by
  have hfound : (found.map fun id => sumOf f (T₁ id).values).sum =
      (found'.map fun id => sumOf g (T₂ id).values).sum := by
    refine sum_eq_of_biUnique hP hs.nodup hs'.nodup (fun i hi => ?_) (fun j hj => ?_)
      fun i hi j _ hij => ?_
    · obtain ⟨j, hj, hij, -⟩ := h.exists_found hs hs' hws hi
      exact ⟨j, hj, hij⟩
    · obtain ⟨i, hi, hij, -⟩ := h.symm.exists_found hs' hs hvs hj
      exact ⟨i, hi, hij⟩
    · obtain ⟨j', -, hij', ht⟩ := h.exists_found hs hs' hws hi
      obtain rfl := hP.2 hij hij'
      exact ht.sumOf_eq hfg
  rw [hs.sum, hs'.sum, h.sum f g hfg, hfound]

end Places

/-- The handles that a value captures do not depend on its layout. -/
theorem Value.Resized.captures_eq {P : Pairing} {v w : Value} (h : Resized P v w) (s : ScopeId)
    {owned owned' : ObjectId → Bool} (ho : ∀ i j, P i j → owned i = owned' j) :
    v.captures s owned = w.captures s owned' := by
  induction h using Resized.induction with
  | leaf v hv => cases v <;> first | rfl | exact (hv rfl).elim
  | object i j t u h hid ht =>
    rw [captures_object, captures_object, ho i j hid]
    split
    · exact ht.sumOf_eq fun _ _ h => h.2
    · rfl

namespace Store

variable {P : Pairing} {σ₁ σ₂ : Store} {outside₁ outside₂ : List Held}
variable {T₁ T₂ : ObjectId → Table Binding} {n m : Nat} {s : ScopeId}

/-- The values that the search for places takes. -/
theorem Resized.taken (h : σ₁.Resized P σ₂)
    (ho : List.Forall₂ (Held.Resized P) outside₁ outside₂) (live : List ScopeId) (s : ScopeId) :
    Places.Resized P (σ₁.taken outside₁ live s) (σ₂.taken outside₂ live s) := by
  have houter : Places.Resized P (outside₁.flatMap (·.objectsFor s))
      (outside₂.flatMap (·.objectsFor s)) := by
    induction ho with
    | nil => exact .of_forall₂ .nil
    | cons hh _ ih => exact (Places.Resized.of_forall₂ (hh.objects s)).append ih
  refine houter.append ?_
  induction live with
  | nil => exact .of_forall₂ .nil
  | cons t rest ih =>
    have htable := (Places.Resized.of_table (h.bindings t)).filter fun v w hvw => hvw.mentions_eq s
    exact htable.append ih

theorem foldr_count_eq (ho : List.Forall₂ (Held.Resized P) outside₁ outside₂) (s : ScopeId) :
    outside₁.foldr (fun h n => h.count s + n) 0 =
      outside₂.foldr (fun h n => h.count s + n) 0 := by
  induction ho with
  | nil => rfl
  | cons hh _ ih => rw [List.foldr_cons, List.foldr_cons, hh.count_eq, ih]

/-- **The count of the handles to a scope does not depend on the layout of tables.** -/
theorem Resized.handleCount_eq (h : σ₁.Resized P σ₂) (hP : Relator.BiUnique P)
    (ho : List.Forall₂ (Held.Resized P) outside₁ outside₂)
    (hout₁ : ∀ h ∈ outside₁, ∀ v ∈ h.objectsFor s, v.Obeys T₁ n)
    (hout₂ : ∀ h ∈ outside₂, ∀ v ∈ h.objectsFor s, v.Obeys T₂ m)
    (hσ₁ : ∀ t, ∀ v ∈ (σ₁.bindings t).values, v.Obeys T₁ n)
    (hσ₂ : ∀ t, ∀ v ∈ (σ₂.bindings t).values, v.Obeys T₂ m) :
    σ₁.handleCount outside₁ s = σ₂.handleCount outside₂ s := by
  rw [handleCount, handleCount]
  dsimp only
  rw [h.liveHolders_eq ho]
  generalize σ₂.liveHolders outside₂ s = live
  have htaken := h.taken ho live s
  have hobeys₁ := taken_obeys live hout₁ hσ₁
  have hobeys₂ := taken_obeys live hout₂ hσ₂
  obtain ⟨found, hs⟩ := Places.exists_survey hobeys₁
  obtain ⟨found', hs'⟩ := Places.exists_survey hobeys₂
  rw [places_eq, places_eq]
  generalize ((σ₁.taken outside₁ live s).foldl Places.add ⟨[], []⟩).values = places at hs ⊢
  generalize ((σ₂.taken outside₂ live s).foldl Places.add ⟨[], []⟩).values = places' at hs' ⊢
  have hcount : ∀ p q : Value → Bool, (∀ v w, v.Resized P w → p v = q w) →
      places.countP p = places'.countP q := by
    intro p q hpq
    rw [countP_eq_sumOf, countP_eq_sumOf]
    exact htaken.sumOf_places_eq hP hs hs' hobeys₁ hobeys₂ fun v w hvw => by rw [hpq v w hvw]
  have hscope : places.countP (·.scope? = some s) = places'.countP (·.scope? = some s) := by
    refine hcount _ _ fun v w hvw => ?_
    cases hvw <;> rfl
  have howned : ∀ i j, P i j → decide (places.countP (·.objectId? = some i) = 1) =
      decide (places'.countP (·.objectId? = some j) = 1) := by
    intro i j hij
    rw [hcount (·.objectId? = some i) (·.objectId? = some j) fun v w hvw => ?_]
    cases hvw with
    | @leaf v hv => cases v <;> first | rfl | exact (hv rfl).elim
    | @object i' j' _ _ hij' => simp [Value.objectId?, biUnique_iff.1 hP i' j' i j hij' hij]
  have hdirect := foldr_count_eq ho s
  have hchildren : live.countP (σ₁.parent? · = some s) = live.countP (σ₂.parent? · = some s) :=
    List.countP_congr fun t _ => by rw [h.parent?_eq]
  rw [hscope, hdirect, hchildren, slotCaptures_eq_sumOf, slotCaptures_eq_sumOf]
  congr 2
  exact (h.bindings s).sumOf_eq fun v w hvw => hvw.captures_eq s howned

end Store

end Treewalk
