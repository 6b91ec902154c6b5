import Mathlib.Data.Finset.Card
import Mathlib.Logic.Relation
import Treewalk.Proofs.Scope.Store
import Treewalk.Proofs.Value.Nesting

/-!
# Dropped scopes

A scope is dropped if no handle to it is held outside the store and every scope that holds it is
dropped: `Store.Dropped`. This is the least such notion, so scopes that hold each other in a circle
are not dropped: `Dropped.irrefl`.

The search decides it, `Store.isDropped_iff`. From a dropped scope the search goes on to dropped
scopes only, and each of them has fewer scopes above it, so the fuel is enough:
`Store.search_of_dropped`. A scope that is taken for alive while it is searched holds none of the
scopes above it, so no verdict is wrong because of it.

Several searches that share their verdicts decide it as well, since each of them has fuel for all
scopes without a verdict: `Store.finds_search`. So the live holders of a scope are its holders that
are not dropped, `Store.mem_liveHolders_iff`, and they come in the order of their age.
-/

namespace Treewalk

theorem Verdicts.get?_insert (known : Verdicts) (s t : ScopeId) (b : Bool) :
    Std.TreeMap.get? (known.insert s b) t = if s = t then some b else known.get? t := by
  rw [Std.TreeMap.get?_eq_getElem?, Std.TreeMap.getElem?_insert]
  simp only [Std.LawfulEqCmp.compare_eq_iff_eq]
  rfl

namespace Store

/-- Whether a scope has no handles left: none outside the store, and none but in dropped scopes. -/
inductive Dropped (σ : Store) (outside : List Held) : ScopeId → Prop
  | intro {s : ScopeId} (unheld : ∀ h ∈ outside, h.mentions s = false)
    (holders : ∀ t, σ.holds t s = true → Dropped σ outside t) : Dropped σ outside s

/-- Whether a scope holds a handle to another, itself or by other scopes. -/
abbrev LeadsTo (σ : Store) : ScopeId → ScopeId → Prop :=
  Relation.TransGen fun t s => σ.holds t s = true

variable {σ : Store} {outside outside' : List Held} {s t : ScopeId}

theorem isHeld_eq_false : isHeld outside s = false ↔ ∀ h ∈ outside, h.mentions s = false := by
  simp [isHeld]

theorem lt_size_of_holds (h : σ.holds t s = true) : t.index < σ.scopes.size := by
  obtain ⟨scope, hs, -⟩ := (Option.any_eq_true _ _).1 h
  exact (Array.getElem?_eq_some_iff.1 hs).1

/-! ## Facts on dropped scopes -/

theorem Dropped.unheld (h : σ.Dropped outside s) : ∀ h ∈ outside, h.mentions s = false := by
  obtain ⟨hu, -⟩ := h
  exact hu

theorem Dropped.holders (h : σ.Dropped outside s) (ht : σ.holds t s = true) :
    σ.Dropped outside t := by
  obtain ⟨-, hh⟩ := h
  exact hh t ht

/-- A dropped scope is on no circle: the scope before it on the circle would be on one as well. -/
theorem Dropped.irrefl (h : σ.Dropped outside s) : ¬σ.LeadsTo s s := by
  induction h with
  | intro _ _ ih =>
    intro hs
    obtain ⟨t, hst, ht⟩ := Relation.TransGen.tail'_iff.1 hs
    exact ih t ht (.head' ht hst)

/-- What leads to a dropped scope is dropped. -/
theorem Dropped.of_leadsTo (h : σ.Dropped outside s) (ht : σ.LeadsTo t s) :
    σ.Dropped outside t := by
  induction ht using Relation.TransGen.head_induction_on with
  | single ht => exact h.holders ht
  | head ht _ ih => exact ih.holders ht

/-- What is held may change, as long as nothing that is held now leads to the scope. -/
theorem Dropped.of_unheld (h : σ.Dropped outside s)
    (hu : ∀ t, t = s ∨ σ.LeadsTo t s → ∀ h ∈ outside', h.mentions t = false) :
    σ.Dropped outside' s := by
  induction h with
  | intro _ _ ih =>
    refine .intro (hu _ (.inl rfl)) fun t ht => ih t ht fun u hut => hu u (.inr ?_)
    obtain rfl | hut := hut
    · exact .single ht
    · exact hut.tail ht

theorem Dropped.congr {σ' : Store} (h : σ.Dropped outside s)
    (hholds : ∀ t s, σ.holds t s = σ'.holds t s)
    (hheld : ∀ s, isHeld outside s = isHeld outside' s) : σ'.Dropped outside' s := by
  induction h with
  | intro hu _ ih =>
    exact .intro (isHeld_eq_false.1 ((hheld _).symm.trans (isHeld_eq_false.2 hu)))
      fun t ht => ih t ((hholds t _).trans ht)

/-! ## The search finds dropped scopes -/

open Classical in
/-- The scopes that lead to a scope. -/
noncomputable def above (σ : Store) (s : ScopeId) : Finset Nat :=
  (Finset.range σ.scopes.size).filter fun i => σ.LeadsTo ⟨i⟩ s

theorem card_above_le (σ : Store) (s : ScopeId) : (σ.above s).card ≤ σ.scopes.size := by
  classical exact (Finset.card_filter_le _ _).trans_eq (Finset.card_range _)

theorem mem_above {i : Nat} : i ∈ σ.above s ↔ i < σ.scopes.size ∧ σ.LeadsTo ⟨i⟩ s := by
  classical simp [above]

/-- A dropped scope has fewer scopes above it than those that it holds. -/
theorem Dropped.card_above_lt (h : σ.Dropped outside t) (ht : σ.holds t s = true) :
    (σ.above t).card < (σ.above s).card := by
  refine Finset.card_lt_card (Finset.ssubset_iff_of_subset (fun i hi => ?_) |>.2 ⟨t.index, ?_, ?_⟩)
  · obtain ⟨hlt, hi⟩ := mem_above.1 hi
    exact mem_above.2 ⟨hlt, hi.tail ht⟩
  · exact mem_above.2 ⟨lt_size_of_holds ht, .single ht⟩
  · exact fun hi => h.irrefl (mem_above.1 hi).2

/-- The dropped scopes that verdicts take for alive are all in progress. -/
def Mistakes (σ : Store) (outside : List Held) (known : Verdicts) (busy : ScopeId → Prop) : Prop :=
  ∀ u, known.get? u = some true → σ.Dropped outside u → busy u

variable {known : Verdicts} {busy : ScopeId → Prop}

/-- If all holders are found dropped and no search makes a mistake, none of the holders is alive. -/
theorem anyAlive_eq_false (search : ScopeId → Verdicts → Bool × Verdicts) (s : ScopeId)
    (holders : List ScopeId) (hknown : σ.Mistakes outside known busy)
    (hsearch : ∀ t ∈ holders, σ.holds t s = true → ∀ known, σ.Mistakes outside known busy →
      (search t known).1 = false ∧ σ.Mistakes outside (search t known).2 busy) :
    (σ.anyAlive search s holders known).1 = false ∧
      σ.Mistakes outside (σ.anyAlive search s holders known).2 busy := by
  induction holders generalizing known with
  | nil => exact ⟨rfl, hknown⟩
  | cons t rest ih =>
    have hrest := fun u hu => hsearch u (List.mem_cons_of_mem t hu)
    rw [anyAlive]
    split
    · next ht =>
      obtain ⟨hf, hm⟩ := hsearch t List.mem_cons_self ht known hknown
      generalize search t known = r at hf hm
      obtain ⟨verdict, known'⟩ := r
      subst hf
      exact ih hm hrest
    · exact ih hknown hrest

/-- A search from a dropped scope finds it dropped, if the scopes taken for alive by mistake are
in progress, and so below it. -/
theorem search_of_dropped (h : σ.Dropped outside s) {fuel : Nat}
    (hfuel : (σ.above s).card < fuel) (hknown : σ.Mistakes outside known busy)
    (hbusy : ∀ u, busy u → σ.LeadsTo s u) :
    (σ.search outside fuel s known).1 = false ∧
      σ.Mistakes outside (σ.search outside fuel s known).2 busy := by
  induction h generalizing fuel known busy with
  | @intro s hu hh ih =>
    have hs : σ.Dropped outside s := .intro hu hh
    obtain _ | fuel := fuel
    · exact absurd hfuel (Nat.not_lt_zero _)
    rw [search]
    split
    · next verdict hv =>
      cases verdict with
      | false => exact ⟨rfl, hknown⟩
      | true => exact (hs.irrefl (hbusy s (hknown s hv hs))).elim
    · rw [if_neg (by simp [isHeld_eq_false.2 hu])]
      -- while its holders are searched, the scope is in progress as well
      have hinsert : σ.Mistakes outside (known.insert s true) fun u => u = s ∨ busy u := by
        intro u hu hd
        rw [Verdicts.get?_insert] at hu
        split at hu
        · next he => exact .inl he.symm
        · exact .inr (hknown u hu hd)
      have hsearch : ∀ t ∈ (σ.holders.of s).toList, σ.holds t s = true → ∀ known,
          σ.Mistakes outside known (fun u => u = s ∨ busy u) →
            (σ.search outside fuel t known).1 = false ∧
              σ.Mistakes outside (σ.search outside fuel t known).2 (fun u => u = s ∨ busy u) := by
        intro t _ ht known' hk
        have hlt := (hh t ht).card_above_lt ht
        refine ih t ht (Nat.lt_of_lt_of_le hlt (Nat.le_of_lt_succ hfuel)) hk ?_
        rintro u (rfl | hu)
        · exact .single ht
        · exact .head ht (hbusy u hu)
      obtain ⟨hf, hm⟩ := anyAlive_eq_false _ s _ hinsert hsearch
      generalize σ.anyAlive (σ.search outside fuel) s _ _ = r at hf hm
      obtain ⟨verdict, known'⟩ := r
      subst hf
      refine ⟨rfl, fun u hu hd => ?_⟩
      dsimp only at hu
      rw [Verdicts.get?_insert] at hu
      split at hu
      · cases hu
      · next hne => exact (hm u hu hd).resolve_left fun he => hne he.symm

/-! ## Verdicts of death are right -/

/-- Whether all scopes that verdicts call dead are dropped. -/
def Deaths (σ : Store) (outside : List Held) (known : Verdicts) : Prop :=
  ∀ u, known.get? u = some false → σ.Dropped outside u

theorem Deaths.insert {verdict : Bool} (h : σ.Deaths outside known)
    (hs : verdict = false → σ.Dropped outside s) : σ.Deaths outside (known.insert s verdict) := by
  intro u hu
  rw [Verdicts.get?_insert] at hu
  split at hu
  · next he => exact he ▸ hs (Option.some.inj hu)
  · exact h u hu

theorem dropped_of_anyAlive (search : ScopeId → Verdicts → Bool × Verdicts) (s : ScopeId)
    (holders : List ScopeId) (hknown : σ.Deaths outside known)
    (hsearch : ∀ t known, σ.Deaths outside known →
      ((search t known).1 = false → σ.Dropped outside t) ∧ σ.Deaths outside (search t known).2) :
    ((σ.anyAlive search s holders known).1 = false →
      ∀ t ∈ holders, σ.holds t s = true → σ.Dropped outside t) ∧
      σ.Deaths outside (σ.anyAlive search s holders known).2 := by
  induction holders generalizing known with
  | nil => exact ⟨fun _ t ht => (List.not_mem_nil ht).elim, hknown⟩
  | cons t rest ih =>
    rw [anyAlive]
    split
    · obtain ⟨hd, hk⟩ := hsearch t known hknown
      generalize search t known = r at hd hk
      obtain ⟨_ | _, known'⟩ := r
      · obtain ⟨hr, hk'⟩ := ih hk
        exact ⟨fun hf u hu hh => (List.mem_cons.1 hu).elim (fun he => he ▸ hd rfl)
          fun hu => hr hf u hu hh, hk'⟩
      · exact ⟨fun hf => (by cases hf), hk⟩
    · next hn =>
      obtain ⟨hr, hk⟩ := ih hknown
      refine ⟨fun hf u hu hh => ?_, hk⟩
      obtain rfl | hu := List.mem_cons.1 hu
      · exact (hn hh).elim
      · exact hr hf u hu hh

theorem dropped_of_search (fuel : Nat) (s : ScopeId) (known : Verdicts)
    (hknown : σ.Deaths outside known) :
    ((σ.search outside fuel s known).1 = false → σ.Dropped outside s) ∧
      σ.Deaths outside (σ.search outside fuel s known).2 := by
  induction fuel generalizing s known with
  | zero => exact ⟨fun hf => (by cases hf), hknown⟩
  | succ fuel ih =>
    have hinsert : σ.Deaths outside (known.insert s true) := hknown.insert fun hf => by cases hf
    rw [search]
    split
    · next verdict hv => exact ⟨fun hf => hknown s (hf ▸ hv), hknown⟩
    · split
      · exact ⟨fun hf => (by cases hf), hinsert⟩
      · next hheld =>
        obtain ⟨hd, hk⟩ := dropped_of_anyAlive (σ.search outside fuel) s (σ.holders.of s).toList
          hinsert ih
        have hs : (σ.anyAlive (σ.search outside fuel) s (σ.holders.of s).toList
            (known.insert s true)).1 = false → σ.Dropped outside s := fun hf =>
          .intro (isHeld_eq_false.1 (by simpa using hheld)) fun t ht =>
            hd hf t (Std.TreeSet.mem_toList.2 (mem_holders_of_holds ht)) ht
        exact ⟨hs, hk.insert hs⟩

/-- The scopes of a list that are not found alive are dropped. -/
theorem dropped_of_filterAlive {scopes : List ScopeId} (hknown : σ.Deaths outside known)
    (ht : t ∈ scopes) (hn : t ∉ (σ.filterAlive outside scopes known).1) : σ.Dropped outside t := by
  induction scopes generalizing known with
  | nil => exact (List.not_mem_nil ht).elim
  | cons u rest ih =>
    obtain ⟨hd, hk⟩ := dropped_of_search σ.depthBound u known hknown
    rw [filterAlive] at hn
    generalize σ.search outside σ.depthBound u known = r at hd hk hn
    obtain ⟨verdict, known'⟩ := r
    dsimp only at hd hk hn
    obtain rfl | ht := List.mem_cons.1 ht
    · refine hd (Bool.eq_false_iff.2 fun hv => hn ?_)
      rw [if_pos hv]
      exact List.mem_cons_self
    · refine ih hk ht fun hm => hn ?_
      split
      · exact List.mem_cons_of_mem u hm
      · exact hm

/-! ## Live holders are the holders that are not dropped -/

/-- The scopes without a verdict. -/
def unknown (σ : Store) (known : Verdicts) : Finset Nat :=
  (Finset.range σ.scopes.size).filter fun i => known.get? ⟨i⟩ = none

theorem mem_unknown {i : Nat} :
    i ∈ σ.unknown known ↔ i < σ.scopes.size ∧ known.get? ⟨i⟩ = none := by
  simp [unknown]

theorem unknown_insert_subset (known : Verdicts) (s : ScopeId) (verdict : Bool) :
    σ.unknown (known.insert s verdict) ⊆ σ.unknown known := by
  intro i hi
  obtain ⟨hlt, hi⟩ := mem_unknown.1 hi
  rw [Verdicts.get?_insert] at hi
  split at hi
  · cases hi
  · exact mem_unknown.2 ⟨hlt, hi⟩

/-- A first verdict leaves fewer scopes without one. -/
theorem card_unknown_insert_lt (hs : s.index < σ.scopes.size) (h : known.get? s = none)
    (verdict : Bool) : (σ.unknown (known.insert s verdict)).card < (σ.unknown known).card := by
  refine Finset.card_lt_card ((Finset.ssubset_iff_of_subset
    (unknown_insert_subset known s verdict)).2 ⟨s.index, mem_unknown.2 ⟨hs, h⟩, fun hi => ?_⟩)
  obtain ⟨-, hi⟩ := mem_unknown.1 hi
  rw [Verdicts.get?_insert, if_pos rfl] at hi
  cases hi

/-- A search that makes no mistake: a dropped scope is found dropped. -/
structure Finds (σ : Store) (outside : List Held) (busy : ScopeId → Prop) (known : Verdicts)
    (isDead : Prop) (r : Bool × Verdicts) : Prop where
  dead : isDead → r.1 = false
  mistakes : σ.Mistakes outside r.2 busy
  subset : σ.unknown r.2 ⊆ σ.unknown known

theorem finds_anyAlive {search : ScopeId → Verdicts → Bool × Verdicts} (holders : List ScopeId)
    (hknown : σ.Mistakes outside known busy)
    (hsearch : ∀ t ∈ holders, σ.holds t s = true → ∀ known', σ.Mistakes outside known' busy →
      σ.unknown known' ⊆ σ.unknown known →
        σ.Finds outside busy known' (σ.Dropped outside t) (search t known')) :
    σ.Finds outside busy known (∀ t ∈ holders, σ.holds t s = true → σ.Dropped outside t)
      (σ.anyAlive search s holders known) := by
  induction holders generalizing known with
  | nil => exact ⟨fun _ => rfl, hknown, Finset.Subset.refl _⟩
  | cons t rest ih =>
    have hrest := fun u hu => hsearch u (List.mem_cons_of_mem t hu)
    rw [anyAlive]
    split
    · next ht =>
      obtain ⟨hd, hm, hsub⟩ := hsearch t List.mem_cons_self ht known hknown (Finset.Subset.refl _)
      generalize search t known = r at hd hm hsub
      obtain ⟨_ | _, known'⟩ := r
      · obtain ⟨hd', hm', hsub'⟩ := ih hm fun u hu hh known'' hk hs =>
          hrest u hu hh known'' hk (hs.trans hsub)
        exact ⟨fun hall => hd' fun u hu => hall u (List.mem_cons_of_mem t hu), hm',
          hsub'.trans hsub⟩
      · exact ⟨fun hall => hd (hall t List.mem_cons_self ht), hm, hsub⟩
    · obtain ⟨hd, hm, hsub⟩ := ih hknown hrest
      exact ⟨fun hall => hd fun u hu => hall u (List.mem_cons_of_mem t hu), hm, hsub⟩

/-- A search makes no mistake if it has fuel for all scopes without a verdict, and if it starts
above the scopes in progress. -/
theorem finds_search {fuel : Nat} (hs : s.index < σ.scopes.size)
    (hfuel : (σ.unknown known).card < fuel) (hknown : σ.Mistakes outside known busy)
    (hbusy : ∀ u, busy u → σ.LeadsTo s u) :
    σ.Finds outside busy known (σ.Dropped outside s) (σ.search outside fuel s known) := by
  induction fuel generalizing s known busy with
  | zero => exact absurd hfuel (Nat.not_lt_zero _)
  | succ fuel ih =>
    rw [search]
    split
    · next verdict hv =>
      refine ⟨fun hd => ?_, hknown, Finset.Subset.refl _⟩
      cases verdict with
      | false => rfl
      | true => exact (hd.irrefl (hbusy s (hknown s hv hd))).elim
    · next hnone =>
      have hsub := σ.unknown_insert_subset known s true
      have hcard := card_unknown_insert_lt hs hnone true
      -- while its holders are searched, the scope is in progress as well
      have hinsert : σ.Mistakes outside (known.insert s true) fun u => u = s ∨ busy u := by
        intro u hu hd
        rw [Verdicts.get?_insert] at hu
        split at hu
        · next he => exact .inl he.symm
        · exact .inr (hknown u hu hd)
      split
      · next hheld =>
        have halive : ¬σ.Dropped outside s := fun hd => by
          rw [isHeld_eq_false.2 hd.unheld] at hheld
          cases hheld
        refine ⟨fun hd => (halive hd).elim, fun u hu hd => ?_, hsub⟩
        exact (hinsert u hu hd).resolve_left fun he => halive (he ▸ hd)
      · obtain ⟨hd, hm, hsub'⟩ := finds_anyAlive (s := s) (σ.holders.of s).toList hinsert
          fun t _ ht known' hk hle => by
            refine ih (lt_size_of_holds ht) ?_ hk ?_
            · have := Finset.card_le_card hle
              omega
            · rintro u (rfl | hu)
              · exact .single ht
              · exact .head ht (hbusy u hu)
        generalize σ.anyAlive (σ.search outside fuel) s _ _ = r at hd hm hsub'
        obtain ⟨verdict, known'⟩ := r
        refine ⟨fun hs => hd fun t _ ht => hs.holders ht, fun u hu hdu => ?_,
          (unknown_insert_subset known' s verdict).trans (hsub'.trans hsub)⟩
        dsimp only at hu
        rw [Verdicts.get?_insert] at hu
        split at hu
        · next he =>
          have hfalse : verdict = false := hd fun t _ ht => (he ▸ hdu).holders ht
          rw [hfalse] at hu
          cases hu
        · next hne => exact (hm u hu hdu).resolve_left fun he => hne he.symm

theorem filterAlive_sublist (σ : Store) (outside : List Held) (scopes : List ScopeId)
    (known : Verdicts) : ((σ.filterAlive outside scopes known).1).Sublist scopes := by
  induction scopes generalizing known with
  | nil => exact List.Sublist.refl _
  | cons t rest ih =>
    rw [filterAlive]
    dsimp only
    split
    · exact (ih _).cons_cons t
    · exact (ih _).cons t

theorem holds_of_mem_liveHolders {s t : ScopeId} (h : t ∈ σ.liveHolders outside s) :
    σ.holds t s = true := by
  have hm := (σ.filterAlive_sublist outside _ _).subset h
  exact (List.mem_filter.1 hm).2

theorem not_mem_filterAlive {scopes : List ScopeId}
    (hscopes : ∀ u ∈ scopes, u.index < σ.scopes.size ∧ ∀ v, busy v → σ.LeadsTo u v)
    (hknown : σ.Mistakes outside known busy) (ht : σ.Dropped outside t) :
    t ∉ (σ.filterAlive outside scopes known).1 := by
  induction scopes generalizing known with
  | nil => exact List.not_mem_nil
  | cons u rest ih =>
    obtain ⟨hlt, hbusy⟩ := hscopes u List.mem_cons_self
    have hfuel : (σ.unknown known).card < σ.depthBound :=
      Nat.lt_succ_of_le ((Finset.card_filter_le _ _).trans_eq (Finset.card_range _))
    obtain ⟨hd, hm, -⟩ := finds_search hlt hfuel hknown hbusy
    rw [filterAlive]
    generalize σ.search outside σ.depthBound u known = r at hd hm
    obtain ⟨verdict, known'⟩ := r
    have hrest := ih (fun v hv => hscopes v (List.mem_cons_of_mem u hv)) hm
    dsimp only at hd ⊢
    split
    · next hv =>
      rw [List.mem_cons]
      rintro (rfl | hmem)
      · rw [hd ht] at hv
        cases hv
      · exact hrest hmem
    · exact hrest

/-- **The live holders of a scope are its holders that are not dropped.** -/
theorem mem_liveHolders_iff :
    t ∈ σ.liveHolders outside s ↔ σ.holds t s = true ∧ ¬σ.Dropped outside t := by
  refine ⟨fun ht => ⟨holds_of_mem_liveHolders ht, fun hd => ?_⟩, fun ⟨ht, hd⟩ => ?_⟩
  · have hknown : σ.Mistakes outside ((∅ : Verdicts).insert s true) (· = s) := by
      intro u hu _
      rw [Verdicts.get?_insert] at hu
      split at hu
      · next he => exact he.symm
      · simp at hu
    refine not_mem_filterAlive (fun u hu => ?_) hknown hd ht
    have hus := (List.mem_filter.1 hu).2
    exact ⟨lt_size_of_holds hus, by rintro _ rfl; exact .single hus⟩
  · by_contra hn
    have hempty : σ.Deaths outside ∅ := fun u hu => by simp at hu
    exact hd (dropped_of_filterAlive (hempty.insert fun hf => by cases hf)
      (List.mem_filter.2 ⟨Std.TreeSet.mem_toList.2 (mem_holders_of_holds ht), ht⟩) hn)

/-- The live holders of a scope come in the order of their age. -/
theorem pairwise_liveHolders (σ : Store) (outside : List Held) (s : ScopeId) :
    (σ.liveHolders outside s).Pairwise fun t u => t.index < u.index := by
  have hsorted : (σ.holders.of s).toList.Pairwise fun t u => t.index < u.index :=
    (Std.TreeSet.ordered_toList (t := σ.holders.of s)).imp fun h => Nat.compare_eq_lt.1 h
  exact (hsorted.filter _).sublist (σ.filterAlive_sublist outside _ _)

/-- The live holders in one store are those in another, renamed in their order, if they are the
same but for their names. -/
theorem liveHolders_eq_map {σ' : Store} {s' : ScopeId} (f : ScopeId → ScopeId)
    (hf : ∀ t u, t ∈ σ.liveHolders outside s → u ∈ σ.liveHolders outside s →
      t.index < u.index → (f t).index < (f u).index)
    (hmem : ∀ u, u ∈ σ'.liveHolders outside' s' ↔ ∃ t ∈ σ.liveHolders outside s, f t = u) :
    σ'.liveHolders outside' s' = (σ.liveHolders outside s).map f := by
  have hmap : ((σ.liveHolders outside s).map f).Pairwise fun t u => t.index < u.index :=
    List.pairwise_map.2 ((σ.pairwise_liveHolders outside s).imp_of_mem fun ht hu => hf _ _ ht hu)
  have hnodup : ∀ {scopes : List ScopeId}, (scopes.Pairwise fun t u => t.index < u.index) →
      scopes.Nodup := fun h => h.imp fun hlt he => Nat.ne_of_lt hlt (congrArg _ he)
  have hsorted := σ'.pairwise_liveHolders outside' s'
  refine List.Perm.eq_of_pairwise (fun t u _ _ htu hut => absurd htu (Nat.lt_asymm hut)) hsorted
    hmap ((List.perm_ext_iff_of_nodup (hnodup hsorted) (hnodup hmap)).2 fun u => ?_)
  rw [hmem, List.mem_map]

theorem nodup_liveHolders (σ : Store) (outside : List Held) (s : ScopeId) :
    (σ.liveHolders outside s).Nodup :=
  (σ.pairwise_liveHolders outside s).imp fun hlt he => Nat.ne_of_lt hlt (congrArg _ he)

/-- The scopes alive that hold a scope, where scopes hold the same handles. -/
theorem liveHolders_congr {σ' : Store} (hholds : ∀ t s, σ.holds t s = σ'.holds t s)
    (hheld : ∀ s, isHeld outside s = isHeld outside' s) (s : ScopeId) :
    σ.liveHolders outside s = σ'.liveHolders outside' s := by
  have hdropped : ∀ t, σ'.Dropped outside' t ↔ σ.Dropped outside t := fun t =>
    ⟨fun hd => hd.congr (fun t s => (hholds t s).symm) fun s => (hheld s).symm,
      fun hd => hd.congr hholds hheld⟩
  refine ((liveHolders_eq_map id (fun _ _ _ _ h => h) fun u => ?_).trans (List.map_id _)).symm
  simp only [mem_liveHolders_iff, hdropped, hholds, id_eq, exists_eq_right]

/-- A scope that holds itself is a live holder of itself. -/
theorem self_mem_liveHolders (outside : List Held) (h : σ.holds s s = true) :
    s ∈ σ.liveHolders outside s :=
  mem_liveHolders_iff.2 ⟨h, fun hd => hd.irrefl (.single h)⟩

/-- **A weak handle tells the truth**: the search decides whether a scope is dropped. -/
theorem isDropped_iff : σ.isDropped outside s = true ↔ σ.Dropped outside s := by
  rw [isDropped, Bool.not_eq_true']
  constructor
  · exact (dropped_of_search _ s ∅ fun u hu => by simp at hu).1
  · intro h
    have hempty : σ.Mistakes outside ∅ fun _ => False := fun u hu => by simp at hu
    exact (search_of_dropped h (Nat.lt_succ_of_le (σ.card_above_le s)) hempty
      fun u hu => hu.elim).1

end Store

end Treewalk
