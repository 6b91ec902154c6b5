import Treewalk.Proofs.Scope.Binds
import Treewalk.Proofs.Scope.Leaving
import Treewalk.Proofs.Simulation.Basic
import Treewalk.Proofs.Value.Renaming

/-!
# Stores that differ by an empty scope

The first of two stores has one scope more than the second: an empty scope, spliced in below its
parent. Scopes are numbered by age, so the scopes made after the extra one are numbered one less in
the second store. Every scope of the first store has a twin in the second; the twin of the extra
scope is its parent, from which all names are resolved the same, since the extra scope binds none.

* `Splice` names the extra scope and its parent, `Splice.twin` gives the twins.
* `Store.Spliced` ties the two stores: the second is the first with scopes renamed to their twins.
* `Spliced.chain_twin`, `Spliced.resolve_twin` and `Spliced.owner?_twin` for look-ups.
* `Spliced.child`, `Spliced.declare`, `Spliced.assign` and `Spliced.discard` for the operations,
  with `Spliced.discard_extra` for the end of the extra scope.
-/

namespace Treewalk

/-- An extra scope below its parent. -/
structure Splice where
  extra : ScopeId
  parent : ScopeId
  older : parent.index < extra.index

namespace Splice

variable (p : Splice) {s t u : ScopeId}

/-- The scope that stands for a scope where the extra one is left out. -/
def twin (s : ScopeId) : ScopeId :=
  if s = p.extra then p.parent
  else if s.index < p.extra.index then s
  else ⟨s.index - 1⟩

/-- Whether a scope is the twin of itself alone: it is neither the extra scope nor its parent. -/
structure Apart (s : ScopeId) : Prop where
  ne_extra : s ≠ p.extra
  ne_parent : s ≠ p.parent

/-- Whether a value may occur in the first store: none of its functions is of the extra scope. -/
def Admits (v : Value) : Prop := v.mentions p.extra = false

variable {p}

@[simp] theorem twin_extra : p.twin p.extra = p.parent := if_pos rfl

theorem twin_of_lt (h : s.index < p.extra.index) : p.twin s = s := by
  rw [twin, if_neg, if_pos h]
  rintro rfl
  exact Nat.lt_irrefl _ h

@[simp] theorem twin_parent : p.twin p.parent = p.parent := twin_of_lt p.older

theorem twin_of_gt (h : p.extra.index < s.index) : p.twin s = ⟨s.index - 1⟩ := by
  rw [twin, if_neg, if_neg (Nat.not_lt_of_gt h)]
  rintro rfl
  exact Nat.lt_irrefl _ h

theorem lt_or_gt (hs : s ≠ p.extra) : s.index < p.extra.index ∨ p.extra.index < s.index :=
  Nat.lt_or_gt_of_ne fun h => hs (ScopeId.index_inj.1 h)

/-- Twins are of the same order as the scopes that they stand for. -/
theorem twin_lt_twin_iff (hs : s ≠ p.extra) (ht : t ≠ p.extra) :
    (p.twin s).index < (p.twin t).index ↔ s.index < t.index := by
  obtain hs | hs := lt_or_gt hs <;> obtain ht | ht := lt_or_gt ht
  · rw [twin_of_lt hs, twin_of_lt ht]
  · rw [twin_of_lt hs, twin_of_gt ht]
    dsimp only
    omega
  · rw [twin_of_gt hs, twin_of_lt ht]
    dsimp only
    omega
  · rw [twin_of_gt hs, twin_of_gt ht]
    dsimp only
    omega

theorem twin_inj (hs : s ≠ p.extra) (ht : t ≠ p.extra) : p.twin s = p.twin t ↔ s = t := by
  refine ⟨fun h => ?_, congrArg p.twin⟩
  have hst := mt (twin_lt_twin_iff hs ht).2 (h ▸ Nat.lt_irrefl _)
  have hts := mt (twin_lt_twin_iff ht hs).2 (h ▸ Nat.lt_irrefl _)
  exact ScopeId.index_inj.1 (by omega)

theorem twin_eq_twin_iff (hs : p.Apart s) (u : ScopeId) : p.twin u = p.twin s ↔ u = s := by
  by_cases hu : u = p.extra
  · subst hu
    rw [twin_extra, ← twin_parent, twin_inj (ne_of_apply_ne _ (Nat.ne_of_lt p.older)) hs.ne_extra]
    exact ⟨fun h => (hs.ne_parent h.symm).elim, fun h => (hs.ne_extra h.symm).elim⟩
  · exact twin_inj hu hs.ne_extra

/-- Every scope of the second store is a twin. -/
theorem exists_twin_eq (p : Splice) (s : ScopeId) : ∃ t, t ≠ p.extra ∧ p.twin t = s := by
  by_cases hs : s.index < p.extra.index
  · exact ⟨s, ne_of_apply_ne _ (Nat.ne_of_lt hs), twin_of_lt hs⟩
  · have hlt : p.extra.index < (⟨s.index + 1⟩ : ScopeId).index := by dsimp only; omega
    exact ⟨⟨s.index + 1⟩, ne_of_apply_ne _ (Nat.ne_of_gt hlt), twin_of_gt hlt⟩

theorem parent_ne_extra (p : Splice) : p.parent ≠ p.extra := ne_of_apply_ne _ (Nat.ne_of_lt p.older)

/-- Scopes made after the extra one are apart. -/
theorem apart_of_gt (h : p.extra.index < s.index) : p.Apart s where
  ne_extra := ne_of_apply_ne _ (Nat.ne_of_gt h)
  ne_parent := ne_of_apply_ne _ (Nat.ne_of_gt (Nat.lt_trans p.older h))

theorem admits_of_isPlain {v : Value} (h : v.IsPlain) : p.Admits v := h.mentions_eq_false _

theorem admits_of_mentions {v w : Value} (h : p.Admits v)
    (hw : w.mentions p.extra = true → v.mentions p.extra = true) : p.Admits w := by
  rw [Admits, ← Bool.not_eq_true] at h ⊢
  exact mt hw h

theorem admits_object {id : ObjectId} {t : Table Binding} (h : ∀ v ∈ t.values, p.Admits v) :
    p.Admits (.object id t) := by
  rw [Admits, ← Bool.not_eq_true, Value.mentions_object]
  rintro ⟨v, hv, hs⟩
  exact Bool.false_ne_true ((h v hv).symm.trans hs)

end Splice

/-- The scope with all scopes that it refers to renamed. -/
def Scope.rename (f : ScopeId → ScopeId) (scope : Scope) : Scope :=
  { scope with bindings := scope.bindings.rename f, parent := scope.parent.map f }

/-- The second store is the first without the extra scope. -/
structure Store.Spliced (p : Splice) (σ₁ σ₂ : Store) : Prop where
  size_eq : σ₁.scopes.size = σ₂.scopes.size + 1
  nextObject_eq : σ₁.nextObject = σ₂.nextObject
  scopes_eq : ∀ s, s ≠ p.extra →
    σ₂.scopes[(p.twin s).index]? = σ₁.scopes[s.index]?.map (Scope.rename p.twin)
  bindings_extra : ∃ n, σ₁.bindings p.extra = .withCapacity n
  parent?_extra : σ₁.parent? p.extra = some p.parent
  childCapacity_extra : σ₁.childCapacity p.extra = σ₁.childCapacity p.parent
  /-- The scopes below the extra one are newer than it. -/
  younger : ∀ s, σ₁.parent? s = some p.extra → p.extra.index < s.index
  binds : σ₁.Binds p.Admits

namespace Store.Spliced

open Splice

variable {p : Splice} {σ₁ σ₂ : Store} {s t : ScopeId} {v : Value}

theorem extra_lt (h : σ₁.Spliced p σ₂) : p.extra.index < σ₁.scopes.size :=
  Store.lt_size_of_parent? h.parent?_extra

theorem bindings_twin (h : σ₁.Spliced p σ₂) (hs : s ≠ p.extra) :
    σ₂.bindings (p.twin s) = (σ₁.bindings s).rename p.twin := by
  rw [Store.bindings, Store.bindings, h.scopes_eq s hs]
  cases σ₁.scopes[s.index]? with
  | none => exact (Table.map_withCapacity _ 0).symm
  | some scope => rfl

/-- Older scopes keep their numbers. -/
theorem bindings_of_lt (h : σ₁.Spliced p σ₂) (hs : s.index < p.extra.index) :
    σ₂.bindings s = (σ₁.bindings s).rename p.twin := by
  have hb := h.bindings_twin (ne_of_apply_ne _ (Nat.ne_of_lt hs))
  rwa [twin_of_lt hs] at hb

theorem parent?_twin (h : σ₁.Spliced p σ₂) (hs : s ≠ p.extra) :
    σ₂.parent? (p.twin s) = (σ₁.parent? s).map p.twin := by
  rw [Store.parent?, Store.parent?, h.scopes_eq s hs]
  cases σ₁.scopes[s.index]? <;> rfl

theorem childCapacity_twin (h : σ₁.Spliced p σ₂) (s : ScopeId) :
    σ₂.childCapacity (p.twin s) = σ₁.childCapacity s := by
  have hne : ∀ s, s ≠ p.extra → σ₂.childCapacity (p.twin s) = σ₁.childCapacity s := by
    intro s hs
    rw [Store.childCapacity, Store.childCapacity, h.scopes_eq s hs]
    cases σ₁.scopes[s.index]? <;> rfl
  by_cases hs : s = p.extra
  · rw [hs, h.childCapacity_extra, ← hne _ p.parent_ne_extra, twin_extra, twin_parent]
  · exact hne s hs

/-- A scope holds the twin of what it held. -/
theorem holds_twin (h : σ₁.Spliced p σ₂) (ht : t ≠ p.extra) (hs : p.Apart s) :
    σ₂.holds (p.twin t) (p.twin s) = σ₁.holds t s := by
  rw [Store.holds, Store.holds, h.scopes_eq t ht]
  cases σ₁.scopes[t.index]? with
  | none => rfl
  | some scope =>
    have hparent : (scope.parent.map p.twin == some (p.twin s)) = (scope.parent == some s) := by
      cases scope.parent with
      | none => rfl
      | some q => simp [twin_eq_twin_iff hs]
    simp only [Option.map_some, Option.any_some, Scope.holds, Scope.rename, hparent,
      Table.mentions_rename (twin_eq_twin_iff hs)]

/-- The extra scope holds its parent alone. -/
theorem eq_parent_of_holds (h : σ₁.Spliced p σ₂) (hs : σ₁.holds p.extra s = true) :
    s = p.parent := by
  rcases Store.cases_of_holds hs with hp | ⟨v, hv, -⟩
  · exact (Option.some.inj (h.parent?_extra.symm.trans hp)).symm
  · obtain ⟨n, hn⟩ := h.bindings_extra
    simp [hn] at hv

/-! ## Look-ups -/

/-- The chain of a twin has the twins of all scopes of the chain but the extra one. -/
theorem chain_twin (h : σ₁.Spliced p σ₂) (s : ScopeId) :
    σ₂.chain (p.twin s) = ((σ₁.chain s).filter (· ≠ p.extra)).map p.twin := by
  fun_induction Store.chain σ₁ s with
  | case1 s q hq hlt ih =>
    by_cases hs : s = p.extra
    · subst hs
      obtain rfl : q = p.parent := Option.some.inj (hq.symm.trans h.parent?_extra)
      rw [List.filter_cons_of_neg (by simp), ← ih, twin_extra, twin_parent]
    · have hparent : σ₂.parent? (p.twin s) = some (p.twin q) := by rw [h.parent?_twin hs, hq]; rfl
      have holder : (p.twin q).index < (p.twin s).index := by
        by_cases hqe : q = p.extra
        · rw [hqe, twin_extra, ← twin_parent, twin_lt_twin_iff p.parent_ne_extra hs]
          exact Nat.lt_trans p.older (hqe ▸ hlt)
        · rwa [twin_lt_twin_iff hqe hs]
      rw [Store.chain_of_parent hparent holder, ih, List.filter_cons_of_pos (by simpa using hs)]
      rfl
  | case2 s q hq hlt =>
    have hs : s ≠ p.extra := by
      rintro rfl
      rw [h.parent?_extra] at hq
      cases hq
      exact hlt p.older
    have hqe : q ≠ p.extra := by
      rintro rfl
      exact hlt (h.younger s hq)
    rw [Store.chain, h.parent?_twin hs, hq, List.filter_cons_of_pos (by simpa using hs)]
    exact if_neg (mt (twin_lt_twin_iff hqe hs).1 hlt)
  | case3 s hq =>
    have hs : s ≠ p.extra := by
      rintro rfl
      rw [h.parent?_extra] at hq
      cases hq
    rw [Store.chain_of_root (by rw [h.parent?_twin hs, hq]; rfl),
      List.filter_cons_of_pos (by simpa using hs)]
    rfl

theorem get?_extra (h : σ₁.Spliced p σ₂) (name : String) :
    (σ₁.bindings p.extra).get? name = none := by
  obtain ⟨n, hn⟩ := h.bindings_extra
  rw [hn, Table.get?_withCapacity]

/-- A name is resolved the same from the twin. -/
theorem resolve_twin (h : σ₁.Spliced p σ₂) (s : ScopeId) (name : String) :
    σ₂.resolve (p.twin s) name = (σ₁.resolve s name).map (BindingOf.rename p.twin) := by
  rw [Store.resolve, Store.resolve, h.chain_twin]
  induction σ₁.chain s with
  | nil => rfl
  | cons t rest ih =>
    by_cases ht : t = p.extra
    · subst ht
      rw [List.filter_cons_of_neg (by simp), ih, List.findSome?_cons, h.get?_extra]
    · rw [List.filter_cons_of_pos (by simpa using ht), List.map_cons, List.findSome?_cons,
        List.findSome?_cons, h.bindings_twin ht, Table.rename, Table.get?_map, ih]
      cases (σ₁.bindings t).get? name <;> rfl

/-- The twin of the scope that owns a name owns it. -/
theorem owner?_twin (h : σ₁.Spliced p σ₂) (s : ScopeId) (name : String) :
    σ₂.owner? (p.twin s) name = (σ₁.owner? s name).map p.twin := by
  rw [Store.owner?, Store.owner?, h.chain_twin]
  induction σ₁.chain s with
  | nil => rfl
  | cons t rest ih =>
    by_cases ht : t = p.extra
    · subst ht
      have hc : (σ₁.bindings p.extra).contains name = false := by
        rw [Table.contains_eq, h.get?_extra]
        rfl
      rw [List.filter_cons_of_neg (by simp), ih, List.find?_cons_of_neg (by simp [hc])]
    · rw [List.filter_cons_of_pos (by simpa using ht), List.map_cons, List.find?_cons,
        List.find?_cons, h.bindings_twin ht, Table.rename, Table.contains_map, ih]
      cases (σ₁.bindings t).contains name <;> rfl

/-- The extra scope owns no name. -/
theorem owner?_ne_extra (h : σ₁.Spliced p σ₂) {name : String} (ho : σ₁.owner? s name = some t) :
    t ≠ p.extra := by
  rintro rfl
  have hc := List.find?_some ho
  rw [Table.contains_eq, h.get?_extra] at hc
  cases hc

/-! ## Operations -/

theorem nextObject (h : σ₁.Spliced p σ₂) (n : Nat) :
    Store.Spliced p { σ₁ with nextObject := n } { σ₂ with nextObject := n } :=
  { h with nextObject_eq := rfl }

/-- A new scope below a scope, and one below its twin. -/
theorem child (h : σ₁.Spliced p σ₂) (s : ScopeId) :
    (σ₂.child (p.twin s)).1 = p.twin (σ₁.child s).1 ∧ p.extra.index < (σ₁.child s).1.index ∧
      Store.Spliced p (σ₁.child s).2 (σ₂.child (p.twin s)).2 := by
  have hextra := h.extra_lt
  have hlt : p.extra.index < (σ₁.child s).1.index := hextra
  have hsize := h.size_eq
  have hold : ∀ t : ScopeId, t.index < σ₁.scopes.size → t.index ≠ σ₁.scopes.size :=
    fun _ => Nat.ne_of_lt
  have hparent : p.parent.index < σ₁.scopes.size := Nat.lt_trans p.older h.extra_lt
  refine ⟨?_, hlt, ?_⟩
  · rw [twin_of_gt hlt]
    exact ScopeId.index_inj.1 (by simp [Store.child]; omega)
  · rw [Store.child, Store.child, h.childCapacity_twin]
    exact
      { size_eq := by rw [Store.size_add, Store.size_add, hsize]
        nextObject_eq := h.nextObject_eq
        scopes_eq := fun t ht => by
          have hi : (p.twin t).index = σ₂.scopes.size ↔ t.index = σ₁.scopes.size := by
            obtain ht | ht := lt_or_gt ht
            · rw [twin_of_lt ht]
              omega
            · rw [twin_of_gt ht]
              dsimp only
              omega
          rw [Store.getElem?_scopes_add, Store.getElem?_scopes_add]
          simp only [hi]
          split
          · simp [Scope.rename, Table.rename, Table.map_withCapacity]
          · exact h.scopes_eq t ht
        bindings_extra := by
          rw [Store.bindings_add, if_neg (hold _ h.extra_lt)]
          exact h.bindings_extra
        parent?_extra := by
          rw [Store.parent?_add, if_neg (hold _ h.extra_lt), h.parent?_extra]
        childCapacity_extra := by
          rw [Store.childCapacity_add, Store.childCapacity_add, if_neg (hold _ h.extra_lt),
            if_neg (hold _ hparent), h.childCapacity_extra]
        younger := fun t ht => by
          rw [Store.parent?_add] at ht
          split at ht
          · next hi => exact hi ▸ h.extra_lt
          · exact h.younger t ht
        binds := h.binds.add _ _ _ }

/-- A binding written into a scope and into its twin. -/
theorem place (h : σ₁.Spliced p σ₂) (hs : s ≠ p.extra) {b : Binding} (hb : p.Admits b.value)
    (r : Table.SetOutcome × Nat) (key : String) :
    Store.Spliced p (σ₁.place s r key b) (σ₂.place (p.twin s) r key (b.rename p.twin)) where
  size_eq := by rw [Store.size_place, Store.size_place, h.size_eq]
  nextObject_eq := h.nextObject_eq
  scopes_eq t ht := by
    have hi : (p.twin s).index = (p.twin t).index ↔ s.index = t.index := by
      rw [ScopeId.index_inj, ScopeId.index_inj, twin_inj hs ht]
    rw [Store.getElem?_scopes_place, Store.getElem?_scopes_place, h.scopes_eq t ht]
    simp only [hi]
    split
    · rw [Option.map_map, Option.map_map]
      refine congrArg (Option.map · _) (funext fun scope => ?_)
      simp only [Function.comp, Scope.rename, Table.rename, Table.map_write]
    · rfl
  bindings_extra := by
    rw [Store.bindings_place, if_neg hs]
    exact h.bindings_extra
  parent?_extra := by rw [Store.parent?_place, h.parent?_extra]
  childCapacity_extra := by
    rw [Store.childCapacity_place, Store.childCapacity_place, h.childCapacity_extra]
  younger t ht := h.younger t (by rwa [Store.parent?_place] at ht)
  binds := h.binds.place hb s r key

/-- A name declared on both sides: it fits on both or on none. -/
theorem declare (h : σ₁.Spliced p σ₂) (hs : s ≠ p.extra) (hv : p.Admits v) (name : String)
    (isConst : Bool) :
    Corresponds (fun _ => False) (fun a b => a.2.Spliced p b.2)
      (σ₁.declare s name v isConst)
      (σ₂.declare (p.twin s) name (v.rename p.twin) isConst) := by
  rw [Store.declare, Store.declare, h.bindings_twin hs, Table.rename, Table.place?_map,
    Table.capacity_map]
  cases (σ₁.bindings s).place? name with
  | none => exact .error _
  | some r => exact .ok (h.place hs (b := ⟨name, isConst, v⟩) hv r name)

/-- A variable assigned on both sides, or the same fault found on both. -/
theorem assign (h : σ₁.Spliced p σ₂) (s : ScopeId) (hv : p.Admits v) (name : String) :
    Corresponds (fun _ => False) (fun a b => a.2.Spliced p b.2)
      (σ₁.assign s name v) (σ₂.assign (p.twin s) name (v.rename p.twin)) := by
  rw [Store.assign, Store.assign, h.owner?_twin]
  cases ho : σ₁.owner? s name with
  | none => exact .error _
  | some t =>
    have ht := h.owner?_ne_extra ho
    simp only [Option.map_some, h.bindings_twin ht, Table.rename, Table.locate?_map]
    cases (σ₁.bindings t).locate? name with
    | none => exact .error _
    | some r =>
      obtain ⟨i, old⟩ := r
      have hconst : (old.rename p.twin).isConst = old.isConst := rfl
      simp only [Option.map_some, hconst]
      split
      · exact .error _
      · exact .ok (h.place ht (b := old.withValue v) hv (.overwritten, i) name)

theorem discard (h : σ₁.Spliced p σ₂) (hs : s ≠ p.extra) :
    Store.Spliced p (σ₁.discard s) (σ₂.discard (p.twin s)) where
  size_eq := by rw [Store.size_discard, Store.size_discard, h.size_eq]
  nextObject_eq := h.nextObject_eq
  scopes_eq t ht := by
    have hi : (p.twin s).index = (p.twin t).index ↔ s.index = t.index := by
      rw [ScopeId.index_inj, ScopeId.index_inj, twin_inj hs ht]
    rw [Store.getElem?_scopes_discard, Store.getElem?_scopes_discard, h.scopes_eq t ht]
    simp only [hi]
    split
    · rw [Option.map_map, Option.map_map]
      refine congrArg (Option.map · _) (funext fun scope => ?_)
      simp [Scope.rename, Table.rename, Table.map_withCapacity]
    · rfl
  bindings_extra := by
    rw [Store.bindings_discard, if_neg hs]
    exact h.bindings_extra
  parent?_extra := by rw [Store.parent?_discard, h.parent?_extra]
  childCapacity_extra := by
    rw [Store.childCapacity_discard, Store.childCapacity_discard, h.childCapacity_extra]
  younger t ht := h.younger t (by rwa [Store.parent?_discard] at ht)
  binds := h.binds.discard s

/-- The extra scope may be discarded, where there is one. -/
theorem discard_extra (h : σ₁.Spliced p σ₂) : Store.Spliced p (σ₁.discard p.extra) σ₂ where
  size_eq := by rw [Store.size_discard, h.size_eq]
  nextObject_eq := h.nextObject_eq
  scopes_eq t ht := by
    rw [Store.getElem?_scopes_discard, if_neg, h.scopes_eq t ht]
    exact fun hi => ht (ScopeId.index_inj.1 hi).symm
  bindings_extra := ⟨0, by rw [Store.bindings_discard, if_pos rfl]⟩
  parent?_extra := by rw [Store.parent?_discard, h.parent?_extra]
  childCapacity_extra := by
    rw [Store.childCapacity_discard, Store.childCapacity_discard, h.childCapacity_extra]
  younger t ht := h.younger t (by rwa [Store.parent?_discard] at ht)
  binds := h.binds.discard _

end Store.Spliced

end Treewalk
