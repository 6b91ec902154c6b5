import Treewalk.Proofs.Limits.Resized
import Treewalk.Proofs.Scope.Held
import Treewalk.Proofs.Scope.Leaving

/-!
# Stores up to the layout of tables

Two stores are the same up to the layout of tables if their scopes are, one by one:
`Store.Resized`. The tables of the second one have room for as much as those of the first one.
Look-ups answer the same in both, and every operation that succeeds on the first one succeeds on
the second one: `Store.Resized.declare` and `Store.Resized.assign`.
-/

namespace Treewalk

/-- Handles that are the same up to the layout of tables. -/
structure Held.Resized (P : Pairing) (h₁ h₂ : Held) : Prop where
  count_eq : ∀ s, h₁.count s = h₂.count s
  objects : ∀ s, List.Forall₂ (Value.Resized P) (h₁.objectsFor s) (h₂.objectsFor s)

/-- Stores that are the same up to the layout of tables, with room in the second one for all that
fits into the first one. -/
structure Store.Resized (P : Pairing) (σ₁ σ₂ : Store) : Prop where
  size_eq : σ₁.scopes.size = σ₂.scopes.size
  parent?_eq : ∀ s, σ₁.parent? s = σ₂.parent? s
  discarded_eq : ∀ s : ScopeId, σ₁.scopes[s.index]?.map Scope.isDiscarded =
    σ₂.scopes[s.index]?.map Scope.isDiscarded
  bindings : ∀ s, (σ₁.bindings s).Resized (Value.Resized P) (σ₂.bindings s)
  capacity_le : ∀ s, (σ₁.bindings s).capacity ≤ (σ₂.bindings s).capacity
  childCapacity_le : ∀ s, σ₁.childCapacity s ≤ σ₂.childCapacity s

namespace Held.Resized

variable {P P' : Pairing} {h h₁ h₂ : Held} {v w : Value}

theorem mono (h : Held.Resized P h₁ h₂) (hP : ∀ i j, P i j → P' i j) : Held.Resized P' h₁ h₂ :=
  ⟨h.count_eq, fun s => (h.objects s).imp fun _ _ h => h.mono hP⟩

theorem empty (P : Pairing) : Held.Resized P .empty .empty :=
  ⟨fun _ => rfl, fun s => by rw [objectsFor_empty]; exact .nil⟩

theorem scope (h : Held.Resized P h₁ h₂) (s : ScopeId) :
    Held.Resized P (h₁.scope s) (h₂.scope s) := by
  refine ⟨fun t => ?_, h.objects⟩
  rw [count_scope, count_scope, h.count_eq]

theorem value (h : Held.Resized P h₁ h₂) (hvw : v.Resized P w) :
    Held.Resized P (h₁.value v) (h₂.value w) := by
  refine ⟨fun t => ?_, fun t => ?_⟩
  · rw [count_value, count_value, h.count_eq]
    cases hvw <;> rfl
  · rw [objectsFor_value, objectsFor_value, hvw.alike.type_eq, hvw.mentions_eq]
    split
    · exact .cons hvw (h.objects t)
    · exact h.objects t

theorem mentions_eq (h : Held.Resized P h₁ h₂) (s : ScopeId) : h₁.mentions s = h₂.mentions s := by
  have hempty : (h₁.objectsFor s).isEmpty = (h₂.objectsFor s).isEmpty := by
    have ho := h.objects s
    generalize h₁.objectsFor s = vs at ho
    generalize h₂.objectsFor s = ws at ho
    cases ho <;> rfl
  rw [mentions, mentions, h.count_eq, hempty]

end Held.Resized

namespace Store.Resized

variable {P P' : Pairing} {σ₁ σ₂ : Store} {v w : Value} {s t : ScopeId}

theorem mono (h : σ₁.Resized P σ₂) (hP : ∀ i j, P i j → P' i j) : σ₁.Resized P' σ₂ :=
  { h with bindings := fun s => (h.bindings s).mono fun _ _ h => h.mono hP }

/-! ## Look-ups -/

theorem chain_eq (h : σ₁.Resized P σ₂) (s : ScopeId) : σ₁.chain s = σ₂.chain s :=
  chain_congr (P := fun _ => True) (fun t _ => h.parent?_eq t) (fun _ _ _ _ _ => trivial) trivial

theorem owner?_eq (h : σ₁.Resized P σ₂) (s : ScopeId) (name : String) :
    σ₁.owner? s name = σ₂.owner? s name := by
  rw [owner?, owner?, h.chain_eq]
  congr 1
  funext t
  exact (h.bindings t).contains_eq name

/-- A name resolves on both sides or on none. -/
theorem resolve (h : σ₁.Resized P σ₂) (s : ScopeId) (name : String) :
    (σ₁.resolve s name = none ∧ σ₂.resolve s name = none) ∨ ∃ b c, σ₁.resolve s name = some b ∧
      σ₂.resolve s name = some c ∧ b.isConst = c.isConst ∧ b.value.Resized P c.value := by
  rw [Store.resolve, Store.resolve, h.chain_eq]
  induction σ₂.chain s with
  | nil => exact .inl ⟨rfl, rfl⟩
  | cons t rest ih =>
    rw [List.findSome?_cons, List.findSome?_cons]
    cases hb : (σ₁.bindings t).get? name with
    | none =>
      rw [(h.bindings t).of_get?_none hb]
      exact ih
    | some b =>
      obtain ⟨c, hc, -, hconst, hbc⟩ := (h.bindings t).of_get? hb
      rw [hc]
      exact .inr ⟨b, c, rfl, rfl, hconst, hbc⟩

/-- Scopes hold the same handles. -/
theorem holds_eq (h : σ₁.Resized P σ₂) (t s : ScopeId) : σ₁.holds t s = σ₂.holds t s := by
  have hm : (σ₁.bindings t).mentions s = (σ₂.bindings t).mentions s := by
    have himp : ∀ {P : Pairing} {t u : Table Binding}, t.Resized (Value.Resized P) u →
        t.mentions s = true → u.mentions s = true := by
      intro P t u h hm
      obtain ⟨v, hv, hm⟩ := Table.mentions_iff.1 hm
      obtain ⟨w, hw, hvw⟩ := h.exists_of_mem_values hv
      exact Table.mentions_iff.2 ⟨w, hw, hvw.mentions_of hm⟩
    exact Bool.eq_iff_iff.2 ⟨himp (h.bindings t),
      himp ((h.bindings t).symm.mono fun _ _ h => h.symm)⟩
  have hp := h.parent?_eq t
  have hd := h.discarded_eq t
  rw [Store.parent?, Store.parent?] at hp
  rw [Store.bindings, Store.bindings] at hm
  rw [holds, holds]
  cases h₁ : σ₁.scopes[t.index]? with
  | none =>
    cases h₂ : σ₂.scopes[t.index]? with
    | none => rfl
    | some scope => simp [h₁, h₂] at hd
  | some scope =>
    cases h₂ : σ₂.scopes[t.index]? with
    | none => simp [h₁, h₂] at hd
    | some scope' =>
      simp only [h₁, h₂, Option.map_some, Option.some.injEq, Option.bind_some] at hd hp hm
      simp only [Option.any_some, Scope.holds, hd, hp, hm]

/-! ## Operations -/

theorem nextObject (h : σ₁.Resized P σ₂) (n m : Nat) :
    Store.Resized P { σ₁ with nextObject := n } { σ₂ with nextObject := m } :=
  ⟨h.size_eq, h.parent?_eq, h.discarded_eq, h.bindings, h.capacity_le, h.childCapacity_le⟩

theorem add (h : σ₁.Resized P σ₂) {n m n' m' : Nat} (hn : n ≤ n') (hm : m ≤ m')
    (parent : Option ScopeId) :
    (σ₁.add n parent m).1 = (σ₂.add n' parent m').1 ∧
      (σ₁.add n parent m).2.Resized P (σ₂.add n' parent m').2 := by
  refine ⟨ScopeId.index_inj.1 h.size_eq, ?_⟩
  refine ⟨by rw [size_add, size_add, h.size_eq], fun s => ?_, fun s => ?_, fun s => ?_, fun s => ?_,
    fun s => ?_⟩
  · rw [parent?_add, parent?_add, h.size_eq, h.parent?_eq]
  · rw [getElem?_scopes_add, getElem?_scopes_add, h.size_eq]
    split
    · rfl
    · exact h.discarded_eq s
  · rw [bindings_add, bindings_add, h.size_eq]
    split
    · exact .withCapacity _ n n'
    · exact h.bindings s
  · rw [bindings_add, bindings_add, h.size_eq]
    split
    · rwa [Table.capacity_withCapacity, Table.capacity_withCapacity]
    · exact h.capacity_le s
  · rw [childCapacity_add, childCapacity_add, h.size_eq]
    split
    · exact hm
    · exact h.childCapacity_le s

theorem child (h : σ₁.Resized P σ₂) (s : ScopeId) :
    (σ₁.child s).1 = (σ₂.child s).1 ∧ (σ₁.child s).2.Resized P (σ₂.child s).2 :=
  h.add (h.childCapacity_le s) (h.childCapacity_le s) (some s)

theorem discarded_place (σ : Store) (s t : ScopeId) (p : Table.SetOutcome × Nat) (key : String)
    (b : Binding) :
    (σ.place s p key b).scopes[t.index]?.map Scope.isDiscarded =
      σ.scopes[t.index]?.map Scope.isDiscarded := by
  rw [getElem?_scopes_place]
  split
  · rw [Option.map_map]
    rfl
  · rfl

/-- A key written in one scope on both sides. -/
theorem place (h : σ₁.Resized P σ₂) {p q : Table.SetOutcome × Nat} {key : String}
    {b c : Binding} (hs : ((σ₁.bindings s).write p key b).Resized (Value.Resized P)
      ((σ₂.bindings s).write q key c)) :
    (σ₁.place s p key b).Resized P (σ₂.place s q key c) := by
  refine ⟨by rw [size_place, size_place, h.size_eq], fun t => ?_, fun t => ?_, fun t => ?_,
    fun t => ?_, fun t => ?_⟩
  · rw [parent?_place, parent?_place, h.parent?_eq]
  · rw [discarded_place, discarded_place, h.discarded_eq]
  · rw [bindings_place, bindings_place]
    split
    · next hst => exact hst ▸ hs
    · exact h.bindings t
  · rw [bindings_place, bindings_place]
    split
    · rw [Table.capacity_write, Table.capacity_write]
      exact h.capacity_le t
    · exact h.capacity_le t
  · rw [childCapacity_place, childCapacity_place]
    exact h.childCapacity_le t

/-- A name that can be declared on the first side can be declared on the second one. -/
theorem declare (h : σ₁.Resized P σ₂) (hvw : v.Resized P w) {name : String} {isConst : Bool}
    {b : Binding} {σ₁' : Store} (hd : σ₁.declare s name v isConst = .ok (b, σ₁')) :
    ∃ c σ₂', σ₂.declare s name w isConst = .ok (c, σ₂') ∧ σ₁'.Resized P σ₂' := by
  obtain ⟨-, p, hp, rfl⟩ := declare_eq_ok hd
  obtain ⟨q, hq, -⟩ := (h.bindings s).exists_place? (h.capacity_le s) hp
  refine ⟨⟨name, isConst, w⟩, σ₂.place s q name ⟨name, isConst, w⟩, ?_, ?_⟩
  · unfold Store.declare
    rw [hq]
  · exact h.place ((h.bindings s).place hp hq rfl rfl hvw)

/-- A variable assigned on both sides: the fault is the same, if there is one. -/
theorem assign (h : σ₁.Resized P σ₂) (hvw : v.Resized P w) (s : ScopeId) (name : String) :
    (∃ fault, σ₁.assign s name v = .error fault ∧ σ₂.assign s name w = .error fault) ∨
      ∃ b c σ₁' σ₂', σ₁.assign s name v = .ok (b, σ₁') ∧ σ₂.assign s name w = .ok (c, σ₂') ∧
        σ₁'.Resized P σ₂' := by
  unfold Store.assign
  rw [h.owner?_eq]
  cases σ₂.owner? s name with
  | none => exact .inl ⟨_, rfl, rfl⟩
  | some t =>
    dsimp only
    have ht := (h.bindings t).bindings name
    rw [Table.get?, Table.get?] at ht
    cases hb : (σ₁.bindings t).locate? name with
    | none =>
      cases hc : (σ₂.bindings t).locate? name with
      | none => exact .inl ⟨_, rfl, rfl⟩
      | some q => rw [hb, hc] at ht; cases ht
    | some p =>
      cases hc : (σ₂.bindings t).locate? name with
      | none => rw [hb, hc] at ht; cases ht
      | some q =>
        obtain ⟨i, b⟩ := p
        obtain ⟨j, c⟩ := q
        rw [hb, hc] at ht
        obtain ⟨-, hconst, -⟩ : b.name = c.name ∧ b.isConst = c.isConst ∧
            b.value.Resized P c.value := by
          cases ht with
          | some hbc => exact hbc
        dsimp only
        rw [hconst]
        by_cases hcc : c.isConst = true
        · rw [if_pos hcc, if_pos hcc]
          exact .inl ⟨_, rfl, rfl⟩
        · rw [if_neg hcc, if_neg hcc]
          exact .inr ⟨_, _, _, _, rfl, rfl, h.place ((h.bindings t).overwrite hb hc hvw)⟩

theorem discard (h : σ₁.Resized P σ₂) (s : ScopeId) : (σ₁.discard s).Resized P (σ₂.discard s) := by
  refine ⟨by rw [size_discard, size_discard, h.size_eq], fun t => ?_, fun t => ?_, fun t => ?_,
    fun t => ?_, fun t => ?_⟩
  · rw [parent?_discard, parent?_discard, h.parent?_eq]
  · have hd := h.discarded_eq t
    rw [getElem?_scopes_discard, getElem?_scopes_discard]
    split
    · cases h₁ : σ₁.scopes[t.index]? <;> cases h₂ : σ₂.scopes[t.index]? <;> simp [h₁, h₂] at hd ⊢
    · exact hd
  · rw [bindings_discard, bindings_discard]
    split
    · exact .withCapacity _ 0 0
    · exact h.bindings t
  · rw [bindings_discard, bindings_discard]
    split
    · exact Nat.le_refl _
    · exact h.capacity_le t
  · rw [childCapacity_discard, childCapacity_discard]
    exact h.childCapacity_le t

end Store.Resized

end Treewalk
