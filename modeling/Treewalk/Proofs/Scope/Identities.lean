import Mathlib.Data.Set.Insert
import Treewalk.Proofs.Scope.Binds
import Treewalk.Proofs.Scope.Leaving
import Treewalk.Proofs.Value.Copy

/-!
# What identities stand for during an evaluation

Every identity stands for one object, wherever the object is: bound in a scope, held by the
evaluations in progress, by the host or by its world. `Identities` says so of a moment of an
evaluation. Every operation keeps it, since all that makes objects numbers them anew:
`Identities.copy` and `Identities.object`. Natives have to do the same: `Host.NumbersObjects`.
-/

namespace Treewalk

/-! ## Stores -/

namespace Store

variable {σ : Store} {s : ScopeId} {T : ObjectId → Table Binding}

theorem Obeys.binds (h : σ.Obeys T) : σ.Binds fun v => v.Obeys T σ.nextObject := h

theorem Obeys.add (h : σ.Obeys T) (capacity : Nat) (parent : Option ScopeId)
    (childCapacity : Nat) : (σ.add capacity parent childCapacity).2.Obeys T :=
  h.binds.add capacity parent childCapacity

theorem Obeys.place (h : σ.Obeys T) {b : Binding} (hb : b.value.Obeys T σ.nextObject)
    (s : ScopeId) (p : Table.SetOutcome × Nat) (key : String) : (σ.place s p key b).Obeys T :=
  h.binds.place hb s p key

theorem Obeys.declare {σ' : Store} {name : String} {v : Value} {isConst : Bool} {b : Binding}
    (h : σ.Obeys T) (hv : v.Obeys T σ.nextObject)
    (hd : σ.declare s name v isConst = .ok (b, σ')) :
    σ'.Obeys T ∧ σ'.nextObject = σ.nextObject := by
  obtain ⟨-, p, -, rfl⟩ := declare_eq_ok hd
  exact ⟨h.place hv s p name, rfl⟩

theorem Obeys.assign {σ' : Store} {name : String} {v : Value} {b : Binding} (h : σ.Obeys T)
    (hv : v.Obeys T σ.nextObject) (ha : σ.assign s name v = .ok (b, σ')) :
    σ'.Obeys T ∧ σ'.nextObject = σ.nextObject := by
  obtain ⟨t, i, old, -, -, -, -, rfl⟩ := assign_eq_ok ha
  exact ⟨h.place hv t (.overwritten, i) name, rfl⟩

theorem Obeys.discard (h : σ.Obeys T) (s : ScopeId) : (σ.discard s).Obeys T :=
  h.binds.discard s

theorem Obeys.leave (h : σ.Obeys T) (outside : List Held) (s : ScopeId) :
    (σ.leave outside s).Obeys T ∧ (σ.leave outside s).nextObject = σ.nextObject := by
  obtain he | he := σ.leave_cases outside s
  · rw [he]
    exact ⟨h.discard s, rfl⟩
  · rw [he]
    exact ⟨h, rfl⟩

/-- More identities may come into use. -/
theorem Obeys.nextObject {T' : ObjectId → Table Binding} {next : Nat} (h : σ.Obeys T)
    (hT : ∀ i : ObjectId, i.index < σ.nextObject → T' i = T i) (hn : σ.nextObject ≤ next) :
    Store.Obeys T' { σ with nextObject := next } :=
  fun t v hv => (h t v hv).mono hT hn

theorem Obeys.resolve (h : σ.Obeys T) {name : String} {b : Binding}
    (hb : σ.resolve s name = some b) : b.value.Obeys T σ.nextObject :=
  h.binds.resolve hb

end Store

/-! ## Evaluations -/

/-- The values of the first evaluation in a context. -/
def Context.lefts (Γ : Context) : Set Value := {v | ∃ w, .value v w ∈ Γ}

/-- The values of the second evaluation in a context. -/
def Context.rights (Γ : Context) : Set Value := {w | ∃ v, .value v w ∈ Γ}

theorem Context.lefts_cons_value {v w : Value} {Γ : Context} :
    lefts (.value v w :: Γ) = insert v Γ.lefts := by
  ext x
  simp only [lefts, List.mem_cons, Handle.value.injEq, Set.mem_ofPred_eq, Set.mem_insert_iff]
  constructor
  · rintro ⟨y, ⟨rfl, -⟩ | hm⟩
    · exact .inl rfl
    · exact .inr ⟨y, hm⟩
  · rintro (rfl | ⟨y, hm⟩)
    · exact ⟨w, .inl ⟨rfl, rfl⟩⟩
    · exact ⟨y, .inr hm⟩

theorem Context.lefts_cons_scope {s : ScopeId} {Γ : Context} : lefts (.scope s :: Γ) = Γ.lefts := by
  ext x
  simp [lefts]

theorem Context.rights_cons_value {v w : Value} {Γ : Context} :
    rights (.value v w :: Γ) = insert w Γ.rights := by
  ext x
  simp only [rights, List.mem_cons, Handle.value.injEq, Set.mem_ofPred_eq, Set.mem_insert_iff]
  constructor
  · rintro ⟨y, ⟨-, rfl⟩ | hm⟩
    · exact .inl rfl
    · exact .inr ⟨y, hm⟩
  · rintro (rfl | ⟨y, hm⟩)
    · exact ⟨v, .inl ⟨rfl, rfl⟩⟩
    · exact ⟨y, .inr hm⟩

theorem Context.rights_cons_scope {s : ScopeId} {Γ : Context} :
    rights (.scope s :: Γ) = Γ.rights := by
  ext x
  simp [rights]

/-- What identities stand for, in a store, in values held and in the handles of a host and of its
world. -/
structure Identities (T : ObjectId → Table Binding) (σ : Store) (vs : Set Value)
    (base world : Held) : Prop where
  store : σ.Obeys T
  values : ∀ v ∈ vs, v.Obeys T σ.nextObject
  base : base.Obeys T σ.nextObject
  world : world.Obeys T σ.nextObject

/-- Natives make objects with identities of their own, and leave all others as they are. -/
def Host.NumbersObjects {ω : Type} (host : Host ω) : Prop :=
  ∀ ⦃T : ObjectId → Table Binding⦄ ⦃σ : Store⦄ (f : NativeFunction) ⦃args : List Value⦄
    (env : ScopeId) ⦃w : ω⦄, σ.Obeys T → (∀ v ∈ args, v.Obeys T σ.nextObject) →
    (host.held w).Obeys T σ.nextObject →
    let a := host.call f args env σ w
    ∃ T' : ObjectId → Table Binding, (∀ i : ObjectId, i.index < σ.nextObject → T' i = T i) ∧
      σ.nextObject ≤ a.2.1.nextObject ∧ a.2.1.Obeys T' ∧
        (∀ v, a.1 = .ok v → v.Obeys T' a.2.1.nextObject) ∧
          (host.held a.2.2).Obeys T' a.2.1.nextObject

namespace Identities

variable {T T' : ObjectId → Table Binding} {σ σ' : Store} {vs vs' : Set Value}
variable {base world : Held} {v : Value} {s : ScopeId}

theorem mono (h : Identities T σ vs base world) (hs : vs' ⊆ vs) : Identities T σ vs' base world :=
  { h with values := fun v hv => h.values v (hs hv) }

/-- One more value may be held. -/
theorem hold (h : Identities T σ vs base world) (hv : v.Obeys T σ.nextObject) :
    Identities T σ (insert v vs) base world :=
  { h with
    values := fun w hw => by
      rcases hw with rfl | hw
      · exact hv
      · exact h.values w hw }

/-- The store changes, and no objects are made. -/
theorem withStore (h : Identities T σ vs base world) (hσ : σ'.Obeys T)
    (hn : σ'.nextObject = σ.nextObject) : Identities T σ' vs base world where
  store := hσ
  values v hv := hn ▸ h.values v hv
  base := hn ▸ h.base
  world := hn ▸ h.world

/-- More identities come into use, and all that was known of the others stays. -/
theorem renumber (h : Identities T σ vs base world) {next : Nat}
    (hT : ∀ i : ObjectId, i.index < σ.nextObject → T' i = T i) (hn : σ.nextObject ≤ next) :
    Identities T' { σ with nextObject := next } vs base world where
  store := h.store.nextObject hT hn
  values v hv := (h.values v hv).mono hT hn
  base := h.base.mono hT hn
  world := h.world.mono hT hn

/-- A property of an object held. -/
theorem property (h : Identities T σ vs base world) {id : ObjectId} {t : Table Binding}
    (ho : .object id t ∈ vs) (hv : v ∈ t.values) : v.Obeys T σ.nextObject :=
  (Value.obeys_object.1 (h.values _ ho)).2 v hv

/-- A copy of a value held. -/
theorem copy (h : Identities T σ vs base world) (v : Value) :
    ∃ T', Identities T' (σ.copy v).2 (insert (σ.copy v).1 vs) base world := by
  obtain ⟨T', hT, ho⟩ := v.exists_obeys_copy T σ.nextObject
  exact ⟨T', (h.renumber hT (v.le_copy σ.nextObject)).hold ho⟩

/-- A new object of values held. -/
theorem object (h : Identities T σ vs base world) {t : Table Binding}
    (ht : ∀ v ∈ t.values, v ∈ vs) :
    ∃ T', Identities T' (σ.object t).2 (insert (σ.object t).1 vs) base world := by
  let T' := fun i => if i = ⟨σ.nextObject⟩ then t else T i
  have hT : ∀ i : ObjectId, i.index < σ.nextObject → T' i = T i := by
    intro i hi
    refine if_neg ?_
    rintro rfl
    exact Nat.lt_irrefl _ hi
  refine ⟨T', (h.renumber hT (Nat.le_succ _)).hold (Value.obeys_object.2
    ⟨⟨(if_pos rfl).symm, Nat.lt_succ_self _⟩, fun v hv => ?_⟩)⟩
  exact (h.values v (ht v hv)).mono hT (Nat.le_succ _)

theorem outside {held : Held} (h : Identities T σ vs base world)
    (hh : held.Obeys T σ.nextObject) :
    ∀ x ∈ [held, world], ∀ v ∈ x.objectsFor s, v.Obeys T σ.nextObject := by
  intro x hx v hv
  rcases List.mem_cons.1 hx with rfl | hx
  · exact hh s v hv
  · obtain rfl := List.mem_singleton.1 hx
    exact h.world s v hv

/-- What is held outside the store at the end of the first evaluation in a scope. -/
theorem outside_left {Γ : Context} (h : Identities T σ Γ.lefts base world) :
    ∀ x ∈ [Γ.left base, world], ∀ v ∈ x.objectsFor s, v.Obeys T σ.nextObject :=
  h.outside (Context.obeys_left h.base fun v w hm => h.values v ⟨w, hm⟩)

/-- What is held outside the store at the end of the second evaluation in a scope. -/
theorem outside_right {Γ : Context} (h : Identities T σ Γ.rights base world)
    (twin : ScopeId → ScopeId) :
    ∀ x ∈ [Γ.right twin base, world], ∀ v ∈ x.objectsFor s, v.Obeys T σ.nextObject :=
  h.outside (Context.obeys_right twin h.base fun v w hm => h.values w ⟨v, hm⟩)

/-- A native called with values held. -/
theorem call {ω : Type} {host : Host ω} {w : ω}
    (h : Identities T σ vs base (host.held w)) (hh : host.NumbersObjects) (f : NativeFunction)
    {args : List Value} (env : ScopeId) (hargs : ∀ v ∈ args, v ∈ vs) :
    let a := host.call f args env σ w
    ∃ T', Identities T' a.2.1 vs base (host.held a.2.2) ∧
      ∀ v, a.1 = .ok v → v.Obeys T' a.2.1.nextObject := by
  obtain ⟨T', hT, hn, hσ, hv, hw⟩ :=
    hh f env h.store (fun v hm => h.values v (hargs v hm)) h.world
  exact ⟨T', ⟨hσ, fun v hm => (h.values v hm).mono hT hn, h.base.mono hT hn, hw⟩, hv⟩

end Identities

end Treewalk
