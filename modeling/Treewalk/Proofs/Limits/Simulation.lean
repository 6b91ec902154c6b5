import Treewalk.Proofs.Limits.Count
import Treewalk.Proofs.Scope.Identities
import Treewalk.Proofs.Simulation.Exec

/-!
# Evaluation with lower and with higher limits

Two evaluations run side by side, the second one with limits that leave room for more. Their stores
are the same up to the layout of tables, until the first one fails for want of room.

* `Host.IgnoresLayout` is what natives have to keep to.
* `Matched` ties the two evaluations, `limitsSimulation` shows that every operation keeps the tie.
-/

namespace Treewalk

/-- Failures for want of room. -/
def ErrorCause.IsLimit : ErrorCause → Prop
  | .tableOverflow _ => True
  | .stackOverflow _ => True
  | _ => False

/-- Limits with room for no more than others, and the same loop variable. -/
structure Config.AtMost (c c' : Config) : Prop where
  globalCapacity : c.globalCapacity ≤ c'.globalCapacity
  scopeCapacity : c.scopeCapacity ≤ c'.scopeCapacity
  objectCapacity : c.objectCapacity ≤ c'.objectCapacity
  maxCallDepth : c.maxCallDepth ≤ c'.maxCallDepth
  loopVariable : c.loopVariable = c'.loopVariable

/-- A pairing of the objects of two stores, one to one. -/
structure Pairing.Fits (P : Pairing) (σ₁ σ₂ : Store) : Prop where
  biUnique : Relator.BiUnique P
  within : P.Within 0 σ₁.nextObject 0 σ₂.nextObject

/-- New objects are paired besides those paired so far. -/
theorem Pairing.Fits.union {P Q : Pairing} {σ₁ σ₂ : Store} {n m : Nat} (h : P.Fits σ₁ σ₂)
    (hQ : Relator.BiUnique Q) (hw : Q.Within σ₁.nextObject n σ₂.nextObject m)
    (hn : σ₁.nextObject ≤ n) (hm : σ₂.nextObject ≤ m) :
    Pairing.Fits (fun i j => P i j ∨ Q i j) { σ₁ with nextObject := n }
      { σ₂ with nextObject := m } := by
  refine ⟨biUnique_iff.2 ?_, ?_⟩
  · have hne : ∀ {i j i' j'}, P i j → Q i' j' → i ≠ i' ∧ j ≠ j' := by
      intro i j i' j' hij hij'
      have hlt := h.within i j hij
      have hge := hw i' j' hij'
      constructor
      · rintro rfl
        omega
      · rintro rfl
        omega
    rintro i j i' j' (hij | hij) (hij' | hij')
    · exact biUnique_iff.1 h.biUnique i j i' j' hij hij'
    · exact iff_of_false (hne hij hij').1 (hne hij hij').2
    · exact iff_of_false (hne hij' hij).1.symm (hne hij' hij).2.symm
    · exact biUnique_iff.1 hQ i j i' j' hij hij'
  · rintro i j (hij | hij)
    · have hlt := h.within i j hij
      dsimp only
      omega
    · have hlt := hw i j hij
      dsimp only
      omega

/-- Natives do the same whatever the layout and the capacity of tables, unless they fail for want
of room. They print the same text.

`World` says when two worlds are the same up to the layout of tables. -/
structure Host.IgnoresLayout {ω α : Type} (host : Host ω) (World : Pairing → ω → ω → Prop)
    (printed : ω → α) : Prop where
  identities : host.NumbersObjects
  mono : ∀ {P P' : Pairing} {w w' : ω}, (∀ i j, P i j → P' i j) → World P w w' → World P' w w'
  held : ∀ {P : Pairing} {w w' : ω}, World P w w' → Held.Resized P (host.held w) (host.held w')
  printed_eq : ∀ {P : Pairing} {w w' : ω}, World P w w' → printed w = printed w'
  call : ∀ {P : Pairing} {σ₁ σ₂ : Store} (f : NativeFunction) {args args' : List Value}
    (env : ScopeId) {w w' : ω}, P.Fits σ₁ σ₂ → σ₁.Resized P σ₂ →
    List.Forall₂ (Value.Resized P) args args' → World P w w' →
    let a := host.call f args env σ₁ w
    let b := host.call f args' env σ₂ w'
    (∃ e, a.1 = .error e ∧ e.cause.IsLimit) ∨ ∃ P' : Pairing, (∀ i j, P i j → P' i j) ∧
      P'.Fits a.2.1 b.2.1 ∧ a.2.1.Resized P' b.2.1 ∧ World P' a.2.2 b.2.2 ∧
        Corresponds (fun _ => False) (Value.Resized P') a.1 b.1

/-! ## The relation -/

variable {ω α : Type}

/-- Two evaluations whose stores, values and worlds are the same up to the layout of tables, with
what the identities of objects stand for on either side. -/
structure Matched (host : Host ω) (World : Pairing → ω → ω → Prop) (base : Held) (P : Pairing)
    (T₁ T₂ : ObjectId → Table Binding) (Γ : Context) (σ₁ : Store) (w₁ : ω) (σ₂ : Store)
    (w₂ : ω) : Prop where
  fits : P.Fits σ₁ σ₂
  stores : σ₁.Resized P σ₂
  context : ∀ v w, .value v w ∈ Γ → v.Resized P w
  world : World P w₁ w₂
  left : Identities T₁ σ₁ Γ.lefts base (host.held w₁)
  right : Identities T₂ σ₂ Γ.rights base (host.held w₂)

/-- The handles of two evaluations are the same up to layout. -/
theorem Context.resized {P : Pairing} {base : Held} (hb : Held.Resized P base base) {Γ : Context}
    (h : ∀ v w, .value v w ∈ Γ → v.Resized P w) :
    Held.Resized P (Γ.left base) (Γ.right id base) := by
  induction Γ with
  | nil => exact hb
  | cons x Γ ih =>
    have ih := ih fun v w hm => h v w (List.mem_cons_of_mem x hm)
    cases x with
    | scope s => exact ih.scope s
    | value v w => exact ih.value (h v w List.mem_cons_self)

theorem exists_of_forall₂ {β γ : Type} {R : β → γ → Prop} {bs : List β} {cs : List γ}
    (h : List.Forall₂ R bs cs) {b : β} (hb : b ∈ bs) : ∃ c, R b c := by
  induction h with
  | nil => exact (List.not_mem_nil hb).elim
  | @cons _ c _ _ hbc _ ih =>
    rcases List.mem_cons.1 hb with rfl | hb
    · exact ⟨c, hbc⟩
    · exact ih hb

namespace Matched

variable {host : Host ω} {World : Pairing → ω → ω → Prop} {printed : ω → α} {base : Held}
variable {P P' : Pairing} {T₁ T₂ T₁' T₂' : ObjectId → Table Binding} {Γ Γ' : Context}
variable {σ₁ σ₂ : Store} {w₁ w₂ : ω} {v w : Value} {s : ScopeId}

theorem weaken (h : Matched host World base P T₁ T₂ Γ σ₁ w₁ σ₂ w₂) (hs : Γ' ⊆ Γ) :
    Matched host World base P T₁ T₂ Γ' σ₁ w₁ σ₂ w₂ :=
  { h with
    context := fun v w hm => h.context v w (hs hm)
    left := h.left.mono fun _ ⟨w, hm⟩ => ⟨w, hs hm⟩
    right := h.right.mono fun _ ⟨v, hm⟩ => ⟨v, hs hm⟩ }

theorem holdValue (h : Matched host World base P T₁ T₂ Γ σ₁ w₁ σ₂ w₂) (hvw : v.Resized P w)
    (hv : v.Obeys T₁ σ₁.nextObject) (hw : w.Obeys T₂ σ₂.nextObject) :
    Matched host World base P T₁ T₂ (.value v w :: Γ) σ₁ w₁ σ₂ w₂ :=
  { h with
    context := fun v' w' hm => by
      rcases List.mem_cons.1 hm with hm | hm
      · cases hm
        exact hvw
      · exact h.context v' w' hm
    left := (h.left.hold hv).mono Context.lefts_cons_value.subset
    right := (h.right.hold hw).mono Context.rights_cons_value.subset }

/-- A value without objects may be held. -/
theorem holdLeaf (h : Matched host World base P T₁ T₂ Γ σ₁ w₁ σ₂ w₂) (hv : v.type ≠ .object) :
    Matched host World base P T₁ T₂ (.value v v :: Γ) σ₁ w₁ σ₂ w₂ :=
  h.holdValue (.leaf hv) (Value.obeys_of_type_ne hv) (Value.obeys_of_type_ne hv)

theorem holdScope (h : Matched host World base P T₁ T₂ Γ σ₁ w₁ σ₂ w₂) (s : ScopeId) :
    Matched host World base P T₁ T₂ (.scope s :: Γ) σ₁ w₁ σ₂ w₂ :=
  { h with
    context := fun v w hm => by
      rcases List.mem_cons.1 hm with hm | hm
      · cases hm
      · exact h.context v w hm
    left := h.left.mono Context.lefts_cons_scope.subset
    right := h.right.mono Context.rights_cons_scope.subset }

/-- The stores change on both sides, and no objects are made. -/
theorem withStores (h : Matched host World base P T₁ T₂ Γ σ₁ w₁ σ₂ w₂) {σ₁' σ₂' : Store}
    (hs : σ₁'.Resized P σ₂') (h₁ : σ₁'.Obeys T₁ ∧ σ₁'.nextObject = σ₁.nextObject)
    (h₂ : σ₂'.Obeys T₂ ∧ σ₂'.nextObject = σ₂.nextObject) :
    Matched host World base P T₁ T₂ Γ σ₁' w₁ σ₂' w₂ :=
  { h with
    fits := ⟨h.fits.biUnique, by rw [h₁.2, h₂.2]; exact h.fits.within⟩
    stores := hs
    left := h.left.withStore h₁.1 h₁.2
    right := h.right.withStore h₂.1 h₂.2 }

/-- Values made on both sides, with new objects that are paired. -/
theorem holdMade (h : Matched host World base P T₁ T₂ Γ σ₁ w₁ σ₂ w₂)
    (hh : host.IgnoresLayout World printed) {n m : Nat} (hP : ∀ i j, P i j → P' i j)
    (hf : P'.Fits { σ₁ with nextObject := n } { σ₂ with nextObject := m }) (hvw : v.Resized P' w)
    (h₁ : Identities T₁' { σ₁ with nextObject := n } (insert v Γ.lefts) base (host.held w₁))
    (h₂ : Identities T₂' { σ₂ with nextObject := m } (insert w Γ.rights) base (host.held w₂)) :
    Matched host World base P' T₁' T₂' (.value v w :: Γ) { σ₁ with nextObject := n } w₁
      { σ₂ with nextObject := m } w₂ where
  fits := hf
  stores := (h.stores.mono hP).nextObject n m
  context v' w' hm := by
    rcases List.mem_cons.1 hm with hm | hm
    · cases hm
      exact hvw
    · exact (h.context v' w' hm).mono hP
  world := hh.mono hP h.world
  left := h₁.mono Context.lefts_cons_value.subset
  right := h₂.mono Context.rights_cons_value.subset

/-- Copies of values held. -/
theorem holdCopy (h : Matched host World base P T₁ T₂ Γ σ₁ w₁ σ₂ w₂)
    (hh : host.IgnoresLayout World printed) (hm : .value v w ∈ Γ) :
    ∃ P' T₁' T₂', Matched host World base P' T₁' T₂'
      (.value (σ₁.copy v).1 (σ₂.copy w).1 :: Γ) (σ₁.copy v).2 w₁ (σ₂.copy w).2 w₂ := by
  obtain ⟨T₁', h₁⟩ := h.left.copy v
  obtain ⟨T₂', h₂⟩ := h.right.copy w
  obtain ⟨Q, hQ, hw, hr⟩ := (h.context v w hm).exists_copy σ₁.nextObject σ₂.nextObject
  have hf := h.fits.union hQ hw (v.le_copy _) (w.le_copy _)
  exact ⟨_, T₁', T₂', h.holdMade hh (fun _ _ => .inl) hf (hr.mono fun _ _ => .inr) h₁ h₂⟩

/-- New objects of values held. -/
theorem holdObject (h : Matched host World base P T₁ T₂ Γ σ₁ w₁ σ₂ w₂)
    (hh : host.IgnoresLayout World printed) {t u : Table Binding}
    (ht : t.Resized (fun v w => .value v w ∈ Γ) u) :
    ∃ P' T₁' T₂', Matched host World base P' T₁' T₂'
      (.value (σ₁.object t).1 (σ₂.object u).1 :: Γ) (σ₁.object t).2 w₁ (σ₂.object u).2 w₂ := by
  obtain ⟨T₁', h₁⟩ := h.left.object fun v hv => by
    obtain ⟨w, -, hm⟩ := ht.exists_of_mem_values hv
    exact ⟨w, hm⟩
  obtain ⟨T₂', h₂⟩ := h.right.object fun w hw => by
    obtain ⟨v, -, hm⟩ := ht.symm.exists_of_mem_values hw
    exact ⟨v, hm⟩
  let Q : Pairing := fun i j => i = ⟨σ₁.nextObject⟩ ∧ j = ⟨σ₂.nextObject⟩
  have hQ : Relator.BiUnique Q := biUnique_iff.2 fun i j i' j' hij hij' => by
    rw [hij.1, hij.2, hij'.1, hij'.2]
    simp
  have hw : Q.Within σ₁.nextObject (σ₁.nextObject + 1) σ₂.nextObject (σ₂.nextObject + 1) := by
    rintro i j ⟨rfl, rfl⟩
    exact ⟨⟨Nat.le_refl _, Nat.lt_succ_self _⟩, Nat.le_refl _, Nat.lt_succ_self _⟩
  have hf := h.fits.union hQ hw (Nat.le_succ _) (Nat.le_succ _)
  refine ⟨_, T₁', T₂', h.holdMade hh (fun _ _ => .inl) hf ?_ h₁ h₂⟩
  exact Value.resized_object.2 ⟨.inr ⟨rfl, rfl⟩,
    ht.mono fun v w hm => (h.context v w hm).mono fun _ _ => .inl⟩

/-- Leaving a scope: it is discarded on both sides or on none. -/
theorem leave (h : Matched host World base P T₁ T₂ (.scope s :: Γ) σ₁ w₁ σ₂ w₂)
    (hh : host.IgnoresLayout World printed) (hb : Held.Resized P base base) :
    Matched host World base P T₁ T₂ Γ (σ₁.leave [Γ.left base, host.held w₁] s) w₁
      (σ₂.leave [Γ.right id base, host.held w₂] s) w₂ := by
  have h := h.weaken (List.subset_cons_self _ Γ)
  have hout : List.Forall₂ (Held.Resized P) [Γ.left base, host.held w₁]
      [Γ.right id base, host.held w₂] :=
    .cons (Context.resized hb h.context) (.cons (hh.held h.world) .nil)
  have hcount := h.stores.handleCount_eq h.fits.biUnique hout h.left.outside_left
    (h.right.outside_right id) h.left.store h.right.store (s := s)
  refine h.withStores ?_ (h.left.store.leave _ s) (h.right.store.leave _ s)
  rw [Store.leave, Store.leave, hcount]
  split
  · exact h.stores.discard s
  · exact h.stores

/-- A native called on both sides. -/
theorem call (h : Matched host World base P T₁ T₂ Γ σ₁ w₁ σ₂ w₂)
    (hh : host.IgnoresLayout World printed) (f : NativeFunction) {args args' : List Value}
    (s : ScopeId) (hargs : List.Forall₂ (fun v w => .value v w ∈ Γ) args args') :
    let a := host.call f args s σ₁ w₁
    let b := host.call f args' s σ₂ w₂
    (∃ e, a.1 = .error e ∧ e.cause.IsLimit) ∨ ∃ P' T₁' T₂',
      Matched host World base P' T₁' T₂' Γ a.2.1 a.2.2 b.2.1 b.2.2 ∧
        ((∃ e, a.1 = .error e ∧ b.1 = .error e) ∨ ∃ v w, a.1 = .ok v ∧ b.1 = .ok w ∧
          v.Resized P' w ∧ v.Obeys T₁' a.2.1.nextObject ∧ w.Obeys T₂' b.2.1.nextObject) := by
  have hl : ∀ v ∈ args, v ∈ Γ.lefts := fun v hv => exists_of_forall₂ hargs hv
  have hr : ∀ w ∈ args', w ∈ Γ.rights := fun w hw => exists_of_forall₂ hargs.flip hw
  obtain ⟨T₁', h₁, ho₁⟩ := h.left.call hh.identities f s hl
  obtain ⟨T₂', h₂, ho₂⟩ := h.right.call hh.identities f s hr
  obtain he | ⟨P', hP, hf, hs, hw, hvw⟩ :=
    hh.call f s h.fits h.stores (hargs.imp h.context) h.world
  · exact .inl he
  · refine .inr ⟨P', T₁', T₂', ⟨hf, hs, fun v w hm => (h.context v w hm).mono hP, hw, h₁, h₂⟩, ?_⟩
    generalize host.call f args s σ₁ w₁ = a at hvw ho₁ ⊢
    generalize host.call f args' s σ₂ w₂ = b at hvw ho₂ ⊢
    obtain ⟨r, σ₁', w₁'⟩ := a
    obtain ⟨r', σ₂', w₂'⟩ := b
    dsimp only at hvw ho₁ ho₂ ⊢
    cases hvw with
    | @ok v w hvw => exact .inr ⟨v, w, rfl, rfl, hvw, ho₁ v rfl, ho₂ w rfl⟩
    | error e => exact .inl ⟨e, rfl, rfl⟩
    | excused hx => exact hx.elim

end Matched

/-- **Lower and higher limits, side by side.** -/
def limitsSimulation {c c' : Config} (hc : c.AtMost c') {host : Host ω}
    {World : Pairing → ω → ω → Prop} {printed : ω → α} (hh : host.IgnoresLayout World printed)
    (globals : ScopeId) :
    Simulation (Setting.releasing c host) (Setting.releasing c' host) where
  like := .same
  twin s := s
  left := Held.empty.scope globals
  right := Held.empty.scope globals
  Around _ := True
  Rel Γ σ₁ w₁ σ₂ w₂ := ∃ P T₁ T₂,
    Matched host World (Held.empty.scope globals) P T₁ T₂ Γ σ₁ w₁ σ₂ w₂
  Excuses := ErrorCause.IsLimit
  Open _ := True
  Callable _ := True
  New _ := True
  Tables t u := t.capacity ≤ u.capacity ∧ t.Resized (fun _ _ => True) u
  loopVariable_eq := hc.loopVariable
  maxCallDepth_le := hc.maxCallDepth
  excuses_of_lt _ := trivial
  open_of_new _ := trivial
  callable_of_open _ := trivial
  weaken hs := fun ⟨P, T₁, T₂, h⟩ => ⟨P, T₁, T₂, h.weaken hs⟩
  alike := fun ⟨_, _, _, h⟩ hm => (h.context _ _ hm).alike
  closure := fun ⟨_, _, _, h⟩ hm => by
    obtain rfl := Value.function.inj ((h.context _ _ hm).eq_of_type (by simp [Value.type]))
    rfl
  plain := fun {_ _ _ _ _ v} ⟨P, T₁, T₂, h⟩ hv => by
    have htype : v.type ≠ .object := by
      cases v <;> first | exact (show False from hv.isPlain).elim | simp [Value.type]
    exact ⟨P, T₁, T₂, h.holdLeaf htype⟩
  function := fun ⟨P, T₁, T₂, h⟩ hcode _ _ name => by
    obtain rfl := hcode.eq
    exact ⟨P, T₁, T₂, h.holdLeaf (by simp [Value.type])⟩
  property := fun {_ _ _ _ _ _ _ t u} ⟨P, T₁, T₂, h⟩ hm key => by
    have ht := (Value.resized_object.1 (h.context _ _ hm)).2
    cases hb : t.get? key with
    | none =>
      rw [ht.of_get?_none hb]
      exact .none
    | some b =>
      obtain ⟨c, hc, -, -, hbc⟩ := ht.of_get? hb
      rw [hc]
      exact .some ⟨P, T₁, T₂, h.holdValue hbc
        (h.left.property ⟨_, hm⟩ (Table.mem_values_of_get? hb))
        (h.right.property ⟨_, hm⟩ (Table.mem_values_of_get? hc))⟩
  resolve := fun {_ _ _ _ _ s} ⟨P, T₁, T₂, h⟩ _ name => by
    obtain ⟨hb, hc⟩ | ⟨b, c, hb, hc, hconst, hbc⟩ := h.stores.resolve s name
    · rw [hb, hc]
      exact .none
    · rw [hb, hc]
      exact .some ⟨hconst, P, T₁, T₂, h.holdValue hbc (h.left.store.resolve hb)
        (h.right.store.resolve hc)⟩
  child := fun {_ _ _ _ _ s} ⟨P, T₁, T₂, h⟩ _ => by
    obtain ⟨he, hs⟩ := h.stores.child s
    exact ⟨he.symm, trivial, P, T₁, T₂, (h.withStores hs ⟨h.left.store.add _ _ _, rfl⟩
      ⟨h.right.store.add _ _ _, rfl⟩).holdScope _⟩
  leave := fun _ ⟨P, T₁, T₂, h⟩ =>
    ⟨P, T₁, T₂, h.leave hh ((Held.Resized.empty P).scope globals)⟩
  declare := fun {_ σ₁ _ σ₂ _ s v w} ⟨P, T₁, T₂, h⟩ hm _ _ name isConst => by
    cases hd : σ₁.declare s name v isConst with
    | error cause =>
      obtain ⟨-, rfl⟩ := Store.declare_eq_error hd
      exact .excused trivial _
    | ok p =>
      obtain ⟨c, σ₂', hd', hs⟩ := h.stores.declare (h.context _ _ hm) hd
      rw [hd']
      exact .ok ⟨P, T₁, T₂, h.withStores hs (h.left.store.declare (h.left.values _ ⟨_, hm⟩) hd)
        (h.right.store.declare (h.right.values _ ⟨_, hm⟩) hd')⟩
  assign := fun {_ σ₁ _ σ₂ _ s v w} ⟨P, T₁, T₂, h⟩ hm _ name => by
    obtain ⟨fault, h₁, h₂⟩ | ⟨b, c, σ₁', σ₂', h₁, h₂, hs⟩ :=
      h.stores.assign (h.context _ _ hm) s name
    · rw [h₁, h₂]
      exact .error fault
    · rw [h₁, h₂]
      exact .ok ⟨P, T₁, T₂, h.withStores hs (h.left.store.assign (h.left.values _ ⟨_, hm⟩) h₁)
        (h.right.store.assign (h.right.values _ ⟨_, hm⟩) h₂)⟩
  copy := fun ⟨_, _, _, h⟩ hm => h.holdCopy hh hm
  tables_empty := by
    refine ⟨?_, .withCapacity _ _ _⟩
    rw [Table.capacity_withCapacity, Table.capacity_withCapacity]
    exact hc.objectCapacity
  tables_set := fun {_ _ _ _ _ t u v w} _ _ ⟨hcap, ht⟩ _ _ key isConst => by
    cases hp : t.place? key with
    | none => exact .inr ⟨by rw [Table.set?, hp]; rfl, .inl trivial⟩
    | some p =>
      obtain ⟨q, hq, -⟩ := ht.exists_place? hcap hp
      refine .inl ⟨p.1, q.1, t.write p key ⟨key, isConst, v⟩, u.write q key ⟨key, isConst, w⟩,
        by rw [Table.set?, hp]; rfl, by rw [Table.set?, hq]; rfl, ?_,
        ht.place hp hq rfl rfl trivial⟩
      rwa [Table.capacity_write, Table.capacity_write]
  object := fun {Γ _ _ _ _ t u} ⟨P, T₁, T₂, h⟩ ⟨_, ht⟩ _ _ hmade => by
    refine h.holdObject hh (.of_some ht.left ht.right ht.isSome_eq fun key b c hb hc => ?_)
    obtain ⟨c', hc', hname, hconst, -⟩ := ht.of_get? hb
    obtain rfl : c = c' := Option.some.inj (hc.symm.trans hc')
    have hm := hmade key
    rw [hb, hc] at hm
    cases hm with
    | some hm => exact ⟨hname, hconst, hm⟩
  call := fun {Γ σ₁ w₁ σ₂ w₂ s args args'} f ⟨P, T₁, T₂, h⟩ hargs _ _ => by
    obtain ⟨e, he, hl⟩ | ⟨P', T₁', T₂', h', ⟨e, h₁, h₂⟩ | ⟨v, w, h₁, h₂, hvw, ho₁, ho₂⟩⟩ :=
      h.call hh f s hargs
    · exact .inl ⟨e, he, .inl hl⟩
    · exact .inl ⟨e, h₁, .inr ⟨e, h₂, rfl, P', T₁', T₂', h'⟩⟩
    · exact .inr ⟨v, w, h₁, h₂, P', T₁', T₂', h'.holdValue hvw ho₁ ho₂⟩

end Treewalk
