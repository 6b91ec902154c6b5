import Treewalk.Proofs.Release.Region
import Treewalk.Proofs.Scope.Identities
import Treewalk.Proofs.Simulation.Exec

/-!
# Evaluation with and without releasing scopes

Two evaluations run side by side: one discards the scopes that it leaves, if nothing else can reach
them, the other keeps them all. Whatever the handles in use lead to forms a region in which both
stores are the same; a scope that is discarded is outside the region from then on, since no handle
leads to it.

* `Host.UsesStrongHandles` is what natives have to keep to.
* `Released` ties the two stores, `releaseSimulation` shows that every operation keeps the tie.
-/

namespace Treewalk

variable {ω : Type}

/-- The setting in which a scope that is left stays as it is. -/
def Setting.keeping (config : Config) (host : Host ω) : Setting ω :=
  ⟨config, host, fun _ _ σ => σ⟩

/-- Natives see no more than what the handles given to them lead to and discard nothing.

Whatever region the scope of the call, the arguments and the host's world lie in: in stores that
are the same there a native does the same, and what it leaves behind lies in such a region, too. -/
structure Host.UsesStrongHandles (host : Host ω) : Prop where
  region : ∀ {A : Set ScopeId} {σ₁ σ₂ : Store} (f : NativeFunction) {args : List Value}
    {env : ScopeId} {w : ω}, σ₁.IsRegion A → Store.SameIn A σ₁ σ₂ → env ∈ A →
    (∀ v ∈ args, ∀ u, v.mentions u = true → u ∈ A) → (∀ u, (host.held w).IsRoot u → u ∈ A) →
    let a := host.call f args env σ₁ w
    let b := host.call f args env σ₂ w
    ∃ B : Set ScopeId, A ⊆ B ∧ a.1 = b.1 ∧ a.2.2 = b.2.2 ∧ a.2.1.IsRegion B ∧
      Store.SameIn B a.2.1 b.2.1 ∧ (∀ v, a.1 = .ok v → ∀ u, v.mentions u = true → u ∈ B) ∧
        ∀ u, (host.held a.2.2).IsRoot u → u ∈ B
  identities : host.NumbersObjects

/-! ## The relation -/

/-- Two evaluations with the same handles, whose stores are the same in a region that all the
handles lie in; of the first store, what the identities of objects stand for. -/
structure Released (host : Host ω) (base : Held) (A : Set ScopeId) (T : ObjectId → Table Binding)
    (Γ : Context) (σ₁ : Store) (w₁ : ω) (σ₂ : Store) (w₂ : ω) : Prop where
  world_eq : w₁ = w₂
  same : Γ.Same
  region : σ₁.IsRegion A
  sameIn : Store.SameIn A σ₁ σ₂
  base_mem : ∀ u, base.IsRoot u → u ∈ A
  context_mem : ∀ u, Γ.Mentions u → u ∈ A
  world_mem : ∀ u, (host.held w₁).IsRoot u → u ∈ A
  identities : Identities T σ₁ Γ.lefts base (host.held w₁)

namespace Released

variable {host : Host ω} {base : Held} {A : Set ScopeId} {T : ObjectId → Table Binding}
variable {Γ Γ' : Context} {σ₁ σ₂ : Store} {w₁ w₂ : ω} {v w : Value} {s u : ScopeId}

theorem weaken (h : Released host base A T Γ σ₁ w₁ σ₂ w₂) (hs : Γ' ⊆ Γ) :
    Released host base A T Γ' σ₁ w₁ σ₂ w₂ :=
  { h with
    same := fun v w hm => h.same v w (hs hm)
    context_mem := fun u hu => h.context_mem u (hu.mono hs)
    identities := h.identities.mono fun _ ⟨w, hm⟩ => ⟨w, hs hm⟩ }

theorem holdValue (h : Released host base A T Γ σ₁ w₁ σ₂ w₂)
    (hm : ∀ u, v.mentions u = true → u ∈ A) (ho : v.Obeys T σ₁.nextObject) :
    Released host base A T (.value v v :: Γ) σ₁ w₁ σ₂ w₂ :=
  { h with
    same := h.same.cons v
    context_mem := fun u hu => by
      rcases Context.mentions_cons_value.1 hu with hu | hu
      · exact hm u hu
      · exact h.context_mem u hu
    identities := (h.identities.hold ho).mono Context.lefts_cons_value.subset }

theorem holdScope (h : Released host base A T Γ σ₁ w₁ σ₂ w₂) (hs : s ∈ A) :
    Released host base A T (.scope s :: Γ) σ₁ w₁ σ₂ w₂ :=
  { h with
    same := h.same.scope s
    context_mem := fun u hu => by
      rcases Context.mentions_cons_scope.1 hu with rfl | hu
      · exact hs
      · exact h.context_mem u hu
    identities := h.identities.mono Context.lefts_cons_scope.subset }

theorem mem_of_mentions (h : Released host base A T Γ σ₁ w₁ σ₂ w₂) (hv : .value v w ∈ Γ)
    (hu : v.mentions u = true) : u ∈ A := h.context_mem u (.inr ⟨v, w, hv, hu⟩)

theorem mem_of_holds (h : Released host base A T Γ σ₁ w₁ σ₂ w₂) (hs : Γ.Holds base.IsRoot s) :
    s ∈ A := by
  obtain hs | hs | ⟨f, _, hf, rfl⟩ := hs
  · exact h.base_mem s hs
  · exact h.context_mem s (.inl hs)
  · exact h.mem_of_mentions hf (Value.mentions_function.2 rfl)

/-- The stores change inside the region, with no identities of their own. -/
theorem withStores (h : Released host base A T Γ σ₁ w₁ σ₂ w₂) {σ₁' σ₂' : Store}
    (hr : σ₁'.IsRegion A) (hs : Store.SameIn A σ₁' σ₂') (ho : σ₁'.Obeys T)
    (hn : σ₁'.nextObject = σ₁.nextObject) : Released host base A T Γ σ₁' w₁ σ₂' w₂ :=
  { h with
    region := hr
    sameIn := hs
    identities := h.identities.withStore ho hn }

/-- The region may grow. -/
theorem grow (h : Released host base A T Γ σ₁ w₁ σ₂ w₂) {B : Set ScopeId} {σ₁' σ₂' : Store}
    (hA : A ⊆ B) (hr : σ₁'.IsRegion B) (hs : Store.SameIn B σ₁' σ₂') (ho : σ₁'.Obeys T)
    (hn : σ₁'.nextObject = σ₁.nextObject) : Released host base B T Γ σ₁' w₁ σ₂' w₂ :=
  { h with
    region := hr
    sameIn := hs
    base_mem := fun u hu => hA (h.base_mem u hu)
    context_mem := fun u hu => hA (h.context_mem u hu)
    world_mem := fun u hu => hA (h.world_mem u hu)
    identities := h.identities.withStore ho hn }

/-- The handles held outside the store at the end of an evaluation in a scope. -/
theorem mem_of_isRoot (h : Released host base A T Γ σ₁ w₁ σ₂ w₂)
    (hu : ∃ x ∈ [Γ.left base, host.held w₁], x.IsRoot u) : u ∈ A := by
  obtain ⟨x, hx, hu⟩ := hu
  rcases List.mem_cons.1 hx with rfl | hx
  · rcases Context.isRoot_left.1 hu with hu | hu
    · exact h.base_mem u hu
    · exact h.context_mem u hu
  · obtain rfl := List.mem_singleton.1 hx
    exact h.world_mem u hu

/-- Leaving a scope: all that handles still lead to is as it was, and forms a region. -/
theorem leave (h : Released host base A T (.scope s :: Γ) σ₁ w₁ σ₂ w₂) :
    ∃ B, Released host base B T Γ (σ₁.leave [Γ.left base, host.held w₁] s) w₁ σ₂ w₂ := by
  have h := h.weaken (List.subset_cons_self _ Γ)
  generalize ho : [Γ.left base, host.held w₁] = outside
  rw [Store.leave]
  split
  · next hc =>
    let roots := fun t => ∃ x ∈ outside, x.IsRoot t
    have hsub : ∀ t, σ₁.Reaches roots t → t ∈ A := by
      intro t ht
      induction ht with
      | root hr => exact h.mem_of_isRoot (ho ▸ hr)
      | step _ hh ih => exact h.region.closed _ ih _ hh
    have hs : ¬σ₁.Reaches roots s := by
      refine Store.not_reaches_of_count ?_ h.identities.store hc
      exact ho ▸ h.identities.outside_left
    have hregion : σ₁.IsRegion {t | σ₁.Reaches roots t} :=
      ⟨fun t ht => h.region.alive t (hsub t ht), fun t ht u hu => Store.Reaches.step ht hu⟩
    have hsame : Store.SameIn {t | σ₁.Reaches roots t} σ₁ σ₂ :=
      ⟨h.sameIn.size_eq, h.sameIn.nextObject_eq, fun t ht => h.sameIn.scopes_eq t (hsub t ht)⟩
    have hleft : ∀ u, (Γ.left base).IsRoot u → σ₁.Reaches roots u :=
      fun u hu => .root ⟨_, ho ▸ List.mem_cons_self, hu⟩
    have hworld : ∀ u, (host.held w₁).IsRoot u → σ₁.Reaches roots u :=
      fun u hu => .root ⟨_, ho ▸ List.mem_cons_of_mem _ List.mem_cons_self, hu⟩
    exact ⟨{t | σ₁.Reaches roots t},
      { h with
        region := hregion.discard hs
        sameIn := hsame.discard_left hs
        base_mem := fun u hu => hleft u (Context.isRoot_left.2 (.inl hu))
        context_mem := fun u hu => hleft u (Context.isRoot_left.2 (.inr hu))
        world_mem := hworld
        identities := h.identities.withStore (h.identities.store.discard s) rfl }⟩
  · exact ⟨A, h⟩

/-- A value bound in a table of the region, and a property of a value held. -/
theorem holdProperty (h : Released host base A T Γ σ₁ w₁ σ₂ w₂) {i : ObjectId}
    {t : Table Binding} (hm : .value (.object i t) w ∈ Γ) (hv : v ∈ t.values) :
    Released host base A T (.value v v :: Γ) σ₁ w₁ σ₂ w₂ :=
  h.holdValue (fun _ hu => h.mem_of_mentions hm (Value.mentions_object.2 ⟨v, hv, hu⟩))
    (h.identities.property ⟨w, hm⟩ hv)

theorem holdResolved (h : Released host base A T Γ σ₁ w₁ σ₂ w₂) (hs : s ∈ A) {name : String}
    {b : Binding} (hb : σ₁.resolve s name = some b) :
    Released host base A T (.value b.value b.value :: Γ) σ₁ w₁ σ₂ w₂ := by
  obtain ⟨t, ht, hv⟩ := Store.mem_values_of_resolve hb
  have htA : t ∈ A := h.region.chain_subset hs t ht
  exact h.holdValue (fun u hu => h.region.mem_of_mentions htA hv hu) (h.identities.store t _ hv)

/-- A value made from numbers of its own, of what is held. -/
theorem holdMade (h : Released host base A T Γ σ₁ w₁ σ₂ w₂) {T' : ObjectId → Table Binding}
    {next : Nat} (hi : Identities T' { σ₁ with nextObject := next } (insert v Γ.lefts) base
      (host.held w₁)) (hm : ∀ u, v.mentions u = true → u ∈ A) :
    Released host base A T' (.value v v :: Γ) { σ₁ with nextObject := next } w₁
      { σ₂ with nextObject := next } w₂ :=
  { h with
    same := h.same.cons v
    region := ⟨h.region.alive, h.region.closed⟩
    sameIn := h.sameIn.nextObject next
    context_mem := fun u hu => by
      rcases Context.mentions_cons_value.1 hu with hu | hu
      · exact hm u hu
      · exact h.context_mem u hu
    identities := hi.mono Context.lefts_cons_value.subset }

/-- A copy of a value held. -/
theorem holdCopy (h : Released host base A T Γ σ₁ w₁ σ₂ w₂) (hm : .value v w ∈ Γ) :
    ∃ T', Released host base A T' (.value (σ₁.copy v).1 (σ₂.copy v).1 :: Γ)
      (σ₁.copy v).2 w₁ (σ₂.copy v).2 w₂ := by
  obtain ⟨T', hi⟩ := h.identities.copy v
  have hcopy : v.copy σ₂.nextObject = v.copy σ₁.nextObject := by rw [h.sameIn.nextObject_eq]
  rw [Store.copy] at hi
  rw [Store.copy, Store.copy, hcopy]
  refine ⟨T', h.holdMade hi fun u hu => h.mem_of_mentions hm ?_⟩
  rwa [Value.mentions_iff, Value.scopes_copy, ← Value.mentions_iff] at hu

/-- A new object of values held. -/
theorem holdObject (h : Released host base A T Γ σ₁ w₁ σ₂ w₂) {t : Table Binding}
    (ht : ∀ v ∈ t.values, v ∈ Γ.lefts) :
    ∃ T', Released host base A T' (.value (σ₁.object t).1 (σ₂.object t).1 :: Γ)
      (σ₁.object t).2 w₁ (σ₂.object t).2 w₂ := by
  obtain ⟨T', hi⟩ := h.identities.object ht
  rw [Store.object] at hi
  rw [Store.object, Store.object, ← h.sameIn.nextObject_eq]
  refine ⟨T', h.holdMade hi fun u hu => ?_⟩
  obtain ⟨v, hv, hu⟩ := Value.mentions_object.1 hu
  obtain ⟨w, hm⟩ := ht v hv
  exact h.mem_of_mentions hm hu

/-- A new scope below a scope of the region. -/
theorem child (h : Released host base A T Γ σ₁ w₁ σ₂ w₂) (hs : s ∈ A) :
    (σ₁.child s).1 = (σ₂.child s).1 ∧
      Released host base (insert (σ₁.child s).1 A) T (.scope (σ₁.child s).1 :: Γ)
        (σ₁.child s).2 w₁ (σ₂.child s).2 w₂ := by
  have hcap := h.sameIn.childCapacity_eq hs
  rw [Store.child, Store.child, ← hcap]
  refine ⟨ScopeId.index_inj.1 h.sameIn.size_eq, ?_⟩
  refine (h.grow (Set.subset_insert _ A) (h.region.add _ _ ?_) (h.sameIn.add _ _ _)
    (h.identities.store.add _ _ _) rfl).holdScope (Set.mem_insert _ A)
  rintro p hp
  cases hp
  exact hs

/-- A native called from a scope of the region. -/
theorem call (h : Released host base A T Γ σ₁ w₁ σ₂ w₁) (hh : host.UsesStrongHandles)
    (f : NativeFunction) {args : List Value} (hs : s ∈ A) (hargs : ∀ v ∈ args, .value v v ∈ Γ) :
    let a := host.call f args s σ₁ w₁
    let b := host.call f args s σ₂ w₁
    a.1 = b.1 ∧ ∃ B T', Released host base B T' Γ a.2.1 a.2.2 b.2.1 b.2.2 ∧
      ∀ v, a.1 = .ok v → (∀ u, v.mentions u = true → u ∈ B) ∧ v.Obeys T' a.2.1.nextObject := by
  obtain ⟨B, hAB, he, hw, hr, hsame, hv, hwB⟩ := hh.region f h.region h.sameIn hs
    (fun v hm u hu => h.mem_of_mentions (hargs v hm) hu) h.world_mem
  obtain ⟨T', hi, ho⟩ := h.identities.call hh.identities f s fun v hm => ⟨v, hargs v hm⟩
  exact ⟨he, B, T',
    { world_eq := hw
      same := h.same
      region := hr
      sameIn := hsame
      base_mem := fun u hu => hAB (h.base_mem u hu)
      context_mem := fun u hu => hAB (h.context_mem u hu)
      world_mem := hwB
      identities := hi },
    fun v he => ⟨hv v he, ho v he⟩⟩

end Released

namespace Setting

/-! Scopes are released and kept under the same limits. -/

theorem loopVariable_releasing (config : Config) (host : Host ω) :
    (releasing config host).config.loopVariable = (keeping config host).config.loopVariable := rfl

theorem maxCallDepth_releasing (config : Config) (host : Host ω) :
    (releasing config host).config.maxCallDepth ≤ (keeping config host).config.maxCallDepth :=
  Nat.le_refl _

end Setting

/-- **Releasing and keeping scopes, side by side.** -/
def releaseSimulation (config : Config) {host : Host ω} (hh : host.UsesStrongHandles)
    (base : Held) : Simulation (Setting.releasing config host) (Setting.keeping config host) where
  like := .same
  twin s := s
  left := base
  right := base
  Around := base.IsRoot
  Rel Γ σ₁ w₁ σ₂ w₂ := ∃ A T, Released host base A T Γ σ₁ w₁ σ₂ w₂
  Excuses _ := False
  Open _ := True
  Callable _ := True
  New _ := True
  Tables t u := t = u
  loopVariable_eq := Setting.loopVariable_releasing config host
  maxCallDepth_le := Setting.maxCallDepth_releasing config host
  excuses_of_lt h := (Nat.lt_irrefl _ h).elim
  open_of_new _ := trivial
  callable_of_open _ := trivial
  weaken hs := fun ⟨A, T, h⟩ => ⟨A, T, h.weaken hs⟩
  alike := fun ⟨A, T, h⟩ hm => by
    rw [h.same _ _ hm]
    exact .refl_same _
  closure := fun ⟨_, _, h⟩ hm => by
    obtain rfl := Value.function.inj (h.same _ _ hm)
    rfl
  plain := fun {_ _ _ _ _ v} ⟨A, T, h⟩ hv =>
    ⟨A, T, h.holdValue (fun u hu => by simp [hv.isPlain.mentions_eq_false u] at hu)
      hv.isPlain.obeys⟩
  function := fun ⟨A, T, h⟩ hcode hs _ name => by
    obtain rfl := hcode.eq
    exact ⟨A, T, h.holdValue (fun u hu => Value.mentions_function.1 hu ▸ h.mem_of_holds hs)
      (Value.obeys_of_type_ne (by simp [Value.type]))⟩
  property := fun {_ _ _ _ _ i j t u} ⟨A, T, h⟩ hm key => by
    obtain ⟨rfl, rfl⟩ := Value.object.inj (h.same _ _ hm)
    cases hb : t.get? key with
    | none => exact .none
    | some b => exact .some ⟨A, T, h.holdProperty hm (Table.mem_values_of_get? hb)⟩
  resolve := fun {_ σ₁ _ σ₂ _ s} ⟨A, T, h⟩ hs name => by
    have hsA := h.mem_of_holds hs
    rw [← h.sameIn.resolve_eq h.region hsA]
    cases hb : σ₁.resolve s name with
    | none => exact .none
    | some b => exact .some ⟨rfl, A, T, h.holdResolved hsA hb⟩
  child := fun ⟨A, T, h⟩ hs => by
    obtain ⟨he, h'⟩ := h.child (h.mem_of_holds hs)
    exact ⟨he.symm, trivial, _, T, h'⟩
  leave := fun _ ⟨A, T, h⟩ => by
    obtain ⟨B, h'⟩ := h.leave
    exact ⟨B, T, h'⟩
  declare := fun {_ σ₁ _ σ₂ _ s v w} ⟨A, T, h⟩ hm hs _ name isConst => by
    obtain rfl := h.same _ _ hm
    obtain ⟨cause, h₁, h₂⟩ | ⟨b, σ₁', σ₂', h₁, h₂, hr, hs'⟩ :=
      h.sameIn.declare h.region (h.mem_of_holds hs) (fun _ hu => h.mem_of_mentions hm hu) name
        isConst
    · rw [h₁, h₂]
      exact .error cause
    · rw [h₁, h₂]
      obtain ⟨ho, hn⟩ := h.identities.store.declare (h.identities.values _ ⟨_, hm⟩) h₁
      exact .ok ⟨A, T, h.withStores hr hs' ho hn⟩
  assign := fun {_ σ₁ _ σ₂ _ s v w} ⟨A, T, h⟩ hm hs name => by
    obtain rfl := h.same _ _ hm
    obtain ⟨fault, h₁, h₂⟩ | ⟨b, σ₁', σ₂', h₁, h₂, hr, hs'⟩ :=
      h.sameIn.assign h.region (h.mem_of_holds hs) (fun _ hu => h.mem_of_mentions hm hu) name
    · rw [h₁, h₂]
      exact .error fault
    · rw [h₁, h₂]
      obtain ⟨ho, hn⟩ := h.identities.store.assign (h.identities.values _ ⟨_, hm⟩) h₁
      exact .ok ⟨A, T, h.withStores hr hs' ho hn⟩
  copy := fun ⟨A, T, h⟩ hm => by
    obtain rfl := h.same _ _ hm
    obtain ⟨T', h'⟩ := h.holdCopy hm
    exact ⟨A, T', h'⟩
  tables_empty := rfl
  tables_set := fun {_ _ _ _ _ t u v w} ⟨_, _, h⟩ hm ht _ _ key isConst => by
    subst ht
    obtain rfl := h.same _ _ hm
    cases hs : t.set? key ⟨key, isConst, v⟩ with
    | none => exact .inr ⟨rfl, .inr ⟨rfl, rfl⟩⟩
    | some p => exact .inl ⟨p.1, p.1, p.2, p.2, rfl, rfl, rfl⟩
  object := fun {Γ _ _ _ _ t u} ⟨A, T, h⟩ ht hwf _ hmade => by
    subst ht
    have hv : ∀ v ∈ t.values, v ∈ Γ.lefts := by
      intro v hv
      obtain ⟨key, b, hb, rfl⟩ := hwf.mem_values.1 hv
      have hk := hmade key
      rw [hb] at hk
      cases hk with
      | some hk => exact ⟨_, hk⟩
    obtain ⟨T', h'⟩ := h.holdObject hv
    exact ⟨A, T', h'⟩
  call := fun {Γ σ₁ w₁ σ₂ w₂ s args args'} f ⟨A, T, h⟩ hargs hs _ => by
    obtain rfl := h.world_eq
    have hargs' : args = args' := by
      rw [← List.forall₂_eq_eq_eq]
      exact hargs.imp fun v w hm => h.same v w hm
    subst hargs'
    have hheld : ∀ v ∈ args, .value v v ∈ Γ := fun v hv =>
      List.forall₂_same.1 hargs v hv
    obtain ⟨he, B, T', h', hv⟩ := h.call hh f (h.mem_of_holds hs) hheld
    dsimp only [Setting.releasing, Setting.keeping]
    generalize host.call f args s σ₁ w₁ = a at he h' hv ⊢
    generalize host.call f args s σ₂ w₁ = b at he h' ⊢
    obtain ⟨_ | v, σ₁', w₁'⟩ := a
    · exact .inl ⟨_, rfl, .inr ⟨_, he.symm, rfl, B, T', h'⟩⟩
    · obtain ⟨hm, ho⟩ := hv v rfl
      exact .inr ⟨v, v, rfl, he.symm, B, T', h'.holdValue hm ho⟩

end Treewalk
