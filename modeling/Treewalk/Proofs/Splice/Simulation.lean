import Treewalk.Proofs.Simulation.Exec
import Treewalk.Proofs.Splice.Leaving

/-!
# Evaluation with and without an empty scope

A node that declares nothing at its own level is evaluated in step in an empty scope and in the
parent of that scope. No name is ever declared in the empty scope, so names are resolved and
assigned as if it were not there; what is made meanwhile differs by the numbers of scopes only.

* `Host.IgnoresEmptyScopes` is what natives have to keep to.
* `Evened` ties the two evaluations, `spliceSimulation` shows that every operation keeps the tie.
-/

namespace Treewalk

variable {ω α : Type}

/-- Natives that do the same from a scope and from its twin, where an empty scope is left out.
They print the same text.

`World` says when two worlds are the same up to the numbers of scopes. -/
structure Host.IgnoresEmptyScopes (host : Host ω) (World : Splice → ω → ω → Prop)
    (printed : ω → α) : Prop where
  printed_eq : ∀ {p : Splice} {w w' : ω}, World p w w' → printed w = printed w'
  held : ∀ {p : Splice} {w w' : ω}, World p w w' → (host.held w).Spliced p (host.held w')
  call : ∀ {p : Splice} {σ₁ σ₂ : Store} (f : NativeFunction) {args : List Value} (env : ScopeId)
    {w w' : ω}, σ₁.Spliced p σ₂ → World p w w' → (∀ v ∈ args, p.Admits v) →
    let a := host.call f args env σ₁ w
    let b := host.call f (args.map (Value.rename p.twin)) (p.twin env) σ₂ w'
    b.1 = a.1.map (Value.rename p.twin) ∧ (∀ v, a.1 = .ok v → p.Admits v) ∧
      a.2.1.Spliced p b.2.1 ∧ World p a.2.2 b.2.2

/-! ## The relation -/

/-- Two evaluations that differ by an empty scope. -/
structure Evened (World : Splice → ω → ω → Prop) (p : Splice) (Γ : Context) (σ₁ : Store) (w₁ : ω)
    (σ₂ : Store) (w₂ : ω) : Prop where
  values : ∀ v w, .value v w ∈ Γ → w = v.rename p.twin ∧ p.Admits v
  stores : σ₁.Spliced p σ₂
  worlds : World p w₁ w₂

namespace Evened

variable {World : Splice → ω → ω → Prop} {p : Splice} {Γ Γ' : Context}
variable {σ₁ σ₂ σ₁' σ₂' : Store} {w₁ w₂ : ω} {v w : Value}

theorem weaken (h : Evened World p Γ σ₁ w₁ σ₂ w₂) (hs : Γ' ⊆ Γ) :
    Evened World p Γ' σ₁ w₁ σ₂ w₂ :=
  { h with values := fun v w hm => h.values v w (hs hm) }

theorem holdValue (h : Evened World p Γ σ₁ w₁ σ₂ w₂) (hv : p.Admits v) :
    Evened World p (.value v (v.rename p.twin) :: Γ) σ₁ w₁ σ₂ w₂ :=
  { h with
    values := fun v' w' hm => by
      cases hm with
      | head => exact ⟨rfl, hv⟩
      | tail _ hm => exact h.values v' w' hm }

theorem holdScope (h : Evened World p Γ σ₁ w₁ σ₂ w₂) (s : ScopeId) :
    Evened World p (.scope s :: Γ) σ₁ w₁ σ₂ w₂ :=
  { h with
    values := fun v w hm => by
      cases hm with
      | tail _ hm => exact h.values v w hm }

theorem withStores (h : Evened World p Γ σ₁ w₁ σ₂ w₂) (hs : σ₁'.Spliced p σ₂') :
    Evened World p Γ σ₁' w₁ σ₂' w₂ :=
  { h with stores := hs }

/-- Arguments at hand on both sides are the same up to the numbers of scopes. -/
theorem arguments (h : Evened World p Γ σ₁ w₁ σ₂ w₂) {args args' : List Value}
    (hm : List.Forall₂ (fun v w => .value v w ∈ Γ) args args') :
    args' = args.map (Value.rename p.twin) ∧ ∀ v ∈ args, p.Admits v := by
  induction hm with
  | nil => exact ⟨rfl, fun _ hv => nomatch hv⟩
  | cons hm _ ih =>
    obtain ⟨rfl, hv⟩ := h.values _ _ hm
    obtain ⟨rfl, hvs⟩ := ih
    exact ⟨rfl, List.forall_mem_cons.2 ⟨hv, hvs⟩⟩

end Evened

theorem Context.isRoot_right {twin : ScopeId → ScopeId} {base : Held} {t : ScopeId}
    (h : base.IsRoot t) (Γ : Context) : (Γ.right twin base).IsRoot t := by
  induction Γ with
  | nil => exact h
  | cons x Γ ih =>
    cases x with
    | scope s => exact Held.isRoot_scope.2 (.inr ih)
    | value v w => exact Held.isRoot_value.2 (.inr ih)

theorem isHeld_of_isRoot {h : Held} {s : ScopeId} (hr : h.IsRoot s) (outside : List Held) :
    isHeld (h :: outside) s = true := by
  rw [isHeld, List.any_cons, hr.mentions, Bool.true_or]

/-- **Evaluation with and without an empty scope, side by side.** -/
def spliceSimulation {S : Setting ω} {World : Splice → ω → ω → Prop} {printed : ω → α}
    (hS : ∀ outside s σ, S.leave outside s σ = σ.leave outside s)
    (hh : S.host.IgnoresEmptyScopes World printed) (p : Splice) {left right : Held}
    (hheld : left.Spliced p right) (hleft : left.IsRoot p.parent) (hright : right.IsRoot p.parent) :
    Simulation S S where
  like := .same
  twin := p.twin
  left := left
  right := right
  Around _ := True
  Rel := Evened World p
  Excuses _ := False
  Open s := s ≠ p.extra
  Callable _ := True
  New s := p.extra.index < s.index
  Tables t u := u = t.rename p.twin
  loopVariable_eq := S.loopVariable_refl
  maxCallDepth_le := S.maxCallDepth_refl
  excuses_of_lt := S.maxCallDepth_irrefl
  open_of_new hs := (Splice.apart_of_gt hs).ne_extra
  callable_of_open _ := trivial
  weaken hs h := h.weaken hs
  alike h hm := by
    rw [(h.values _ _ hm).1]
    exact Value.alike_rename p.twin _
  closure h hm := by
    obtain rfl := Value.function.inj (h.values _ _ hm).1
    rfl
  plain := fun {_ _ _ _ _ v} h hv => by
    have hself := h.holdValue (Splice.admits_of_isPlain hv.isPlain)
    rwa [hv.isPlain.rename_eq] at hself
  function := fun {_ _ _ _ _ s _ _} h hcode _ hs name => by
    obtain rfl := hcode.eq
    refine h.holdValue ?_
    rw [Splice.Admits, ← Bool.not_eq_true, Value.mentions_function]
    exact hs
  property := fun {_ _ _ _ _ i j t u} h hm key => by
    obtain ⟨he, hadmits⟩ := h.values _ _ hm
    rw [Value.rename_object] at he
    rw [(Value.object.inj he).2, Table.rename, Table.get?_map]
    cases hb : t.get? key with
    | none => exact .none
    | some b =>
      refine .some (h.holdValue (Splice.admits_of_mentions hadmits fun hs => ?_))
      exact Value.mentions_object.2 ⟨_, Table.mem_values_of_get? hb, hs⟩
  resolve := fun {_ σ₁ _ σ₂ _ s} h _ name => by
    rw [h.stores.resolve_twin]
    cases hb : σ₁.resolve s name with
    | none => exact .none
    | some b => exact .some ⟨rfl, h.holdValue (h.stores.binds.resolve hb)⟩
  child := fun {_ _ _ _ _ s} h _ => by
    obtain ⟨he, hlt, hs⟩ := h.stores.child s
    exact ⟨he, hlt, (h.withStores hs).holdScope _⟩
  leave := fun {Γ _ w₁ _ w₂ s} hs h => by
    have h := h.weaken (List.subset_cons_self _ _)
    have hout := Context.spliced hheld fun v w hm => (h.values v w hm).1
    rw [hS, hS]
    exact h.withStores (h.stores.leave (.cons hout (.cons (hh.held h.worlds) .nil))
      (isHeld_of_isRoot (Context.isRoot_left.2 (.inl hleft)) _)
      (isHeld_of_isRoot (Context.isRoot_right hright Γ) _) (Splice.apart_of_gt hs))
  declare := fun {_ _ _ _ _ s _ _} h hm _ hs name isConst => by
    obtain ⟨rfl, hv⟩ := h.values _ _ hm
    exact (h.stores.declare hs hv name isConst).imp fun _ _ hs => h.withStores hs
  assign := fun {_ _ _ _ _ s _ _} h hm _ name => by
    obtain ⟨rfl, hv⟩ := h.values _ _ hm
    exact (h.stores.assign s hv name).imp fun _ _ hs => h.withStores hs
  copy := fun {_ σ₁ _ σ₂ _ v _} h hm => by
    obtain ⟨rfl, hv⟩ := h.values _ _ hm
    rw [Store.copy, Store.copy, Value.copy_rename, h.stores.nextObject_eq]
    refine (h.withStores (h.stores.nextObject _)).holdValue
      (Splice.admits_of_mentions hv fun hs => ?_)
    rwa [Value.mentions_iff, Value.scopes_copy, ← Value.mentions_iff] at hs
  tables_empty := (Table.map_withCapacity _ _).symm
  tables_set := fun {_ _ _ _ _ t u v w} h hm ht _ _ key isConst => by
    obtain ⟨rfl, -⟩ := h.values _ _ hm
    subst ht
    have hset := Table.set?_map (BindingOf.rename p.twin) t key ⟨key, isConst, v⟩
    cases hs : t.set? key ⟨key, isConst, v⟩ with
    | none =>
      rw [hs] at hset
      exact .inr ⟨rfl, .inr ⟨hset, (Table.capacity_map _ t).symm⟩⟩
    | some r =>
      rw [hs] at hset
      exact .inl ⟨r.1, r.1, r.2, r.2.rename p.twin, rfl, hset, rfl⟩
  object := fun {Γ σ₁ _ σ₂ _ t u} h ht hwf _ hmade => by
    subst ht
    have hv : ∀ v ∈ t.values, p.Admits v := by
      intro v hv
      obtain ⟨key, b, hb, rfl⟩ := hwf.mem_values.1 hv
      have hk := hmade key
      rw [Table.rename, Table.get?_map, hb] at hk
      cases hk with
      | some hk => exact (h.values _ _ hk).2
    rw [Store.object, Store.object, ← h.stores.nextObject_eq, ← Value.rename_object]
    exact (h.withStores (h.stores.nextObject _)).holdValue (Splice.admits_object hv)
  call := fun {Γ σ₁ w₁ σ₂ w₂ s args args'} f h hargs _ _ => by
    obtain ⟨rfl, hadmits⟩ := h.arguments hargs
    obtain ⟨he, hv, hs, hw⟩ := hh.call f s h.stores h.worlds hadmits
    dsimp only
    generalize S.host.call f args s σ₁ w₁ = a at he hv hs hw ⊢
    generalize S.host.call f (args.map (Value.rename p.twin)) (p.twin s) σ₂ w₂ = b at he hs hw ⊢
    obtain ⟨_ | v, σ₁', w₁'⟩ := a
    · exact .inl ⟨_, rfl, .inr ⟨_, he, rfl, h.values, hs, hw⟩⟩
    · exact .inr ⟨v, _, rfl, he, Evened.holdValue ⟨h.values, hs, hw⟩ (hv v rfl)⟩

end Treewalk
