import Treewalk.Proofs.Reach.Confinement
import Treewalk.Proofs.Workbench.Names

/-!
# Evaluation is confined to what it can reach

An evaluation in a scope can neither change nor get hold of a scope that cannot be reached from
there, although what can be reached changes as it goes: it starts in a realm and stays in it. So
the variables of a function change only through code that can reach the function. Natives have to
keep to the same rule, which is `Host.StaysInReach`.

Main statement: `stays_in_reach`.
-/

namespace Treewalk

variable {ω : Type} {host : Host ω}

/-- What a native leaves behind if it is called in the realm of some scopes. -/
theorem Host.StaysInReach.call (h : host.StaysInReach) {σ₀ σ : Store} {A : Set ScopeId}
    {hA : ∀ t ∈ A, t.index < σ₀.scopes.size} (hc : (Realm.since σ₀ A hA).Closed σ)
    {env : ScopeId} (henv : (Realm.since σ₀ A hA).Inside σ.scopes.size env) {args : List Value}
    (hargs : ∀ v ∈ args, (Realm.since σ₀ A hA).Fits σ.scopes.size v) (f : NativeFunction) (w : ω) :
    let r := host.call f args env σ w
    σ.scopes.size ≤ r.2.1.scopes.size ∧ (Realm.since σ₀ A hA).Closed r.2.1 ∧
      (∀ t : ScopeId, t.index < σ₀.scopes.size → t ∉ A →
        r.2.1.scopes[t.index]? = σ.scopes[t.index]?) ∧
      ∀ v, r.1 = .ok v → (Realm.since σ₀ A hA).Fits r.2.1.scopes.size v := by
  intro r
  have hbase : σ₀.scopes.size ≤ σ.scopes.size := hc.base_le
  have hin : ∀ t, σ.Reachable (handed env args) t →
      (Realm.since σ₀ A hA).Inside σ.scopes.size t := by
    intro t ht
    refine hc.inside_of_reachable ?_ ht
    rintro s (rfl | ⟨v, hv, hs⟩)
    · exact henv
    · exact (hargs v hv).inside_of_captures hs
  obtain ⟨htouch, hv⟩ := h f args env σ w fun t ht => (hin t ht).index_lt hbase
  have hle := htouch.size_le
  -- All that the native can reach or makes is in the realm.
  have hnew : ∀ t, (σ.Reachable (handed env args) t ∨ σ.Created r.2.1 t) →
      (Realm.since σ₀ A hA).Inside r.2.1.scopes.size t := by
    rintro t (ht | ⟨hb, hlt⟩)
    · exact (hin t ht).mono hle
    · exact .inr ⟨hbase.trans hb, hlt⟩
  refine ⟨hle, Realm.closed_since (hbase.trans hle) fun s t hs hl => ?_, fun t hlt ht => ?_,
    fun v hr => Realm.fits_since fun s hs => hnew s (hv v hr s hs)⟩
  · by_cases hs' : σ.Reachable (handed env args) s ∨ σ.Created r.2.1 s
    · exact hnew t (htouch.leads s t hs' hl)
    · obtain ⟨hreach, hcreated⟩ := not_or.1 hs'
      have hlt : s.index < σ.scopes.size := by
        have := hs.index_lt (hbase.trans hle)
        exact Nat.lt_of_not_le fun hb => hcreated ⟨hb, this⟩
      have hs : (Realm.since σ₀ A hA).Inside σ.scopes.size s := hs.imp_right fun hb => ⟨hb.1, hlt⟩
      rw [Store.leads_congr (htouch.untouched s hlt hreach)] at hl
      exact (hc.leads hs hl).mono hle
  · exact htouch.untouched t (hlt.trans_le hbase) fun hreach =>
      Realm.not_inside_since hlt ht _ (hin t hreach)

/-- Evaluations confined to some scopes of a store and new ones leave the others as they were. -/
def reachConfinement (config : Config) (h : host.StaysInReach) (σ₀ : Store) (A : Set ScopeId)
    (hA : ∀ t ∈ A, t.index < σ₀.scopes.size) :
    Confinement (Setting.releasing config host) (Realm.since σ₀ A hA) where
  Also σ _ := ∀ t : ScopeId, t.index < σ₀.scopes.size → t ∉ A →
    σ.scopes[t.index]? = σ₀.scopes[t.index]?
  leave_cases outside s σ := σ.leave_cases outside s
  good_of_isKeyed _ := trivial
  child {σ w s} hc ha hs t hlt ht := by
    have hle : σ₀.scopes.size ≤ σ.scopes.size := hc.base_le
    rw [← ha t hlt ht, Store.child, Store.getElem?_scopes_add, if_neg (by omega)]
  discard {σ w s} _ ha hs t hlt ht := by
    have hs : σ₀.scopes.size ≤ s.index := hs
    rw [← ha t hlt ht, Store.getElem?_scopes_discard, if_neg (by omega)]
  declare {σ σ' w s name v isConst b} _ ha hs hd t hlt ht := by
    obtain ⟨-, p, -, rfl⟩ := Store.declare_eq_ok hd
    rw [Realm.getElem?_place_of_not_inside hs (Realm.not_inside_since hlt ht _), ha t hlt ht]
  assign {σ σ' w s name v b} hc ha hs hd t hlt ht := by
    obtain ⟨u, i, old, ho, -, -, -, rfl⟩ := Store.assign_eq_ok hd
    have hu := hc.inside_of_mem_chain hs u (List.mem_of_find?_eq_some ho)
    rw [Realm.getElem?_place_of_not_inside hu (Realm.not_inside_since hlt ht _), ha t hlt ht]
  number _ ha := ha
  call {σ w s args} f hc ha hs hargs := by
    obtain ⟨hle, hc', hkept, hv⟩ := h.call hc hs hargs f w
    exact ⟨hle, hc', fun t hlt ht => (hkept t hlt ht).trans (ha t hlt ht), hv⟩

/-- **Evaluation is confined to what it can reach.** Whatever the node, and however its evaluation
ends: the scopes that could not be reached from the scope at hand are as they were, with all their
bindings; and the functions in what the evaluation gives, and in the scopes that can then be
reached, capture only scopes that could be reached before and scopes made meanwhile. -/
theorem stays_in_reach (config : Config) (h : host.StaysInReach) (fuel : Nat) (held : Held)
    (n : Node) (env : ScopeId) (m : Machine ω)
    (hm : ∀ t, m.store.Reachable {env} t → t.index < m.store.scopes.size) :
    let a := ((Setting.releasing config host).exec fuel held n env m).value
    let σ := m.store
    let σ' := a.2.store
    (∀ t : ScopeId, t.index < σ.scopes.size → ¬σ.Reachable {env} t →
      σ'.scopes[t.index]? = σ.scopes[t.index]? ∧ σ'.bindings t = σ.bindings t) ∧
      (∀ v ∈ a.1.values, ∀ s, v.Captures s → σ.Reachable {env} s ∨ σ.Created σ' s) ∧
        ∀ t, σ'.Reachable {env} t → ∀ v ∈ (σ'.bindings t).values, ∀ s, v.Captures s →
          σ.Reachable {env} s ∨ σ.Created σ' s := by
  intro a σ σ'
  have hc := Realm.closed_reachable σ {env} hm
  have henv : env ∈ {t | σ.Reachable {env} t} := Store.Reachable.start rfl
  have he : (reachConfinement config h σ _ hm).Ends a :=
    (Confinement.confines_exec fuel).ends hc (fun _ _ _ => rfl) henv held n
  refine ⟨fun t hlt ht => ?_, fun v hv s hs => (he.fits v hv).inside_of_captures hs,
    fun t ht v hv s hs => ?_⟩
  · have hkept : σ'.scopes[t.index]? = σ.scopes[t.index]? := he.also t hlt ht
    exact ⟨hkept, by rw [Store.bindings, Store.bindings, hkept]⟩
  · have hstart : ∀ s ∈ ({env} : Set ScopeId), (Realm.since σ _ hm).Inside σ'.scopes.size s :=
      fun s hs => .inl (Set.mem_singleton_iff.1 hs ▸ henv)
    have hin := he.closed.inside_of_reachable hstart ht
    exact (he.closed.bound hin hv).inside_of_captures hs

/-- A block run in the global scope leaves a scope below that nothing captures as it was. -/
theorem stays_in_reach_private :
    let m : Machine Workbench := ⟨((Store.empty.root 8 8).2.child ⟨0⟩).2, 0, 0, .ofSink .buffer⟩
    let n : Node := ⟨.block [⟨.declaration "x" false none, 1⟩], 1⟩
    let a := ((Setting.releasing .standard Workbench.host).exec 3 .empty n ⟨0⟩ m).value
    Workbench.host.StaysInReach ∧
      (∀ t, m.store.Reachable {⟨0⟩} t → t.index < m.store.scopes.size) ∧
        a.2.store.bindings ⟨1⟩ = m.store.bindings ⟨1⟩ := by
  intro m n a
  have hreach : ∀ t, m.store.Reachable {⟨0⟩} t → t = ⟨0⟩ := by
    intro t ht
    induction ht with
    | start hs => exact hs
    | step _ hl ih =>
      subst ih
      obtain hp | ⟨v, hv, -⟩ := hl
      · cases hp
      · have hempty : m.store.bindings ⟨0⟩ = .withCapacity 8 := rfl
        simp [hempty] at hv
  have hm : ∀ t, m.store.Reachable {⟨0⟩} t → t.index < m.store.scopes.size := fun t ht =>
    hreach t ht ▸ by decide
  have hhost := Workbench.keepsToNames.staysInReach fun _ _ hk => hk.elim
  obtain ⟨hkept, -⟩ := stays_in_reach .standard hhost 3 .empty n ⟨0⟩ m hm
  exact ⟨hhost, hm, (hkept ⟨1⟩ (by decide) fun h => by cases hreach _ h).2⟩

end Treewalk
