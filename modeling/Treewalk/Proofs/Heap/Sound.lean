import Treewalk.Proofs.Heap.Natives

/-!
# Sound stores

What can be relied on in the store of an interpreter, at any moment: the scopes are a tree, tables
have the capacities that the limits give and bind names, and so do objects made by programs. It is
said of a store by `Store.IsSound`, of all that a trace shows by `Trace.IsSound`.

* `Host.KeepsToNames.Holds` is what holds of a machine between two requests.
* `Holds.exec`, `Holds.callValue` and `Holds.child`: it holds again after every request, and all
  that happened meanwhile was sound.
-/

namespace Treewalk

/-- What is known of a value in the heap: its functions were declared below the global scope, and
its objects bind names, unless their like was supplied by the host. -/
structure Store.Admits (c : Config) (Supplied : Table Binding → Prop) (globals : ScopeId)
    (σ : Store) (v : Value) : Prop where
  below : ∀ s, v.Captures s → globals ∈ σ.chain s
  objects : ∀ id t, Value.Nested (.object id t) v → t.BindsNames c.objectCapacity ∨ Supplied t

/-- What holds of the scopes of an interpreter at every moment. A walk from a scope along the
parents goes on until it comes to the global scope, which alone has no parent. -/
structure Store.IsSound (c : Config) (Supplied : Table Binding → Prop) (globals : ScopeId)
    (σ : Store) : Prop where
  root : globals.index < σ.scopes.size ∧ σ.parent? globals = none
  ancestor : ∀ s : ScopeId, s.index < σ.scopes.size → σ.Ancestor s globals
  chain_eq : ∀ s, σ.chain s = s :: ((σ.parent? s).map σ.chain).getD []
  global_eq : ∀ s : ScopeId, s.index < σ.scopes.size → σ.global s = globals
  globals_table : (σ.bindings globals).BindsNames c.globalCapacity
  tables : ∀ (s : ScopeId) (scope : Scope), σ.scopes[s.index]? = some scope → s ≠ globals →
    scope.bindings.BindsNames (if scope.isDiscarded then 0 else c.scopeCapacity)
  values : ∀ s, ∀ v ∈ (σ.bindings s).values, σ.Admits c Supplied globals v

/-- What holds before and after everything that happens between two stores. -/
def Trace.IsSound {ω : Type} (c : Config) (Supplied : Table Binding → Prop) (globals : ScopeId)
    (σ σ' : Store) : Trace ω → Prop
  | node _ _ _ before _ after =>
    before.store.IsSound c Supplied globals ∧ after.2.store.IsSound c Supplied globals ∧
      σ.Extends before.store ∧ before.store.Extends after.2.store ∧ after.2.store.Extends σ'
  | native _ _ σ₁ _ => σ₁.IsSound c Supplied globals ∧ σ.Extends σ₁ ∧ σ₁.Extends σ'

variable {ω : Type} {host : Host ω} {Supplied : Table Binding → Prop} {Known : ω → Value → Prop}
variable {c : Config} {globals env : ScopeId} {σ σ' : Store} {v : Value} {n : Nat}

namespace Host.KeepsToNames

variable (h : host.KeepsToNames Supplied Known)

/-! ## What the realm of all scopes says -/

/-- Values of the realm of all scopes, which is the same whatever the number of old ones. -/
theorem fits_iff (hn : n ≤ σ.scopes.size) (ht : σ.IsTree c globals) :
    (h.realm c n).Fits σ.scopes.size v ↔ σ.Admits c Supplied globals v := by
  constructor
  · intro hv
    refine ⟨fun s hs => ?_, fun id t ht => (hv.good id t ht).imp_left Table.bindsNames_iff.2⟩
    rw [ht.mem_chain_iff, ← h.inside_iff hn]
    exact hv.inside s (Value.captures_iff.1 hs)
  · intro hv
    refine ⟨fun s hs => ?_, fun id t ht => (hv.objects id t ht).imp_left Table.bindsNames_iff.1⟩
    rw [h.inside_iff hn, ← ht.mem_chain_iff]
    exact hv.below s (Value.captures_iff.2 hs)

theorem closed_iff (hn : n ≤ σ.scopes.size) (ht : σ.IsTree c globals) :
    (h.realm c n).Closed σ ↔ ∀ s, ∀ v ∈ (σ.bindings s).values, σ.Admits c Supplied globals v := by
  constructor
  · intro hc s v hv
    refine (h.fits_iff hn ht).1 (hc.bound ((h.inside_iff hn).2 ?_) hv)
    by_contra hlt
    rw [Store.bindings, Array.getElem?_eq_none (Nat.le_of_not_lt hlt)] at hv
    simp at hv
  · intro hv
    refine ⟨hn, fun {s p} hs hp => ?_, fun {s v} _ hm => (h.fits_iff hn ht).2 (hv s v hm)⟩
    rw [h.inside_iff hn] at hs ⊢
    exact (ht.older hp).trans hs

/-- A tree of scopes from which nothing leads out is sound. -/
theorem isSound (hc : (h.realm c n).Closed σ) (ht : σ.IsTree c globals) :
    σ.IsSound c Supplied globals where
  root := ⟨ht.globals_lt, (ht.root_iff globals ht.globals_lt).2 rfl⟩
  ancestor _ hs := ht.ancestor hs
  chain_eq s := ht.toIsForest.chain_eq s
  global_eq _ hs := ht.global_eq hs
  globals_table := by
    obtain ⟨capacity, hk⟩ := ht.keyed globals
    rw [← ht.globals_capacity, hk.capacity_eq]
    exact Table.bindsNames_iff.2 hk
  tables s scope hs hne := by
    obtain ⟨capacity, hk⟩ := ht.keyed s
    rw [Store.bindings, hs] at hk
    rw [← ht.capacity_eq s scope hs hne, hk.capacity_eq]
    exact Table.bindsNames_iff.2 hk
  values := (h.closed_iff hc.base_le ht).1 hc

/-! ## Evaluations -/

/-- What holds of the machine of an interpreter between two requests. -/
structure Holds (c : Config) (globals : ScopeId) (m : Machine ω) : Prop where
  closed : (h.realm c m.store.scopes.size).Closed m.store
  tree : m.store.IsTree c globals
  known : ∀ v, Known m.world v → m.store.Admits c Supplied globals v

variable {h} {m : Machine ω} {isCall : Bool} {depth : Nat}

/-- The confinement of evaluations that start from a machine. -/
abbrev Holds.confinement (hm : h.Holds c globals m) :
    Confinement (Setting.releasing c host) (h.realm c m.store.scopes.size) :=
  h.confinement c globals m.store hm.tree.globals_lt

theorem Holds.also (hm : h.Holds c globals m) : hm.confinement.Also m.store m.world :=
  ⟨hm.tree, .refl _, fun v hv => (h.fits_iff (Nat.le_refl _) hm.tree).2 (hm.known v hv)⟩

theorem Holds.isSound_of_shows (hm : h.Holds c globals m) {t : Trace ω}
    (ht : hm.confinement.Shows σ t) : t.IsSound c Supplied globals m.store σ := by
  cases t with
  | node n depth env before parts after =>
    obtain ⟨⟨hc, htree, hx, -⟩, ⟨hc', htree', -, -⟩, hba, hx'⟩ := ht
    exact ⟨h.isSound hc htree, h.isSound hc' htree', hx, hba, hx'⟩
  | native f r σ₁ w =>
    obtain ⟨⟨hc, htree, hx, -⟩, hx'⟩ := ht
    exact ⟨h.isSound hc htree, hx, hx'⟩

/-- What an evaluation shows that ends in the confinement, with the traces that it writes. -/
theorem Holds.of_ends (hm : h.Holds c globals m)
    {d₁ : Deferred (Answer (ω × List (Trace ω)))} {d₂ : Deferred (Answer ω)}
    (ht : (Setting.releasing c host).Traces isCall depth m [] d₁ d₂)
    (he : (hm.confinement.traced h.keepsParents).Ends d₁.value) :
    let a := d₂.value
    (∃ ps, d₁.value = (a.1, a.2.withTraces ps) ∧ ∀ p ∈ ps, ∀ t : Trace ω, t.Within p →
      t.IsSound c Supplied globals m.store a.2.store) ∧
      h.Holds c globals a.2 ∧ m.store.Extends a.2.store ∧
        ∀ v ∈ a.1.values, a.2.store.Admits c Supplied globals v := by
  intro a
  obtain ⟨ps, hd, -⟩ := ht
  obtain ⟨hclosed, ⟨⟨htree, hext, hknown⟩, hshows⟩, hfits⟩ := he
  rw [hd] at hclosed htree hext hknown hshows hfits
  have hn : m.store.scopes.size ≤ a.2.store.scopes.size := hclosed.base_le
  refine ⟨⟨ps, hd, fun p hp t ht => hm.isSound_of_shows (hshows p hp t ht)⟩,
    ⟨?_, htree, fun v hv => ?_⟩, hext, fun v hv => ?_⟩
  · exact (h.closed_iff (Nat.le_refl _) htree).2 ((h.closed_iff hn htree).1 hclosed)
  · exact (h.fits_iff hn htree).1 (hknown v hv)
  · exact (h.fits_iff hn htree).1 (hfits v hv)

/-- Evaluations of nodes, in scopes below the global one. -/
theorem Holds.exec (hm : h.Holds c globals m) (henv : globals ∈ m.store.chain env) (fuel : Nat)
    (held : Held) (n : Node) :
    let S := Setting.releasing c host
    let a := (S.exec fuel held n env m).value
    (∃ ps, (S.trace fuel 0 held n env (m.withTraces [])).value = (a.1, a.2.withTraces ps) ∧
      ∀ p ∈ ps, ∀ t : Trace ω, t.Within p → t.IsSound c Supplied globals m.store a.2.store) ∧
      h.Holds c globals a.2 ∧ m.store.Extends a.2.store ∧
        ∀ v ∈ a.1.values, a.2.store.Admits c Supplied globals v := by
  intro S a
  have hends := (hm.confinement.confines_trace h.keepsParents fuel 0).ends (m := m.withTraces [])
    hm.closed ⟨hm.also, Confinement.showsAll_nil _⟩ (hm.tree.mem_chain_iff.1 henv) held n
  exact hm.of_ends (S.traces_exec fuel 0 false held n env m []) hends

/-- Calls of values from outside. -/
theorem Holds.callValue (hm : h.Holds c globals m) {callee : Value} {args : List Value}
    (hvs : ∀ v ∈ callee :: args, m.store.Admits c Supplied globals v) (fuel : Nat) (held : Held) :
    let S := Setting.releasing c host
    let a := (S.callValue (S.exec fuel) held callee args globals m).value
    (∃ ps, (S.traced.callValue (S.trace fuel 1) held callee args globals (m.withTraces [])).value =
        (a.1, a.2.withTraces ps) ∧
      ∀ p ∈ ps, ∀ t : Trace ω, t.Within p → t.IsSound c Supplied globals m.store a.2.store) ∧
      h.Holds c globals a.2 ∧ m.store.Extends a.2.store ∧
        ∀ v ∈ a.1.values, a.2.store.Admits c Supplied globals v := by
  intro S a
  have hfits : ∀ v ∈ callee :: args, (h.realm c m.store.scopes.size).Fits m.store.scopes.size v :=
    fun v hv => (h.fits_iff (Nat.le_refl _) hm.tree).2 (hvs v hv)
  have hends := (hm.confinement.confines_trace h.keepsParents fuel 1).ends_callValue
    (m := m.withTraces []) hm.closed ⟨hm.also, Confinement.showsAll_nil _⟩ hm.tree.globals_lt
    (hfits callee List.mem_cons_self) (fun v hv => hfits v (List.mem_cons_of_mem _ hv)) held
  have htraces : S.Traces true 0 m []
      (S.traced.callValue (S.trace fuel 1) held callee args globals (m.withTraces []))
      (S.callValue (S.exec fuel) held callee args globals m) :=
    Setting.traces_callValue (S.traces_exec fuel 1) callee args
  exact hm.of_ends htraces hends

/-- A new scope below the global one. -/
theorem Holds.child (hm : h.Holds c globals m) {s : ScopeId} (hs : globals ∈ m.store.chain s) :
    h.Holds c globals (m.withStore (m.store.child s).2) := by
  have hlt := hm.tree.mem_chain_iff.1 hs
  have htree := hm.tree.child hlt
  have hn : m.store.scopes.size ≤ (m.store.child s).2.scopes.size := by
    rw [Store.child, Store.size_add]
    exact Nat.le_succ _
  refine ⟨?_, htree, fun v hv => ?_⟩
  · have hc := hm.closed.child ((h.inside_iff (Nat.le_refl _)).2 hlt)
    exact (h.closed_iff (Nat.le_refl _) htree).2 ((h.closed_iff hn htree).1 hc)
  · have hv := (h.fits_iff (Nat.le_refl _) hm.tree).2 (hm.known v hv)
    exact (h.fits_iff hn htree).1 (hv.mono hn)

end Host.KeepsToNames

end Treewalk
