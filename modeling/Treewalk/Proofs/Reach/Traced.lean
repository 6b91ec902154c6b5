import Treewalk.Proofs.Heap.Tree
import Treewalk.Proofs.Reach.Confinement
import Treewalk.Proofs.Simulation.Invariant
import Treewalk.Proofs.Trace.Simulation

/-!
# Confinement at every moment

A confinement holds not only when an evaluation ends: in a trace of the evaluation it holds before
and after every node and after every native. No parent is ever changed on the way, so each of these
stores is extended by all later ones.

A trace is written beside the world, so the traced setting has a confinement of its own, which also
says what the trace shows: `Confinement.traced`.

Main statement: `Confinement.confines_trace`, evaluators that write traces keep to it.
-/

namespace Treewalk

variable {ω : Type} {S : Setting ω} {R : Realm}

/-! ## Parents stay -/

/-- Whether the natives of a host leave parents as they are. -/
def Host.KeepsParents (host : Host ω) : Prop :=
  ∀ (f : NativeFunction) (args : List Value) (env : ScopeId) (σ : Store) (w : ω),
    σ.Extends (host.call f args env σ w).2.1

/-- Every evaluation extends the store that it starts from. -/
def extendsInvariant (hleave : ∀ outside s σ, S.leave outside s σ = σ.discard s ∨
    S.leave outside s σ = σ) (h : S.host.KeepsParents) (σ₀ : Store) : Invariant S where
  Kept σ _ := σ₀.Extends σ
  Open _ := True
  New _ := True
  open_of_new _ := trivial
  child _ hk := ⟨trivial, hk.trans (.add ..)⟩
  leave {σ _ s} outside _ hk := by
    obtain he | he := hleave outside s σ
    · rw [he]
      exact hk.trans (.discard σ s)
    · rwa [he]
  declare hk _ hd := hk.trans (.declare hd)
  assign hk ha := hk.trans (.assign ha)
  number next hk := hk.trans ⟨Nat.le_refl _, fun _ _ => rfl⟩
  call f args hk _ := hk.trans (h f args _ _ _)

theorem extends_exec (hleave : ∀ outside s σ, S.leave outside s σ = σ.discard s ∨
    S.leave outside s σ = σ) (h : S.host.KeepsParents) (fuel : Nat) (held : Held) (n : Node)
    (env : ScopeId) (m : Machine ω) :
    m.store.Extends (S.exec fuel held n env m).value.2.store :=
  (extendsInvariant hleave h m.store).kept_exec (.refl m.store) trivial fuel held n

/-! ## What a trace shows -/

namespace Confinement

variable (C : Confinement S R)

/-- Whether a confinement held before and after something that happened, and the stores then lead
up to a later one. -/
def Shows (σ : Store) : Trace ω → Prop
  | .node _ _ _ before _ after =>
    (R.Closed before.store ∧ C.Also before.store before.world) ∧
      (R.Closed after.2.store ∧ C.Also after.2.store after.2.world) ∧
        before.store.Extends after.2.store ∧ after.2.store.Extends σ
  | .native _ _ σ' w => (R.Closed σ' ∧ C.Also σ' w) ∧ σ'.Extends σ

/-- Whether all that happened during some things shows a confinement. -/
def ShowsAll (σ : Store) (ts : List (Trace ω)) : Prop :=
  ∀ p ∈ ts, ∀ t : Trace ω, t.Within p → C.Shows σ t

variable {C} {σ σ' : Store} {ts : List (Trace ω)}

theorem ShowsAll.mono (h : C.ShowsAll σ ts) (hσ : σ.Extends σ') : C.ShowsAll σ' ts := by
  intro p hp t ht
  have hs := h p hp t ht
  cases t with
  | node n depth env before parts after =>
    obtain ⟨hb, ha, hba, hx⟩ := hs
    exact ⟨hb, ha, hba, hx.trans hσ⟩
  | native f r σ₁ w => exact ⟨hs.1, hs.2.trans hσ⟩

theorem showsAll_nil (σ : Store) : C.ShowsAll σ [] := Trace.forall_within_nil

/-- The confinement of a traced setting: that of the setting, as the trace shows it. -/
def traced (C : Confinement S R) (h : S.host.KeepsParents) : Confinement S.traced R where
  Also σ w := C.Also σ w.1 ∧ C.ShowsAll σ w.2
  leave_cases := C.leave_cases
  good_of_isKeyed := C.good_of_isKeyed
  child hc ha hs := ⟨C.child hc ha.1 hs, ha.2.mono (.add ..)⟩
  discard hc ha hs := ⟨C.discard hc ha.1 hs, ha.2.mono (.discard ..)⟩
  declare hc ha hs hd := ⟨C.declare hc ha.1 hs hd, ha.2.mono (.declare hd)⟩
  assign hc ha hs hd := ⟨C.assign hc ha.1 hs hd, ha.2.mono (.assign hd)⟩
  number next ha := ⟨C.number next ha.1, ha.2.mono ⟨Nat.le_refl _, fun _ _ => rfl⟩⟩
  call {σ w s args} f hc ha hs hargs := by
    obtain ⟨hn, hc', ha', hv⟩ := C.call f hc ha.1 hs hargs
    exact ⟨hn, hc', ⟨ha', Trace.forall_within_append (ha.2.mono (h f args s σ w.1))
      (Trace.forall_within_native ⟨⟨hc', ha'⟩, .refl _⟩)⟩, hv⟩

/-! ## Evaluators that write traces -/

/-- A trace may be written at the end of a node: the confinement holds before it and after it. -/
theorem records_traced (C : Confinement S R) (h : S.host.KeepsParents) (held : Held) :
    ((C.traced h).simulation held).Records where
  node_eq hn := hn
  twin_eq _ := rfl
  line _ := rfl
  same := fun {Γ m₁ m₂} ⟨hline, hdepth, hσ, hw, hk⟩ => by
    refine ⟨?_, hk.same.left_eq_right held⟩
    cases m₁
    cases m₂
    simp only [Machine.mk.injEq]
    exact ⟨hσ, hline, hdepth, hw⟩
  start _ := fun ⟨_, _, _, _, hk⟩ =>
    ⟨rfl, rfl, rfl, rfl, hk.closed, ⟨hk.also.1, showsAll_nil _⟩, hk.scopes, hk.values⟩
  record := fun {Γ Δ m fuel depth held n env parts a} ⟨_, _, _, _, hk⟩ ha _ hag => by
    obtain ⟨-, -, hr⟩ := hag.rel
    have hext : m.store.Extends a.2.store :=
      ha ▸ extends_exec C.leave_cases h fuel held n env m.plain
    have hold : C.ShowsAll a.2.store m.world.2 := hk.also.2.mono hext
    have hnode : C.Shows a.2.store (.node n depth env m.plain parts a) :=
      ⟨⟨hk.closed, hk.also.1⟩, ⟨hr.closed, hr.also.1⟩, hext, .refl _⟩
    exact ⟨rfl, rfl, rfl, rfl, hr.closed, ⟨hr.also.1, Trace.forall_within_append hold
      (Trace.forall_within_node hr.also.2 hnode)⟩, hr.scopes, hr.values⟩

/-- **Evaluators that write traces keep to the confinement**, and so do all moments that the traces
show. -/
theorem confines_trace (C : Confinement S R) (h : S.host.KeepsParents) (fuel depth : Nat) :
    (C.traced h).Confines (S.trace fuel depth) :=
  fun held => (C.records_traced h held).follows_trace fuel depth

end Confinement

end Treewalk
