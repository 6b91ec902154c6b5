import Treewalk.Proofs.Reach.Names
import Treewalk.Proofs.Reach.Traced

/-!
# The tree of scopes and natives that use names

Natives that use the store by names keep the tree of scopes, the parents of all scopes, and what is
known of the objects in the heap, and so does evaluation: `Host.KeepsToNames.confinement`, in the
realm of all scopes made.
-/

namespace Treewalk

variable {ω : Type} {host : Host ω} {Supplied : Table Binding → Prop} {Known : ω → Value → Prop}
variable {c : Config} {globals env : ScopeId} {σ σ' : Store} {P : Value → Prop}

namespace Store.Named

/-- Names are bound without a new scope or another parent. -/
theorem toExtends (h : σ.Named env P σ') : σ.Extends σ' := by
  induction h with
  | refl => exact .refl σ
  | declare _ _ _ hd ih => exact ih.trans (.declare hd)
  | assign _ _ ha ih => exact ih.trans (.assign ha)
  | number _ next ih => exact ih.trans ⟨Nat.le_refl _, fun _ _ => rfl⟩

theorem isTree (h : σ.Named env P σ') (ht : σ.IsTree c globals) : σ'.IsTree c globals := by
  induction h with
  | refl => exact ht
  | declare _ _ _ hd ih => exact ih.declare hd
  | assign _ _ ha ih => exact ih.assign ha
  | number _ next ih => exact ih.number next

end Store.Named

/-- The realm of all scopes made, and of objects made by programs and supplied by the host. -/
def Host.KeepsToNames.realm (h : host.KeepsToNames Supplied Known) (c : Config) (n : Nat) :
    Realm where
  region := {s | s.index < n}
  base := n
  region_lt _ hs := hs
  Good t := t.IsKeyed c.objectCapacity ∨ Supplied t
  good_copied hc := Or.imp (fun ht => ht.copied hc) (h.copied hc)

namespace Host.KeepsToNames

variable (h : host.KeepsToNames Supplied Known) {n : Nat}

theorem inside_iff {m : Nat} (hn : n ≤ m) {s : ScopeId} :
    (h.realm c n).Inside m s ↔ s.index < m := by
  constructor
  · exact fun hs => hs.index_lt hn
  · exact fun hs => (Nat.lt_or_ge s.index n).imp_right fun hb => ⟨hb, hs⟩

theorem keepsParents (h : host.KeepsToNames Supplied Known) : host.KeepsParents :=
  fun f args env σ w => (h.call f args env σ w).1.toExtends

/-- Evaluations in the tree of scopes of an interpreter keep it, and its scopes their parents. -/
def confinement (c : Config) (globals : ScopeId) (σ₀ : Store)
    (hglobals : globals.index < σ₀.scopes.size) :
    Confinement (Setting.releasing c host) (h.realm c σ₀.scopes.size) where
  Also σ w := σ.IsTree c globals ∧ σ₀.Extends σ ∧
    ∀ v, Known w v → (h.realm c σ₀.scopes.size).Fits σ.scopes.size v
  leave_cases outside s σ := σ.leave_cases outside s
  good_of_isKeyed ht := .inl ht
  child {σ w s} hc ha hs := by
    obtain ⟨ht, hx, hknown⟩ := ha
    have hsize : (σ.child s).2.scopes.size = σ.scopes.size + 1 := Store.size_add ..
    refine ⟨ht.child (hs.index_lt hc.base_le), hx.trans (.add ..), fun v hv => ?_⟩
    exact (hknown v hv).mono (by omega)
  discard {σ w s} hc ha hs := by
    obtain ⟨ht, hx, hknown⟩ := ha
    have hs : σ₀.scopes.size ≤ s.index := hs
    refine ⟨ht.discard ?_, hx.trans (.discard σ s), fun v hv => ?_⟩
    · rintro rfl
      omega
    · rw [Store.size_discard]
      exact hknown v hv
  declare hc ha hs hd := by
    obtain ⟨ht, hx, hknown⟩ := ha
    exact ⟨ht.declare hd, hx.trans (.declare hd), Store.size_of_declare hd ▸ hknown⟩
  assign hc ha hs hd := by
    obtain ⟨ht, hx, hknown⟩ := ha
    exact ⟨ht.assign hd, hx.trans (.assign hd), Store.size_of_assign hd ▸ hknown⟩
  number next ha := by
    obtain ⟨ht, hx, hknown⟩ := ha
    exact ⟨ht.number next, hx.trans ⟨Nat.le_refl _, fun _ _ => rfl⟩, hknown⟩
  call {σ w s args} f hc ha hs hargs := by
    obtain ⟨ht, hx, hknown⟩ := ha
    obtain ⟨hσ, hv, hknown'⟩ := h.call f args s σ w
    have hP : ∀ v, AtHand Supplied (Known w) args s σ v →
        (h.realm c σ₀.scopes.size).Fits σ.scopes.size v :=
      fun v hv => hv.fits hc hs hargs hknown fun _ => .inr
    obtain ⟨hn, hc'⟩ := hσ.closed hP hc
    refine ⟨hn.ge, hc', ⟨hσ.isTree ht, hx.trans hσ.toExtends, fun v hk => ?_⟩, fun v hr => ?_⟩
    · exact hn ▸ hP v (hknown' v hk)
    · exact hn ▸ hP v (hv v hr)

end Host.KeepsToNames

end Treewalk
