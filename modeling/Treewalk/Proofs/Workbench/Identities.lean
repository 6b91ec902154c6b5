import Treewalk.Proofs.Scope.Identities
import Treewalk.Proofs.Workbench.Effects

/-!
# The natives of the workbench make no objects

What natives bind, note and give are arguments of theirs, values bound before, or values without
objects. So no identity comes into use: `Workbench.numbersObjects`.
-/

namespace Treewalk.Workbench

variable {T : ObjectId → Table Binding} {σ : Store} {args : List Value} {w : Workbench}

/-- What a native that makes no objects has to keep to. -/
def KeepsIdentities (T : ObjectId → Table Binding) (n : Nat)
    (a : Except EvalError Value × Store × Workbench) : Prop :=
  a.2.1.nextObject = n ∧ a.2.1.Obeys T ∧ (∀ v, a.1 = .ok v → v.Obeys T n) ∧ a.2.2.held.Obeys T n

theorem keepsIdentities_call (hσ : σ.Obeys T) (hargs : ∀ v ∈ args, v.Obeys T σ.nextObject)
    (hw : w.held.Obeys T σ.nextObject) (f : NativeFunction) (env : ScopeId) :
    KeepsIdentities T σ.nextObject (call f args env σ w) := by
  have hplain : ∀ v : Value, v.IsPlain → v.Obeys T σ.nextObject := fun v hv => hv.obeys
  have he := effect_call f args env σ w
  obtain ⟨hv, hbinds⟩ := he.binds hplain hσ.binds hargs
  refine ⟨he.nextObject_eq, fun s v hm => he.nextObject_eq ▸ hbinds s v hm, hv, ?_⟩
  obtain hh | ⟨v, hready, hh⟩ := held_call f args env σ w
  · rwa [hh]
  · rw [hh]
    exact hw.value (hready.of_binds hplain hσ.binds hargs)

/-- The natives of the workbench leave identities as they are. -/
theorem numbersObjects : host.NumbersObjects := by
  intro T σ f args env w hσ hargs hw
  obtain ⟨hn, hσ', hv, hw'⟩ := keepsIdentities_call hσ hargs hw f env
  refine ⟨T, fun _ _ => rfl, hn.ge, hσ', fun v hr => ?_, ?_⟩
  · change v.Obeys T (call f args env σ w).2.1.nextObject
    rw [hn]
    exact hv v hr
  · change Held.Obeys T (call f args env σ w).2.1.nextObject _
    rw [hn]
    exact hw'

end Treewalk.Workbench
