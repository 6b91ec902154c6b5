import Treewalk.Proofs.Scope.Codes
import Treewalk.Proofs.Workbench.Effects

/-!
# What the natives of the workbench bind and give

Natives bind and give arguments of theirs, values bound before, and plain values; what they note
they never give back. So a property of all values but those with functions or objects in them is
kept: `Workbench.keeps_call`. In particular, the workbench brings in no code:
`Workbench.bringsNoCode`.
-/

namespace Treewalk.Workbench

variable {P : Value → Prop} {σ : Store} {args : List Value}

/-- Whether a native gives a value with a property, and leaves only such values bound. -/
def Keeps (P : Value → Prop) (a : Except EvalError Value × Store × Workbench) : Prop :=
  (∀ v, a.1 = .ok v → P v) ∧ a.2.1.Binds P

theorem keeps_call (hplain : ∀ v : Value, v.IsPlain → P v) (hσ : σ.Binds P)
    (hargs : ∀ v ∈ args, P v) (f : NativeFunction) (env : ScopeId) (w : Workbench) :
    Keeps P (call f args env σ w) :=
  (effect_call f args env σ w).binds hplain hσ hargs

theorem bringsNoCode : host.BringsNoCode fun _ => ∅ := by
  intro C f args env σ w hσ hw hargs
  have h : Keeps (fun v => v.codes ⊆ C) (call f args env σ w) :=
    keeps_call (fun v hv => Value.codes_subset_of_isPlain hv) (Store.codes_subset_iff.1 hσ) hargs
      f env w
  exact ⟨h.1, Store.codes_subset_iff.2 h.2, hw⟩

end Treewalk.Workbench
