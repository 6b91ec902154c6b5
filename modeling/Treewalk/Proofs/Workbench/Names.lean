import Treewalk.Proofs.Reach.Names
import Treewalk.Proofs.Workbench.Effects

/-!
# The natives of the workbench use the store by names

A native of the workbench binds, assigns and gives its arguments, what names mean where it is
called, and values without handles. It makes no objects, and nothing that the workbench notes comes
back to a program: `Workbench.keepsToNames`.
-/

namespace Treewalk.Workbench

variable {args : List Value} {env : ScopeId} {σ σ' : Store} {v : Value}
variable {r : Except EvalError Value} {isGlobal : Prop}
variable {Supplied : Table Binding → Prop} {Known : Value → Prop}

theorem Ready.atHand (h : Ready args env σ v) : AtHand Supplied Known args env σ v := by
  cases h with
  | given hv => exact .given hv
  | found hb => exact .found hb
  | plain hv => exact .plain hv

theorem Effect.named (h : Effect isGlobal args env σ r σ') :
    σ.Named env (AtHand Supplied Known args env σ) σ' := by
  cases h with
  | fail | give => exact .refl
  | declare hs hv hd => exact .declare .refl (hs.imp_right fun h => h.2.1) hv.atHand hd
  | assign hv ha => exact .assign .refl hv.atHand ha

theorem Effect.atHand (h : Effect isGlobal args env σ r σ') (hr : r = .ok v) :
    AtHand Supplied Known args env σ v := by
  cases h <;> cases hr <;> exact Ready.atHand ‹_›

/-- **The natives of the workbench use the store by names** and supply no objects. -/
theorem keepsToNames : host.KeepsToNames (fun _ => False) (fun _ _ => False) where
  copied _ ht := ht
  call f args env σ w := by
    have h := effect_call f args env σ w
    exact ⟨h.named, fun _ hv => h.atHand hv, fun _ hv => hv.elim⟩

end Treewalk.Workbench
