import Treewalk.Proofs.Release.Simulation
import Treewalk.Proofs.Workbench.Identities

/-!
# The workbench uses strong handles

A native of the workbench looks up and writes names from the scope of the call, and keeps noted
values alive in the open: `Workbench.usesStrongHandles`. The scopes that it remembers without
keeping them alive are read by the host alone, never by a native.
-/

namespace Treewalk

namespace Workbench

variable {A : Set ScopeId} {σ σ₁ σ₂ : Store} {args : List Value} {env : ScopeId} {w : Workbench}
variable {v : Value}

/-- An argument mentions what the arguments mention. -/
theorem argument_mem (hargs : ∀ v ∈ args, ∀ u, v.mentions u = true → u ∈ A) (i : Nat) :
    ∀ u, (args[i]?.getD .null).mentions u = true → u ∈ A := by
  intro u hu
  rcases mem_or_null args i with hm | hn
  · exact hargs _ hm u hu
  · rw [hn] at hu
    cases hu

/-- What a native with the same result on both sides has to keep to. -/
def KeepsTo (A : Set ScopeId) (a b : Except EvalError Value × Store × Workbench) : Prop :=
  ∃ B : Set ScopeId, A ⊆ B ∧ a.1 = b.1 ∧ a.2.2 = b.2.2 ∧ a.2.1.IsRegion B ∧
    Store.SameIn B a.2.1 b.2.1 ∧ (∀ v, a.1 = .ok v → ∀ u, v.mentions u = true → u ∈ B) ∧
      ∀ u, a.2.2.held.IsRoot u → u ∈ B

theorem keepsTo {r : Except EvalError Value} (hr : σ₁.IsRegion A) (hs : Store.SameIn A σ₁ σ₂)
    (hw : ∀ u, w.held.IsRoot u → u ∈ A)
    (hv : ∀ v, r = .ok v → ∀ u, v.mentions u = true → u ∈ A) :
    KeepsTo A (r, σ₁, w) (r, σ₂, w) :=
  ⟨A, Set.Subset.refl A, rfl, rfl, hr, hs, hv, hw⟩

theorem keepsTo_error {e : EvalError} (hr : σ₁.IsRegion A) (hs : Store.SameIn A σ₁ σ₂)
    (hw : ∀ u, w.held.IsRoot u → u ∈ A) : KeepsTo A (.error e, σ₁, w) (.error e, σ₂, w) :=
  keepsTo hr hs hw fun _ h => by cases h

theorem keepsTo_ok (hr : σ₁.IsRegion A) (hs : Store.SameIn A σ₁ σ₂)
    (hw : ∀ u, w.held.IsRoot u → u ∈ A) (hv : ∀ u, v.mentions u = true → u ∈ A) :
    KeepsTo A (.ok v, σ₁, w) (.ok v, σ₂, w) :=
  keepsTo hr hs hw fun _ h => by
    cases h
    exact hv

theorem keepsTo_plain (hr : σ₁.IsRegion A) (hs : Store.SameIn A σ₁ σ₂)
    (hw : ∀ u, w.held.IsRoot u → u ∈ A) (hv : v.IsPlain) :
    KeepsTo A (.ok v, σ₁, w) (.ok v, σ₂, w) :=
  keepsTo_ok hr hs hw fun u hu => by simp [hv.mentions_eq_false u] at hu

theorem keepsTo_bindName (hr : σ₁.IsRegion A) (hs : Store.SameIn A σ₁ σ₂)
    (hw : ∀ u, w.held.IsRoot u → u ∈ A) (henv : env ∈ A) (name : Value) (isConst : Bool)
    (hv : ∀ u, v.mentions u = true → u ∈ A) :
    KeepsTo A (bindName name v isConst env σ₁ w) (bindName name v isConst env σ₂ w) := by
  rw [bindName, bindName]
  cases nameOf name with
  | error e => exact keepsTo_error hr hs hw
  | ok name =>
    obtain ⟨cause, h₁, h₂⟩ | ⟨b, σ₁', σ₂', h₁, h₂, hr', hs'⟩ := hs.declare hr henv hv name isConst
    · simp only [h₁, h₂]
      exact keepsTo_error hr hs hw
    · simp only [h₁, h₂]
      exact keepsTo_ok hr' hs' hw hv

theorem keepsTo_assignName (hr : σ₁.IsRegion A) (hs : Store.SameIn A σ₁ σ₂)
    (hw : ∀ u, w.held.IsRoot u → u ∈ A) (henv : env ∈ A) (name : Value)
    (hv : ∀ u, v.mentions u = true → u ∈ A) :
    KeepsTo A (assignName name v env σ₁ w) (assignName name v env σ₂ w) := by
  rw [assignName, assignName]
  cases nameOf name with
  | error e => exact keepsTo_error hr hs hw
  | ok name =>
    obtain ⟨fault, h₁, h₂⟩ | ⟨b, σ₁', σ₂', h₁, h₂, hr', hs'⟩ := hs.assign hr henv hv name
    · simp only [h₁, h₂]
      exact keepsTo_error hr hs hw
    · simp only [h₁, h₂]
      exact keepsTo_ok hr' hs' hw hv

/-- The root of a scope lies in its region. -/
theorem global_mem (hr : σ.IsRegion A) (henv : env ∈ A) : σ.global env ∈ A :=
  hr.chain_subset henv _ (σ.global_mem_chain env)

theorem keepsTo_run (hr : σ₁.IsRegion A) (hs : Store.SameIn A σ₁ σ₂) (henv : env ∈ A)
    (hargs : ∀ v ∈ args, ∀ u, v.mentions u = true → u ∈ A) (hw : ∀ u, w.held.IsRoot u → u ∈ A)
    (b : Builtin) : KeepsTo A (w.run b args env σ₁) (w.run b args env σ₂) := by
  have ha := argument_mem hargs 0
  have hb := argument_mem hargs 1
  cases b with
  | print => exact keepsTo_plain (w := { w with output := _ }) hr hs hw trivial
  | printLine => exact keepsTo_plain (w := { w with output := _ }) hr hs hw trivial
  | note =>
    refine keepsTo_ok (w := w.note _) hr hs (fun u hu => ?_) ha
    rcases Held.isRoot_value.1 hu with hm | hu
    · exact ha u hm
    · exact hw u hu
  | capture => exact keepsTo_plain (w := { w with captured := _ }) hr hs hw trivial
  | fail => exact keepsTo_error hr hs hw
  | failAt => exact keepsTo_error hr hs hw
  | define isConst => exact keepsTo_bindName hr hs hw henv _ isConst hb
  | defineGlobal =>
    have hg : σ₂.global env = σ₁.global env := by
      rw [Store.global, Store.global, hs.chain_eq hr henv]
    dsimp only [run]
    rw [hg]
    exact keepsTo_bindName hr hs hw (global_mem hr henv) _ false hb
  | lookup =>
    dsimp only [run, look]
    simp only [← hs.resolve_eq hr henv]
    cases nameOf (args[0]?.getD .null) with
    | error e => exact keepsTo_error hr hs hw
    | ok name =>
      refine keepsTo_ok hr hs hw fun u hu => ?_
      dsimp only at hu
      cases hres : σ₁.resolve env name with
      | none =>
        rw [hres] at hu
        cases hu
      | some b =>
        rw [hres] at hu
        obtain ⟨t, ht, hbv⟩ := Store.mem_values_of_resolve hres
        exact hr.mem_of_mentions (hr.chain_subset henv t ht) hbv hu
  | assign => exact keepsTo_assignName hr hs hw henv _ hb
  | hasLocal =>
    dsimp only [run, look]
    simp only [← hs.bindings_eq henv]
    cases nameOf (args[0]?.getD .null) with
    | error e => exact keepsTo_error hr hs hw
    | ok name => exact keepsTo_plain hr hs hw trivial
  | depth =>
    dsimp only [run, look]
    rw [Store.depth, Store.depth, ← hs.chain_eq hr henv]
    exact keepsTo_plain hr hs hw trivial
  | localSize =>
    dsimp only [run, look]
    rw [← hs.bindings_eq henv]
    exact keepsTo_plain hr hs hw trivial
  | typeOf => exact keepsTo_plain hr hs hw trivial
  | isTruthy => exact keepsTo_plain hr hs hw trivial
  | numberOf =>
    refine keepsTo_plain hr hs hw ?_
    cases Value.number? (args[0]?.getD .null) <;> trivial
  | same => exact keepsTo_plain hr hs hw trivial
  | identity => exact keepsTo_ok hr hs hw ha
  | count => exact keepsTo_plain hr hs hw trivial
  | makeNative =>
    dsimp only [run]
    cases nameOf (args[0]?.getD .null) with
    | error e => exact keepsTo_error hr hs hw
    | ok name => exact keepsTo_plain (w := (w.newNative name .count).2) hr hs hw trivial

/-- **The natives of the workbench use strong handles alone.** -/
theorem usesStrongHandles : host.UsesStrongHandles where
  region {A σ₁ σ₂} f {args env w} hr hs henv hargs hw := by
    change KeepsTo A (call f args env σ₁ w) (call f args env σ₂ w)
    rw [call, call]
    split
    · next b _ => exact keepsTo_run hr hs henv hargs hw b
    · exact keepsTo_error hr hs hw
  identities := numbersObjects

end Workbench

end Treewalk
