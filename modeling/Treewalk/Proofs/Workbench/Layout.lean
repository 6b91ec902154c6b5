import Treewalk.Proofs.Limits.Simulation
import Treewalk.Proofs.Workbench.Identities

/-!
# Natives that see no layout

The text of an object lists its properties in the order of their slots, so a native that formats
objects can tell tables of different capacities apart. The natives of the workbench see nothing
else of the layout of tables: `Workbench.ignoresLayout` for those that take no objects.
-/

namespace Treewalk.Workbench

/-- The workbench with natives that take no objects. -/
def objectFreeHost : Host Workbench where
  call f args env σ w :=
    if args.any (·.type = .object) then (.error (failure "no objects"), σ, w)
    else call f args env σ w
  held := held

/-- Workbenches that are the same up to the layout of tables. -/
structure Resized (P : Pairing) (w w' : Workbench) : Prop where
  builtins_eq : w.builtins = w'.builtins
  output_eq : w.output = w'.output
  notes : List.Forall₂ (Value.Resized P) w.notes.toList w'.notes.toList
  held : Held.Resized P w.held w'.held
  captured_eq : w.captured = w'.captured

/-- What a native of the workbench does on both sides. -/
def Agrees (P : Pairing) (a b : Except EvalError Value × Store × Workbench) : Prop :=
  (∃ e, a.1 = .error e ∧ e.cause.IsLimit) ∨ P.Fits a.2.1 b.2.1 ∧ a.2.1.Resized P b.2.1 ∧
    a.2.2.Resized P b.2.2 ∧ Corresponds (fun _ => False) (Value.Resized P) a.1 b.1

variable {P : Pairing} {σ₁ σ₂ : Store} {w w' : Workbench} {v v' : Value}

theorem agrees_error (hf : P.Fits σ₁ σ₂) (hs : σ₁.Resized P σ₂) (hw : w.Resized P w')
    (e : EvalError) : Agrees P (.error e, σ₁, w) (.error e, σ₂, w') :=
  .inr ⟨hf, hs, hw, .error e⟩

theorem agrees_ok (hf : P.Fits σ₁ σ₂) (hs : σ₁.Resized P σ₂) (hw : w.Resized P w')
    (hv : v.Resized P v') : Agrees P (.ok v, σ₁, w) (.ok v', σ₂, w') :=
  .inr ⟨hf, hs, hw, .ok hv⟩

theorem agrees_plain (hf : P.Fits σ₁ σ₂) (hs : σ₁.Resized P σ₂) (hw : w.Resized P w')
    (hv : v.IsPlain) : Agrees P (.ok v, σ₁, w) (.ok v, σ₂, w') :=
  agrees_ok hf hs hw hv.resized

theorem agrees_bindName (hf : P.Fits σ₁ σ₂) (hs : σ₁.Resized P σ₂) (hw : w.Resized P w')
    (hv : v.type ≠ .object) (name : Value) (isConst : Bool) (s : ScopeId) :
    Agrees P (bindName name v isConst s σ₁ w) (bindName name v isConst s σ₂ w') := by
  rw [bindName, bindName]
  cases nameOf name with
  | error e => exact agrees_error hf hs hw e
  | ok name =>
    have hvv : v.Resized P v := .leaf hv
    cases hd : σ₁.declare s name v isConst with
    | error cause =>
      obtain ⟨-, rfl⟩ := Store.declare_eq_error hd
      simp only [hd]
      exact .inl ⟨_, rfl, trivial⟩
    | ok p =>
      obtain ⟨c, σ₂', hd', hs'⟩ := hs.declare hvv hd
      obtain ⟨-, p, -, hσ₁⟩ := Store.declare_eq_ok hd
      obtain ⟨-, q, -, hσ₂⟩ := Store.declare_eq_ok hd'
      simp only [hd, hd']
      refine agrees_ok ⟨hf.biUnique, ?_⟩ hs' hw hvv
      rw [hσ₁, hσ₂]
      exact hf.within

theorem agrees_assignName (hf : P.Fits σ₁ σ₂) (hs : σ₁.Resized P σ₂) (hw : w.Resized P w')
    (hv : v.type ≠ .object) (name : Value) (s : ScopeId) :
    Agrees P (assignName name v s σ₁ w) (assignName name v s σ₂ w') := by
  rw [assignName, assignName]
  cases nameOf name with
  | error e => exact agrees_error hf hs hw e
  | ok name =>
    have hvv : v.Resized P v := .leaf hv
    obtain ⟨fault, h₁, h₂⟩ | ⟨b, c, σ₁', σ₂', h₁, h₂, hs'⟩ := hs.assign hvv s name
    · simp only [h₁, h₂]
      exact agrees_error hf hs hw _
    · obtain ⟨t, i, old, -, -, -, -, hσ₁⟩ := Store.assign_eq_ok h₁
      obtain ⟨t', j, old', -, -, -, -, hσ₂⟩ := Store.assign_eq_ok h₂
      simp only [h₁, h₂]
      refine agrees_ok ⟨hf.biUnique, ?_⟩ hs' hw hvv
      rw [hσ₁, hσ₂]
      exact hf.within

theorem Resized.note (hw : w.Resized P w') (hv : v.Resized P v') :
    (w.note v).Resized P (w'.note v') where
  builtins_eq := hw.builtins_eq
  output_eq := hw.output_eq
  notes := by
    simp only [Workbench.note, Array.toList_push]
    exact List.rel_append hw.notes (.cons hv .nil)
  held := hw.held.value hv
  captured_eq := hw.captured_eq

/-- A native that takes no objects does the same on both sides. -/
theorem agrees_run (hf : P.Fits σ₁ σ₂) (hs : σ₁.Resized P σ₂) (hw : w.Resized P w')
    (b : Builtin) {args : List Value} (hargs : ∀ v ∈ args, v.type ≠ .object) (env : ScopeId) :
    Agrees P (w.run b args env σ₁) (w'.run b args env σ₂) := by
  have harg : ∀ i : Nat, Value.type (args[i]?.getD .null) ≠ .object := by
    intro i
    rcases mem_or_null args i with hm | hn
    · exact hargs _ hm
    · rw [hn]
      simp [Value.type]
  cases b with
  | print => exact agrees_plain hf hs { hw with output_eq := by rw [hw.output_eq] } trivial
  | printLine => exact agrees_plain hf hs { hw with output_eq := by rw [hw.output_eq] } trivial
  | note => exact agrees_ok hf hs (hw.note (.leaf (harg 0))) (.leaf (harg 0))
  | capture => exact agrees_plain hf hs { hw with captured_eq := by rw [hw.captured_eq] } trivial
  | fail => exact agrees_error hf hs hw _
  | failAt => exact agrees_error hf hs hw _
  | define isConst => exact agrees_bindName hf hs hw (harg 1) _ isConst env
  | defineGlobal =>
    have hg : σ₂.global env = σ₁.global env := by
      rw [Store.global, Store.global, hs.chain_eq]
    dsimp only [run]
    rw [hg]
    exact agrees_bindName hf hs hw (harg 1) _ false _
  | lookup =>
    dsimp only [run, look]
    cases nameOf (args[0]?.getD .null) with
    | error e => exact agrees_error hf hs hw e
    | ok name =>
      obtain ⟨h₁, h₂⟩ | ⟨b, c, h₁, h₂, -, hbc⟩ := hs.resolve env name
      · simp only [Except.map, h₁, h₂]
        exact agrees_plain hf hs hw trivial
      · simp only [Except.map, h₁, h₂]
        exact agrees_ok hf hs hw hbc
  | assign => exact agrees_assignName hf hs hw (harg 1) _ env
  | hasLocal =>
    dsimp only [run, look]
    simp only [(hs.bindings env).contains_eq]
    cases nameOf (args[0]?.getD .null) with
    | error e => exact agrees_error hf hs hw e
    | ok name => exact agrees_plain hf hs hw trivial
  | depth =>
    dsimp only [run, look]
    rw [Store.depth, Store.depth, hs.chain_eq]
    exact agrees_plain hf hs hw trivial
  | localSize =>
    dsimp only [run, look]
    rw [(hs.bindings env).size_eq]
    exact agrees_plain hf hs hw trivial
  | typeOf => exact agrees_plain hf hs hw trivial
  | isTruthy => exact agrees_plain hf hs hw trivial
  | numberOf =>
    refine agrees_plain hf hs hw ?_
    cases Value.number? (args[0]?.getD .null) <;> trivial
  | same => exact agrees_plain hf hs hw trivial
  | identity => exact agrees_ok hf hs hw (.leaf (harg 0))
  | count => exact agrees_plain hf hs hw trivial
  | makeNative =>
    dsimp only [run]
    cases nameOf (args[0]?.getD .null) with
    | error e => exact agrees_error hf hs hw e
    | ok name =>
      simp only [newNative, hw.builtins_eq]
      exact agrees_plain hf hs { hw with builtins_eq := rfl } trivial

/-- Arguments without objects are the same on both sides. -/
theorem eq_of_resized {args args' : List Value}
    (h : List.Forall₂ (Value.Resized P) args args') (hargs : ∀ v ∈ args, v.type ≠ .object) :
    args = args' := by
  induction h with
  | nil => rfl
  | @cons v v' vs vs' hv _ ih =>
    rw [hv.eq_of_type (hargs v List.mem_cons_self),
      ih fun u hu => hargs u (List.mem_cons_of_mem v hu)]

/-- **Natives of the workbench that take no objects see no layout.** -/
theorem ignoresLayout : objectFreeHost.IgnoresLayout Resized Workbench.output where
  identities := by
    intro T σ f args env w hσ hargs hw
    dsimp only [objectFreeHost]
    split
    · exact ⟨T, fun _ _ => rfl, Nat.le_refl _, hσ, (fun v h => by cases h), hw⟩
    · exact numbersObjects f env hσ hargs hw
  mono hP h :=
    { h with notes := h.notes.imp fun _ _ hv => hv.mono hP, held := h.held.mono hP }
  held h := h.held
  printed_eq h := h.output_eq
  call {P σ₁ σ₂} f {args args'} env {w w'} hf hs hargs hw := by
    have h : Agrees P (objectFreeHost.call f args env σ₁ w)
        (objectFreeHost.call f args' env σ₂ w') := by
      have hobjects : args.any (·.type = .object) = args'.any (·.type = .object) := by
        clear hw
        induction hargs with
        | nil => rfl
        | cons hv _ ih => rw [List.any_cons, List.any_cons, hv.alike.type_eq, ih]
      dsimp only [objectFreeHost]
      rw [hobjects]
      split
      · exact agrees_error hf hs hw _
      · next hn =>
        rw [← hobjects] at hn
        have hleaf : ∀ v ∈ args, v.type ≠ .object := fun v hv ht =>
          hn (List.any_eq_true.2 ⟨v, hv, by simpa using ht⟩)
        obtain rfl := eq_of_resized hargs hleaf
        rw [call, call, hw.builtins_eq]
        split
        · next b _ => exact agrees_run hf hs hw b hleaf env
        · exact agrees_error hf hs hw _
    obtain he | ⟨hf', hs', hw', hr⟩ := h
    · exact .inl he
    · exact .inr ⟨P, fun _ _ => id, hf', hs', hw', hr⟩

end Treewalk.Workbench
