import Treewalk.Native.Workbench
import Treewalk.Proofs.Scope.Binds
import Treewalk.Proofs.Simulation.Basic

/-!
# What the natives of the workbench do

A native of the workbench fails, gives a value that it has at hand, or binds or assigns one and
gives it. At hand are its arguments, what names mean where it is called, and plain values.
`Workbench.effect_call` says so of all natives; what they keep to follows from it.

* `Workbench.Effect.binds`: a property of all values but those with functions or objects in them
  is kept.
* `Workbench.held_call`: at most one value is noted, and it was at hand.
-/

namespace Treewalk.Workbench

variable {args : List Value} {env s : ScopeId} {σ σ' : Store} {w : Workbench} {v : Value}
variable {r : Except EvalError Value} {isGlobal : Prop}

/-- The values that a native has at hand. -/
inductive Ready (args : List Value) (env : ScopeId) (σ : Store) : Value → Prop
  | given {v : Value} (hv : v ∈ args) : Ready args env σ v
  | found {name : String} {b : Binding} (hb : σ.resolve env name = some b) :
    Ready args env σ b.value
  | plain {v : Value} (hv : v.IsPlain) : Ready args env σ v

/-- What a native gives, and the store that it leaves; `isGlobal` is whether it may bind variables
in the root of the scope that it is called in. -/
inductive Effect (isGlobal : Prop) (args : List Value) (env : ScopeId) (σ : Store) :
    Except EvalError Value → Store → Prop
  | fail (e : EvalError) : Effect isGlobal args env σ (.error e) σ
  | give {v : Value} (hv : Ready args env σ v) : Effect isGlobal args env σ (.ok v) σ
  | declare {σ' : Store} {s : ScopeId} {name : String} {v : Value} {isConst : Bool} {b : Binding}
    (hs : s = env ∨ isGlobal ∧ s = σ.global env ∧ isConst = false) (hv : Ready args env σ v)
    (hd : σ.declare s name v isConst = .ok (b, σ')) : Effect isGlobal args env σ (.ok v) σ'
  | assign {σ' : Store} {name : String} {v : Value} {b : Binding} (hv : Ready args env σ v)
    (ha : σ.assign env name v = .ok (b, σ')) : Effect isGlobal args env σ (.ok v) σ'

/-! ## One native after another -/

theorem mem_or_null (args : List Value) (i : Nat) :
    args[i]?.getD .null ∈ args ∨ args[i]?.getD .null = .null := by
  cases h : args[i]? with
  | none => exact .inr rfl
  | some v => exact .inl (List.mem_of_getElem? h)

theorem ready_argument (args : List Value) (env : ScopeId) (σ : Store) (i : Nat) :
    Ready args env σ (args[i]?.getD .null) := by
  rcases mem_or_null args i with hm | hn
  · exact .given hm
  · rw [hn]
    exact .plain trivial

theorem effect_bindName {isConst : Bool}
    (hs : s = env ∨ isGlobal ∧ s = σ.global env ∧ isConst = false) (name : Value)
    (hv : Ready args env σ v) (w : Workbench) :
    let r := bindName name v isConst s σ w
    Effect isGlobal args env σ r.1 r.2.1 := by
  dsimp only
  rw [bindName]
  cases nameOf name with
  | error e => exact .fail e
  | ok name =>
    dsimp only
    split
    · next hd => exact .declare hs hv hd
    · exact .fail _

theorem effect_assignName (name : Value) (hv : Ready args env σ v) (w : Workbench) :
    let r := assignName name v env σ w
    Effect isGlobal args env σ r.1 r.2.1 := by
  dsimp only
  rw [assignName]
  cases nameOf name with
  | error e => exact .fail e
  | ok name =>
    dsimp only
    split
    · next ha => exact .assign hv ha
    · exact .fail _

theorem effect_run {b : Builtin} (hb : b = .defineGlobal → isGlobal) (args : List Value)
    (env : ScopeId) (σ : Store) (w : Workbench) :
    Effect isGlobal args env σ (w.run b args env σ).1 (w.run b args env σ).2.1 := by
  have ha := ready_argument args env σ 0
  have ha' := ready_argument args env σ 1
  cases b with
  | note | identity => exact .give ha
  | fail | failAt => exact .fail _
  | define isConst => exact effect_bindName (.inl rfl) _ ha' w
  | defineGlobal => exact effect_bindName (.inr ⟨hb rfl, rfl, rfl⟩) _ ha' w
  | assign => exact effect_assignName _ ha' w
  | lookup =>
    dsimp only [run, look]
    cases nameOf (args[0]?.getD .null) with
    | error e => exact .fail e
    | ok name =>
      refine .give ?_
      dsimp only
      cases hr : σ.resolve env name with
      | none => exact .plain trivial
      | some b => exact .found hr
  | hasLocal =>
    dsimp only [run, look]
    cases nameOf (args[0]?.getD .null) with
    | error e => exact .fail e
    | ok name => exact .give (.plain trivial)
  | numberOf =>
    refine .give (.plain ?_)
    cases Value.number? (args[0]?.getD .null) <;> trivial
  | makeNative =>
    dsimp only [run]
    cases nameOf (args[0]?.getD .null) with
    | error e => exact .fail e
    | ok name => exact .give (.plain trivial)
  | _ => exact .give (.plain trivial)

/-- Every native of the workbench has one of these effects. -/
theorem effect_call (f : NativeFunction) (args : List Value) (env : ScopeId) (σ : Store)
    (w : Workbench) : Effect (w.builtins[f.number]? = some .defineGlobal) args env σ
      (call f args env σ w).1 (call f args env σ w).2.1 := by
  rw [call]
  cases w.builtins[f.number]? with
  | none => exact .fail _
  | some b => exact effect_run (congrArg some) args env σ w

/-! ## Values noted -/

@[simp] theorem world_bindName (name : Value) (isConst : Bool) (s : ScopeId) :
    (bindName name v isConst s σ w).2.2 = w := by
  rw [bindName]
  cases nameOf name with
  | error e => rfl
  | ok name =>
    dsimp only
    split <;> rfl

@[simp] theorem world_assignName (name : Value) (s : ScopeId) :
    (assignName name v s σ w).2.2 = w := by
  rw [assignName]
  cases nameOf name with
  | error e => rfl
  | ok name =>
    dsimp only
    split <;> rfl

/-- A native notes a value that it has at hand, or leaves what is held as it was. -/
theorem held_call (f : NativeFunction) (args : List Value) (env : ScopeId) (σ : Store)
    (w : Workbench) : (call f args env σ w).2.2.held = w.held ∨
      ∃ v, Ready args env σ v ∧ (call f args env σ w).2.2.held = w.held.value v := by
  rw [call]
  split
  · next b _ =>
    cases b with
    | note => exact .inr ⟨_, ready_argument args env σ 0, rfl⟩
    | define | defineGlobal => exact .inl (by simp [run])
    | assign => exact .inl (by simp [run])
    | makeNative =>
      dsimp only [run]
      cases nameOf (args[0]?.getD .null) <;> exact .inl rfl
    | _ => exact .inl rfl
  · exact .inl rfl

/-! ## What natives keep -/

variable {P : Value → Prop}

/-- What arguments, values bound and plain values are, values at hand are. -/
theorem Ready.of_binds (h : Ready args env σ v) (hplain : ∀ v : Value, v.IsPlain → P v)
    (hσ : σ.Binds P) (hargs : ∀ v ∈ args, P v) : P v := by
  cases h with
  | given hv => exact hargs _ hv
  | found hb => exact hσ.resolve hb
  | plain hv => exact hplain _ hv

theorem Effect.binds (h : Effect isGlobal args env σ r σ') (hplain : ∀ v : Value, v.IsPlain → P v)
    (hσ : σ.Binds P) (hargs : ∀ v ∈ args, P v) : (∀ v, r = .ok v → P v) ∧ σ'.Binds P := by
  cases h with
  | fail e => exact ⟨(fun _ he => by cases he), hσ⟩
  | give hv => exact ⟨(fun _ he => by cases he; exact hv.of_binds hplain hσ hargs), hσ⟩
  | declare _ hv hd =>
    have hv := hv.of_binds hplain hσ hargs
    exact ⟨(fun _ he => by cases he; exact hv), hσ.declare hv hd⟩
  | assign hv ha =>
    have hv := hv.of_binds hplain hσ hargs
    exact ⟨(fun _ he => by cases he; exact hv), (hσ.assign hv ha).1⟩

/-- No native makes an object. -/
theorem Effect.nextObject_eq (h : Effect isGlobal args env σ r σ') :
    σ'.nextObject = σ.nextObject := by
  cases h with
  | fail | give => rfl
  | declare _ _ hd =>
    obtain ⟨-, p, -, rfl⟩ := Store.declare_eq_ok hd
    rfl
  | assign _ ha =>
    obtain ⟨t, i, old, -, -, -, -, rfl⟩ := Store.assign_eq_ok ha
    rfl

end Treewalk.Workbench
