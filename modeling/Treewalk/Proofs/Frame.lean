import Mathlib.Data.Set.Insert
import Treewalk.Proofs.Scope.Store
import Treewalk.Proofs.Simulation.Invariant
import Treewalk.Proofs.Workbench.Effects

/-!
# The frame of an evaluation

An evaluation changes little of the scopes that were there before it. Names are declared only in
the scope at hand and in scopes that the evaluation makes; in all others only the values of
variables change. `Store.Frame` says so of two stores, given the scopes in which names may have
been declared. It holds of every primitive operation, and from there it is an invariant.

The natives of the host have to keep to the same rule, which is `Host.IsConfined`.

Main statement: `frame_exec`, the frame of a node, of a node with a scope of its own, and of a call.
-/

namespace Treewalk

/-! ## Tables -/

/-- A table after names were declared in it: no name is lost. -/
structure Table.Grows (t u : Table Binding) : Prop where
  capacity : u.capacity = t.capacity
  contains : ∀ name, t.contains name = true → u.contains name = true

/-- A table after variables were assigned: nothing but their values has changed. -/
structure Table.UpToVariables (t u : Table Binding) : Prop where
  keys : u.keys = t.keys
  isConst : ∀ name,
    (u.get? name).map BindingOf.isConst = (t.get? name).map BindingOf.isConst
  const : ∀ name b, t.get? name = some b → b.isConst = true → u.get? name = some b

namespace Table

variable {t u v : Table Binding}

theorem Grows.refl (t : Table Binding) : t.Grows t := ⟨rfl, fun _ h => h⟩

theorem Grows.trans (h : t.Grows u) (h' : u.Grows v) : t.Grows v :=
  ⟨h'.capacity.trans h.capacity, fun name hn => h'.contains name (h.contains name hn)⟩

theorem UpToVariables.refl (t : Table Binding) : t.UpToVariables t :=
  ⟨rfl, fun _ => rfl, fun _ _ h _ => h⟩

theorem UpToVariables.trans (h : t.UpToVariables u) (h' : u.UpToVariables v) :
    t.UpToVariables v where
  keys := h'.keys.trans h.keys
  isConst name := (h'.isConst name).trans (h.isConst name)
  const name b hb hc := h'.const name b (h.const name b hb hc) hc

theorem grows_place {name : String} {p : SetOutcome × Nat} (hp : t.place? name = some p)
    (b : Binding) : t.Grows (t.write p name b) :=
  ⟨capacity_write .., fun _ h => contains_place hp h b⟩

theorem grows_overwrite {name : String} {i : Nat} {b : Binding}
    (hl : t.locate? name = some (i, b)) (c : Binding) :
    t.Grows (t.write (.overwritten, i) name c) := by
  obtain ⟨-, hs⟩ := locate?_eq_some.1 hl
  refine ⟨capacity_write .., fun k hk => ?_⟩
  rw [contains, find?_overwrite hs]
  exact hk

/-- Only a variable has got another value. -/
theorem upToVariables_overwrite {name : String} {i : Nat} {b : Binding}
    (hl : t.locate? name = some (i, b)) (hc : b.isConst = false) (value : Value) :
    t.UpToVariables (t.write (.overwritten, i) name (b.withValue value)) := by
  obtain ⟨hi, hs⟩ := locate?_eq_some.1 hl
  have hb : t.get? name = some b := get?_eq_some.2 ⟨i, hi, hs⟩
  refine ⟨keys_overwrite hs _, fun k => ?_, fun k c hk hcc => ?_⟩
  · rw [get?_overwrite hi]
    split
    · next hk =>
      subst hk
      rw [hb]
      rfl
    · rfl
  · rw [get?_overwrite hi, if_neg]
    · exact hk
    · rintro rfl
      obtain rfl := Option.some.inj (hb.symm.trans hk)
      simp [hc] at hcc

end Table

/-! ## Stores -/

/-- What is kept of a store when names are declared only in some of its scopes: no scope loses a
name, and the other scopes are as they were up to the values of variables. -/
structure Store.Frame (σ : Store) (declaring : Set ScopeId) (σ' : Store) : Prop where
  size_le : σ.scopes.size ≤ σ'.scopes.size
  parent?_eq : ∀ t : ScopeId, t.index < σ.scopes.size → σ'.parent? t = σ.parent? t
  grows : ∀ t : ScopeId, t.index < σ.scopes.size → (σ.bindings t).Grows (σ'.bindings t)
  upToVariables : ∀ t : ScopeId, t.index < σ.scopes.size → t ∉ declaring →
    (σ.bindings t).UpToVariables (σ'.bindings t)

namespace Store

variable {σ σ₀ σ₁ σ₂ σ' : Store} {D D' : Set ScopeId} {s : ScopeId}

namespace Frame

theorem refl (σ : Store) (D : Set ScopeId) : σ.Frame D σ :=
  ⟨Nat.le_refl _, fun _ _ => rfl, fun _ _ => .refl _, fun _ _ _ => .refl _⟩

/-- Frames compose, and names may be declared in new scopes on the way. -/
theorem trans (h : σ₀.Frame D σ₁) (h' : σ₁.Frame D' σ₂)
    (hD : ∀ s ∈ D', s ∈ D ∨ σ₀.scopes.size ≤ s.index) : σ₀.Frame D σ₂ where
  size_le := h.size_le.trans h'.size_le
  parent?_eq t ht :=
    (h'.parent?_eq t (ht.trans_le h.size_le)).trans (h.parent?_eq t ht)
  grows t ht := (h.grows t ht).trans (h'.grows t (ht.trans_le h.size_le))
  upToVariables t ht hn := by
    refine (h.upToVariables t ht hn).trans (h'.upToVariables t (ht.trans_le h.size_le) ?_)
    intro hm
    obtain hm | hle := hD t hm
    · exact hn hm
    · omega

theorem trans_singleton (h : σ₀.Frame D σ₁) (h' : σ₁.Frame {s} σ₂)
    (hs : s ∈ D ∨ σ₀.scopes.size ≤ s.index) : σ₀.Frame D σ₂ := by
  refine h.trans h' fun t ht => ?_
  rw [Set.mem_singleton_iff] at ht
  rw [ht]
  exact hs

theorem trans_empty (h : σ₀.Frame D σ₁) (h' : σ₁.Frame ∅ σ₂) : σ₀.Frame D σ₂ :=
  h.trans h' fun _ ht => ht.elim

/-- A new scope takes nothing from the others. -/
theorem add (σ : Store) (capacity : Nat) (parent : Option ScopeId) (childCapacity : Nat) :
    σ.Frame ∅ (σ.add capacity parent childCapacity).2 where
  size_le := by rw [size_add]; omega
  parent?_eq t ht := by rw [parent?_add, if_neg (by omega)]
  grows t ht := by
    rw [bindings_add, if_neg (by omega)]
    exact .refl _
  upToVariables t ht _ := by
    rw [bindings_add, if_neg (by omega)]
    exact .refl _

/-- What a scope that is not one of the store's own loses does not count. -/
theorem discard (h : σ₀.Frame D σ) (hs : σ₀.scopes.size ≤ s.index) : σ₀.Frame D (σ.discard s) := by
  have hne : ∀ t : ScopeId, t.index < σ₀.scopes.size → s ≠ t := by
    rintro t ht rfl
    omega
  refine ⟨by rw [size_discard]; exact h.size_le, fun t ht => ?_, fun t ht => ?_, fun t ht hn => ?_⟩
  · rw [parent?_discard]
    exact h.parent?_eq t ht
  · rw [bindings_discard, if_neg (hne t ht)]
    exact h.grows t ht
  · rw [bindings_discard, if_neg (hne t ht)]
    exact h.upToVariables t ht hn

theorem leave (h : σ₀.Frame D σ) (hs : σ₀.scopes.size ≤ s.index) (outside : List Held) :
    σ₀.Frame D (σ.leave outside s) := by
  obtain he | he := σ.leave_cases outside s
  · rw [he]
    exact h.discard hs
  · rw [he]
    exact h

theorem number (h : σ₀.Frame D σ) (next : Nat) : σ₀.Frame D { σ with nextObject := next } :=
  ⟨h.size_le, h.parent?_eq, h.grows, h.upToVariables⟩

theorem declare {name : String} {v : Value} {isConst : Bool} {b : Binding}
    (h : σ.declare s name v isConst = .ok (b, σ')) : σ.Frame {s} σ' := by
  obtain ⟨-, p, hp, rfl⟩ := declare_eq_ok h
  refine ⟨(size_place ..).ge, fun t _ => parent?_place .., fun t _ => ?_, fun t _ hn => ?_⟩
  · rw [bindings_place]
    split
    · next hs =>
      subst hs
      exact Table.grows_place hp _
    · exact .refl _
  · rw [bindings_place, if_neg fun hs => hn hs.symm]
    exact .refl _

theorem assign {name : String} {v : Value} {b : Binding}
    (h : σ.assign s name v = .ok (b, σ')) : σ.Frame ∅ σ' := by
  obtain ⟨t, i, old, -, hl, hc, -, rfl⟩ := assign_eq_ok h
  refine ⟨(size_place ..).ge, fun u _ => parent?_place .., fun u _ => ?_, fun u _ _ => ?_⟩
  · rw [bindings_place]
    split
    · next hu =>
      subst hu
      exact Table.grows_overwrite hl _
    · exact .refl _
  · rw [bindings_place]
    split
    · next hu =>
      subst hu
      exact Table.upToVariables_overwrite hl hc v
    · exact .refl _

end Frame

/-- The stores that can be reached from a store by declaring names in one scope or in new ones, by
assigning, and by making scopes and objects. -/
inductive Touched (s : ScopeId) (σ : Store) : Store → Prop
  | refl : Touched s σ σ
  | declare {σ₁ σ₂ : Store} {t : ScopeId} {name : String} {v : Value} {isConst : Bool}
    {b : Binding} (h : Touched s σ σ₁) (ht : t = s ∨ σ.scopes.size ≤ t.index)
    (hd : σ₁.declare t name v isConst = .ok (b, σ₂)) : Touched s σ σ₂
  | assign {σ₁ σ₂ : Store} {t : ScopeId} {name : String} {v : Value} {b : Binding}
    (h : Touched s σ σ₁) (ha : σ₁.assign t name v = .ok (b, σ₂)) : Touched s σ σ₂
  | add {σ₁ : Store} (h : Touched s σ σ₁) (capacity : Nat) (parent : Option ScopeId)
    (childCapacity : Nat) : Touched s σ (σ₁.add capacity parent childCapacity).2
  | number {σ₁ : Store} (h : Touched s σ σ₁) (next : Nat) :
    Touched s σ { σ₁ with nextObject := next }

theorem Touched.frame (h : σ.Touched s σ') : σ.Frame {s} σ' := by
  induction h with
  | refl => exact .refl σ {s}
  | declare _ ht hd ih => exact ih.trans_singleton (.declare hd) ht
  | assign _ ha ih => exact ih.trans_empty (.assign ha)
  | add _ capacity parent childCapacity ih =>
    exact ih.trans_empty (.add _ capacity parent childCapacity)
  | number _ next ih => exact ih.number next

end Store

/-! ## Evaluations -/

/-- The natives of a host modify scopes only by declaring names in the scope that they are called
from and by assigning. -/
def Host.IsConfined {ω : Type} (host : Host ω) : Prop :=
  ∀ (f : NativeFunction) (args : List Value) (env : ScopeId) (σ : Store) (w : ω),
    σ.Touched env (host.call f args env σ w).2.1

/-- The workbench without the native that declares names in the global scope. -/
def Workbench.localHost : Host Workbench where
  call f args env σ w :=
    if w.builtins[f.number]? = some .defineGlobal then (.error (failure "no native"), σ, w)
    else call f args env σ w
  held := held

namespace Workbench

/-- A native that binds no names in the root touches the scope that it is called in. -/
theorem Effect.touched {isGlobal : Prop} {args : List Value} {env : ScopeId} {σ σ' : Store}
    {r : Except EvalError Value} (h : Effect isGlobal args env σ r σ') (hg : ¬isGlobal) :
    σ.Touched env σ' := by
  cases h with
  | fail | give => exact .refl
  | declare hs _ hd => exact .declare .refl (.inl (hs.resolve_right fun h => hg h.1)) hd
  | assign _ ha => exact .assign .refl ha

theorem isConfined_localHost : localHost.IsConfined := by
  intro f args env σ w
  rw [localHost]
  dsimp only
  split
  · exact .refl
  · next hb => exact (effect_call f args env σ w).touched hb

end Workbench

variable {ω : Type}

/-- The frame of a store, kept by evaluations in some of its scopes and in new ones. -/
def frameInvariant (config : Config) {host : Host ω} (h : host.IsConfined) (σ₀ : Store)
    (D : Set ScopeId) : Invariant (Setting.releasing config host) where
  Kept σ _ := σ₀.Frame D σ
  Open s := s ∈ D ∨ σ₀.scopes.size ≤ s.index
  New s := σ₀.scopes.size ≤ s.index
  open_of_new := .inr
  child _ hf := ⟨hf.size_le, hf.trans_empty (.add ..)⟩
  leave outside hs hf := hf.leave hs outside
  declare hf hs hd := hf.trans_singleton (.declare hd) hs
  assign hf ha := hf.trans_empty (.assign ha)
  number next hf := hf.number next
  call f args hf hs := hf.trans_singleton (h f args _ _ _).frame hs

/-- **The frame of evaluation.** Of the scopes that were there before, all but the scope at hand
keep their parents, their capacities, their names and constants; the scope at hand loses no name.
A node that evaluates in a scope of its own, and a call of a function, keep the scope at hand as
they keep the others. -/
theorem frame_exec (config : Config) {host : Host ω} (h : host.IsConfined) (fuel : Nat)
    (held : Held) (n : Node) (env : ScopeId) (m : Machine ω) :
    let S := Setting.releasing config host
    let after := (S.exec fuel held n env m).value.2.store
    m.store.Frame {env} after ∧ (n.kind.opensScope = true → m.store.Frame ∅ after) ∧
      ∀ (f : Closure) (args : List Value), m.store.Frame ∅
        (S.callValue (S.exec fuel) held (.function f) args env m).value.2.store := by
  refine ⟨?_, fun hn => ?_, fun f args => ?_⟩
  · exact (frameInvariant config h m.store {env}).kept_exec (.refl _ _) (.inl rfl) fuel held n
  · exact (frameInvariant config h m.store ∅).kept_exec_of_opensScope (.refl _ _) hn env fuel held
  · exact (frameInvariant config h m.store ∅).kept_callClosure (.refl _ _) f args fuel held

/-- A block on the workbench leaves the global scope as it was up to variables. -/
theorem frame_exec_localHost :
    let m : Machine Workbench := ⟨(Store.empty.root 8 8).2, 0, 0, .ofSink .buffer⟩
    let n : Node := ⟨.block [⟨.declaration "x" false none, 1⟩], 1⟩
    Workbench.localHost.IsConfined ∧ m.store.Frame ∅
      ((Setting.releasing .standard Workbench.localHost).exec 3 .empty n ⟨0⟩ m).value.2.store :=
  ⟨Workbench.isConfined_localHost,
    (frame_exec .standard Workbench.isConfined_localHost 3 .empty _ ⟨0⟩ _).2.1 rfl⟩

end Treewalk
