import Treewalk.Interpreter
import Treewalk.Proofs.Scope.Binds
import Treewalk.Proofs.Scope.Held

/-!
# The store of a new interpreter

Building makes one scope and binds constants of the language and natives in it. So all scopes of a
new interpreter are live and bind no value with a handle: `Builder.isFresh_of_build`.
-/

namespace Treewalk

namespace Store

/-- A store of live scopes without values that hold anything. -/
structure IsFresh (σ : Store) : Prop where
  alive : ∀ (t : ScopeId) (scope : Scope), σ.scopes[t.index]? = some scope →
    scope.isDiscarded = false
  plain : ∀ t, ∀ v ∈ (σ.bindings t).values, v.IsPlain

variable {σ σ' : Store} {s : ScopeId}

theorem isFresh_empty : IsFresh .empty where
  alive t scope h := by simp [empty] at h
  plain := binds_empty

theorem IsFresh.add (h : σ.IsFresh) (capacity : Nat) (parent : Option ScopeId)
    (childCapacity : Nat) : (σ.add capacity parent childCapacity).2.IsFresh where
  alive t scope ht := by
    rw [getElem?_scopes_add] at ht
    split at ht
    · cases ht
      rfl
    · exact h.alive t scope ht
  plain := Binds.add h.plain capacity parent childCapacity

theorem IsFresh.declare (h : σ.IsFresh) {name : String} {v : Value} {isConst : Bool}
    {b : Binding} (hv : v.IsPlain) (hd : σ.declare s name v isConst = .ok (b, σ')) :
    σ'.IsFresh := by
  refine ⟨fun t scope ht => ?_, Binds.declare h.plain hv hd⟩
  obtain ⟨-, p, -, rfl⟩ := declare_eq_ok hd
  rw [getElem?_scopes_place] at ht
  split at ht
  · obtain ⟨old, hold, rfl⟩ := Option.map_eq_some_iff.1 ht
    exact h.alive t old hold
  · exact h.alive t scope ht

end Store

namespace Builder

/-- All that building binds: the constants of the language, then the natives. -/
def constants (b : Builder) (print printLine : NativeFunction) : List (String × Value) :=
  prelude ++ (b.allNatives print printLine).natives.map fun f => (f.name, .native f)

variable {b : Builder} {print printLine : NativeFunction} {σ σ' : Store} {s globals : ScopeId}

theorem isPlain_of_mem_constants {p : String × Value} (h : p ∈ b.constants print printLine) :
    p.2.IsPlain := by
  rcases List.mem_append.1 h with h | h
  · simp only [prelude, List.mem_cons, List.not_mem_nil, or_false] at h
    rcases h with rfl | rfl | rfl <;> trivial
  · obtain ⟨f, -, rfl⟩ := List.mem_map.1 h
    trivial

theorem declareAll_append (σ : Store) (s : ScopeId) (ps qs : List (String × Value)) :
    declareAll σ s (ps ++ qs) =
      match declareAll σ s ps with
      | .ok σ => declareAll σ s qs
      | .error cause => .error cause := by
  induction ps generalizing σ with
  | nil => rfl
  | cons p rest ih =>
    obtain ⟨name, v⟩ := p
    rw [List.cons_append, declareAll, declareAll]
    cases σ.declare s name v true with
    | error cause => rfl
    | ok q => exact ih q.2

theorem declareAll_natives (σ : Store) (s : ScopeId) (fs : List NativeFunction) :
    declareAll σ s (fs.map fun f => (f.name, .native f)) =
      match σ.installAll s fs with
      | (_, some cause) => .error cause
      | (σ, none) => .ok σ := by
  induction fs generalizing σ with
  | nil => rfl
  | cons f rest ih =>
    rw [List.map_cons, declareAll, Store.installAll]
    cases σ.declare s f.name (.native f) true with
    | error cause => rfl
    | ok q => exact ih q.2

/-- Building makes one scope and binds constants in it. -/
theorem build_eq (b : Builder) (print printLine : NativeFunction) (σ : Store) :
    b.build print printLine σ =
      (declareAll (σ.root b.config.globalCapacity b.config.scopeCapacity).2
        (σ.root b.config.globalCapacity b.config.scopeCapacity).1
        (b.constants print printLine)).map fun σ' =>
          ((σ.root b.config.globalCapacity b.config.scopeCapacity).1, σ') := by
  rw [build, constants, declareAll_append]
  generalize σ.root b.config.globalCapacity b.config.scopeCapacity = p
  obtain ⟨s, σ₁⟩ := p
  dsimp only
  cases declareAll σ₁ s prelude with
  | error cause => rfl
  | ok σ₂ =>
    dsimp only
    rw [declareAll_natives, Store.install]
    generalize σ₂.installAll s (b.allNatives print printLine).natives = q
    obtain ⟨σ₃, _ | cause⟩ := q <;> rfl

theorem build_eq_ok : b.build print printLine σ = .ok (globals, σ') ↔
    (σ.root b.config.globalCapacity b.config.scopeCapacity).1 = globals ∧
      declareAll (σ.root b.config.globalCapacity b.config.scopeCapacity).2 globals
        (b.constants print printLine) = .ok σ' := by
  rw [build_eq]
  generalize σ.root b.config.globalCapacity b.config.scopeCapacity = p
  constructor
  · intro h
    cases hd : declareAll p.2 p.1 (b.constants print printLine) with
    | error cause => simp [hd, Except.map] at h
    | ok σ₁ =>
      rw [hd] at h
      cases h
      exact ⟨rfl, hd⟩
  · rintro ⟨rfl, hd⟩
    rw [hd]
    rfl

theorem build_eq_error {cause : ErrorCause} : b.build print printLine σ = .error cause ↔
    declareAll (σ.root b.config.globalCapacity b.config.scopeCapacity).2
      (σ.root b.config.globalCapacity b.config.scopeCapacity).1
      (b.constants print printLine) = .error cause := by
  rw [build_eq]
  cases declareAll (σ.root b.config.globalCapacity b.config.scopeCapacity).2
    (σ.root b.config.globalCapacity b.config.scopeCapacity).1 (b.constants print printLine) <;>
  simp [Except.map]

theorem isFresh_of_declareAll {constants : List (String × Value)} (h : σ.IsFresh)
    (hc : ∀ p ∈ constants, p.2.IsPlain) (hd : declareAll σ s constants = .ok σ') :
    σ'.IsFresh := by
  induction constants generalizing σ with
  | nil =>
    cases hd
    exact h
  | cons p rest ih =>
    obtain ⟨name, v⟩ := p
    rw [declareAll] at hd
    cases hd' : σ.declare s name v true with
    | error cause => simp [hd'] at hd
    | ok q =>
      rw [hd'] at hd
      exact ih (h.declare (hc (name, v) List.mem_cons_self) hd')
        (fun p hp => hc p (List.mem_cons_of_mem _ hp)) hd

/-- The store of a new interpreter is fresh. -/
theorem isFresh_of_build (h : σ.IsFresh) (hb : b.build print printLine σ = .ok (globals, σ')) :
    σ'.IsFresh := by
  obtain ⟨rfl, hd⟩ := build_eq_ok.1 hb
  exact isFresh_of_declareAll (h.add _ _ _) (fun p hp => isPlain_of_mem_constants hp) hd

end Builder

end Treewalk
