import Treewalk.Proofs.Release.Unobservable
import Treewalk.Proofs.Simulation.Invariant

/-!
# Interpreters that keep all scopes

Where no scope is discarded, an evaluation does not depend on the handles held around it:
`Setting.exec_held`. So two interpreters that do the same at different times, with other values
waiting meanwhile, are compared by way of the interpreter that keeps all scopes.

* `Interpreter.Arises`: the interpreters that a host comes to. Each is in step with one that keeps
  all scopes: `Arises.inStep`.
* `Interpreter.LooksLike`: interpreters that a host cannot tell apart by what it has. An interpreter
  looks like the one in step with it: `InStep.looksLike`.
-/

namespace Treewalk

variable {ω : Type}

/-! ## Handles that do not matter -/

theorem Completion.Pair.eq_of_same {c₁ c₂ : Completion} {Δ : Context}
    (hp : Completion.Pair .same c₁ c₂ Δ) (hs : Δ.Same) : c₁ = c₂ := by
  cases hp with
  | value v w => rw [hs v w List.mem_cons_self]
  | returned v w => rw [hs v w List.mem_cons_self]
  | broke => rfl
  | continued => rfl
  | failed he => exact congrArg Completion.failed he
  | panicked | exhausted => rfl

theorem Machine.ext {m m' : Machine ω} (hσ : m.store = m'.store) (hl : m.line = m'.line)
    (hd : m.callDepth = m'.callDepth) (hw : m.world = m'.world) : m = m' := by
  obtain ⟨σ, line, callDepth, w⟩ := m
  obtain ⟨σ', line', callDepth', w'⟩ := m'
  dsimp only at hσ hl hd hw
  rw [hσ, hl, hd, hw]

namespace Setting

variable {S : Setting ω}

/-- Whether scopes are left in the same way whatever handles are held. -/
def IgnoresHandles (S : Setting ω) : Prop :=
  ∀ outside outside' s σ, S.leave outside s σ = S.leave outside' s σ

theorem ignoresHandles_keeping (config : Config) (host : Host ω) :
    (keeping config host).IgnoresHandles := fun _ _ _ _ => rfl

/-- The property that all stores and worlds have. -/
def noInvariant (S : Setting ω) : Invariant S where
  Kept _ _ := True
  Open _ := True
  New _ := True
  open_of_new _ := trivial
  child _ _ := ⟨trivial, trivial⟩
  leave _ _ _ := trivial
  declare _ _ _ := trivial
  assign _ _ := trivial
  number _ _ := trivial
  call _ _ _ _ := trivial

/-- A setting and itself, with other handles held around. -/
def heldSimulation (hS : S.IgnoresHandles) (held held' : Held) : Simulation S S :=
  { S.noInvariant.simulation held with
    right := held'
    leave := fun {Γ _ _ _ _} s _ ⟨h₁, h₂, h, hk⟩ => by
      subst h₁ h₂
      exact ⟨hS _ _ s _, rfl, fun v w hm => h v w (List.mem_cons_of_mem _ hm), hk⟩ }

/-- **Where no scope is discarded for want of handles, an evaluation does not depend on them.** -/
theorem exec_held (hS : S.IgnoresHandles) (fuel : Nat) (held held' : Held) (n : Node)
    (env : ScopeId) (m : Machine ω) :
    (S.exec fuel held n env m).value = (S.exec fuel held' n env m).value := by
  let sim := heldSimulation hS held held'
  have hstart : sim.Agree [] m m :=
    ⟨rfl, rfl, rfl, rfl, fun _ _ hm => (List.not_mem_nil hm).elim, trivial⟩
  obtain ⟨_, _, hx⟩ | ⟨Δ, hp, ha⟩ :=
    sim.follows_exec fuel (n := n) (s := env) rfl hstart (.inl trivial) (.inl trivial)
  · exact hx.elim
  change (S.exec fuel held n env m).value = (S.exec fuel held' n env m).value
  obtain ⟨hl, hd, hσ, hw, hsame, -⟩ := ha
  exact Prod.ext (hp.eq_of_same (fun v w hm => hsame v w (List.mem_append_left _ hm)))
    (Machine.ext hσ hl hd hw)

end Setting

/-! ## What a host has in hand -/

/-- A host that had more has more after an outcome. -/
theorem Holding.learn_subset {K K' : Holding} (hs : K.scopes ⊆ K'.scopes)
    (hv : K.values ⊆ K'.values) (o : Outcome) :
    (K.learn o).scopes ⊆ (K'.learn o).scopes ∧ (K.learn o).values ⊆ (K'.learn o).values := by
  obtain (_ | _ | v) | s := o
  · exact ⟨hs, hv⟩
  · exact ⟨hs, hv⟩
  · exact ⟨hs, List.cons_subset_cons v hv⟩
  · exact ⟨List.cons_subset_cons s hs, hv⟩

namespace Interpreter

variable {config : Config} {host : Host ω} {I J L : Interpreter ω} {K K' : Holding}
variable {A : Set ScopeId} {T : ObjectId → Table Binding}

theorem sees_of_mem {s : ScopeId} (hs : s ∈ K.scopes) : I.Sees K s := by
  refine .root (.inl ?_)
  rw [Holding.held_eq]
  exact Context.isRoot_left.2 (.inl (Holding.isRoot_base.2 (List.mem_cons_of_mem _ hs)))

/-- A host may drop some of what it has. -/
theorem InStep.drop (h : InStep config host I J K A T) (hs : K'.scopes ⊆ K.scopes)
    (hv : K'.values ⊆ K.values) : InStep config host I J K' A T :=
  h.rehold (fun _ hm => sees_of_mem (hs hm)) fun _ hm => .kept (hv hm)

/-- Evaluations in step end in the same way. -/
theorem InStep.completion_eq (hh : host.UsesStrongHandles) (h : InStep config host I J K A T)
    (fuel : Nat) (n : Node) {env : ScopeId} (hs : env ∈ I.globals :: K.scopes) :
    (I.setting.exec fuel (K.held I.globals) n env I.machine).value.1 =
      (J.setting.exec fuel (K.held J.globals) n env J.machine).value.1 := by
  obtain ⟨_, _, hx⟩ | ⟨Δ, hp, -, -, A', T', hr⟩ := h.answers hh fuel n hs
  · exact hx.elim
  · exact hp.eq_of_same fun v w hm => hr.same v w (List.mem_append_left _ hm)

/-- The interpreters that a host comes to, with what it has by then: those just built, and what
turns make of them. -/
inductive Arises (host : Host ω) : Interpreter ω → Holding → Prop
  | built {b : Builder} {print printLine : NativeFunction} {globals : ScopeId} {σ : Store} {w : ω}
    (hw : host.held w = .empty) (hb : b.build print printLine .empty = .ok (globals, σ)) :
    Arises host ⟨.releasing b.config host, globals, ⟨σ, 0, 0, w⟩⟩ ⟨[], []⟩
  | served {I : Interpreter ω} {K : Holding} {t : Turn} (h : Arises host I K)
    (hp : I.Permits K t) : Arises host (I.serve t).2 (t.holding.learn (I.serve t).1)

/-- An interpreter that a host comes to is in step with one that keeps all scopes. -/
theorem Arises.inStep (hh : host.UsesStrongHandles) (h : I.Arises host K) :
    ∃ config J A T, InStep config host I J K A T := by
  induction h with
  | built hw hb => exact ⟨_, _, _, _, inStep_of_build hw hb⟩
  | served _ hp ih =>
    obtain ⟨config, J, A, T, hJ⟩ := ih
    obtain ⟨-, A', T', h'⟩ := hJ.serve hh hp
    exact ⟨config, _, A', T', h'⟩

/-! ## Interpreters that a host cannot tell apart -/

/-- Interpreters whose worlds are the same, and all scopes that a host sees by what it has, the
global scope among them. -/
structure LooksLike (I J : Interpreter ω) (K : Holding) : Prop where
  globals_eq : I.globals = J.globals
  line_eq : I.machine.line = J.machine.line
  callDepth_eq : I.machine.callDepth = J.machine.callDepth
  world_eq : I.machine.world = J.machine.world
  sees_iff (s : ScopeId) : I.Sees K s ↔ J.Sees K s
  sameIn : Store.SameIn {s | I.Sees K s} I.machine.store J.machine.store

theorem LooksLike.symm (h : I.LooksLike J K) : J.LooksLike I K where
  globals_eq := h.globals_eq.symm
  line_eq := h.line_eq.symm
  callDepth_eq := h.callDepth_eq.symm
  world_eq := h.world_eq.symm
  sees_iff s := (h.sees_iff s).symm
  sameIn := ⟨h.sameIn.size_eq.symm, h.sameIn.nextObject_eq.symm,
    fun t ht => (h.sameIn.scopes_eq t ((h.sees_iff t).2 ht)).symm⟩

theorem LooksLike.trans (h : I.LooksLike J K) (h' : J.LooksLike L K) : I.LooksLike L K where
  globals_eq := h.globals_eq.trans h'.globals_eq
  line_eq := h.line_eq.trans h'.line_eq
  callDepth_eq := h.callDepth_eq.trans h'.callDepth_eq
  world_eq := h.world_eq.trans h'.world_eq
  sees_iff s := (h.sees_iff s).trans (h'.sees_iff s)
  sameIn := ⟨h.sameIn.size_eq.trans h'.sameIn.size_eq,
    h.sameIn.nextObject_eq.trans h'.sameIn.nextObject_eq,
    fun t ht => (h.sameIn.scopes_eq t ht).trans (h'.sameIn.scopes_eq t ((h.sees_iff t).1 ht))⟩

/-- What the keeping interpreter sees, the releasing one sees too. -/
theorem InStep.sees_of_right (h : InStep config host I J K A T) {s : ScopeId} (hs : J.Sees K s) :
    I.Sees K s := by
  induction hs with
  | @root s hr =>
    rw [← h.globals, ← h.released.world_eq, h.keeping] at hr
    refine .root ?_
    rw [h.releasing]
    exact hr
  | @step t u _ hu ih =>
    refine .step ih ?_
    rw [Store.holds, h.released.sameIn.scopes_eq t (h.mem_of_sees ih)]
    exact hu

theorem InStep.looksLike (h : InStep config host I J K A T) : I.LooksLike J K where
  globals_eq := h.globals
  line_eq := h.line
  callDepth_eq := h.callDepth
  world_eq := h.released.world_eq
  sees_iff _ := ⟨fun hs => (h.sees hs).1, h.sees_of_right⟩
  sameIn :=
    { h.released.sameIn with
      scopes_eq := fun t ht => h.released.sameIn.scopes_eq t (h.mem_of_sees ht) }

end Interpreter

end Treewalk
