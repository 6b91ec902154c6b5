import Treewalk.Proofs.Release.Simulation
import Treewalk.Proofs.Release.Turns
import Treewalk.Proofs.Scope.Build
import Treewalk.Proofs.Workbench.StrongHandles

/-!
# Releasing scopes is unobservable

Two interpreters with the same history are in step: `Interpreter.InStep`. Every turn that a host
can come to has the same outcome in both and leaves them in step, so all turns of a host do:
`releasing_unobservable`.
-/

namespace Treewalk

/-! ## What a host holds -/

theorem Held.isRoot_foldl_scope {h : Held} {scopes : List ScopeId} {t : ScopeId} :
    (scopes.foldl Held.scope h).IsRoot t ↔ t ∈ scopes ∨ h.IsRoot t := by
  induction scopes generalizing h with
  | nil => simp
  | cons s rest ih =>
    rw [List.foldl_cons, ih, isRoot_scope, List.mem_cons]
    tauto

theorem Held.objectsFor_foldl_scope (h : Held) (scopes : List ScopeId) (t : ScopeId) :
    (scopes.foldl Held.scope h).objectsFor t = h.objectsFor t := by
  induction scopes generalizing h with
  | nil => rfl
  | cons s rest ih => rw [List.foldl_cons, ih, objectsFor_scope]

theorem Context.values_eq_left (base : Held) (Γ : Context) (vs : List Value) :
    (Γ.left base).values vs =
      Context.left base ((vs.map fun v => Handle.value v v).reverse ++ Γ) := by
  induction vs generalizing Γ with
  | nil => rfl
  | cons v rest ih =>
    rw [List.map_cons, List.reverse_cons, List.append_assoc]
    exact ih (.value v v :: Γ)

theorem Value.mentions_of_nested {v w : Value} {s : ScopeId} (h : v.Nested w)
    (hm : v.mentions s = true) : w.mentions s = true := by
  induction h with
  | self => exact hm
  | bound hv _ ih => exact Value.mentions_object.2 ⟨_, hv, ih⟩

namespace Holding

/-- The handles to the scopes that a host keeps. -/
def base (K : Holding) (globals : ScopeId) : Held :=
  (globals :: K.scopes).foldl Held.scope .empty

/-- The values that a host keeps, as handles of both sides. -/
def context (K : Holding) : Context := (K.values.map fun v => Handle.value v v).reverse

variable {K : Holding} {globals : ScopeId}

theorem held_eq (K : Holding) (globals : ScopeId) :
    K.held globals = Context.left (K.base globals) K.context := by
  have h := Context.values_eq_left (K.base globals) [] K.values
  rw [List.append_nil] at h
  exact h

theorem mem_context {v w : Value} : .value v w ∈ K.context ↔ v ∈ K.values ∧ v = w := by
  simp only [context, List.mem_reverse, List.mem_map, Handle.value.injEq]
  constructor
  · rintro ⟨u, hu, rfl, rfl⟩
    exact ⟨hu, rfl⟩
  · rintro ⟨hv, rfl⟩
    exact ⟨v, hv, rfl, rfl⟩

theorem scope_not_mem_context {s : ScopeId} : .scope s ∉ K.context := by
  simp [context]

theorem isRoot_base {t : ScopeId} : (K.base globals).IsRoot t ↔ t ∈ globals :: K.scopes := by
  rw [base, Held.isRoot_foldl_scope, or_iff_left (Held.not_isRoot_empty t)]

theorem base_obeys {T : ObjectId → Table Binding} {n : Nat} : (K.base globals).Obeys T n := by
  intro t v hv
  rw [base, Held.objectsFor_foldl_scope, Held.objectsFor_empty] at hv
  exact (List.not_mem_nil hv).elim

theorem context_mentions {t : ScopeId} :
    K.context.Mentions t ↔ ∃ v ∈ K.values, v.mentions t = true := by
  rw [Context.Mentions, or_iff_right scope_not_mem_context]
  constructor
  · rintro ⟨v, w, hv, hm⟩
    exact ⟨v, (mem_context.1 hv).1, hm⟩
  · rintro ⟨v, hv, hm⟩
    exact ⟨v, v, mem_context.2 ⟨hv, rfl⟩, hm⟩

theorem context_cons_subset {v : Value} {Γ : Context} (hv : .value v v ∈ Γ)
    (hs : K.context ⊆ Γ) : context ⟨K.scopes, v :: K.values⟩ ⊆ Γ := by
  intro x hx
  obtain rfl | hx : x = .value v v ∨ x ∈ K.context := by
    simpa [context, or_comm] using hx
  · exact hv
  · exact hs hx

end Holding

/-! ## In step -/

variable {ω : Type} {config : Config} {host : Host ω}

/-- Values may be held one after the other. -/
theorem Released.holdValues {base : Held} {A : Set ScopeId} {T : ObjectId → Table Binding}
    {Γ : Context} {σ₁ σ₂ : Store} {w₁ w₂ : ω} (h : Released host base A T Γ σ₁ w₁ σ₂ w₂)
    {vs : List Value}
    (hv : ∀ v ∈ vs, (∀ u, v.mentions u = true → u ∈ A) ∧ v.Obeys T σ₁.nextObject) :
    Released host base A T ((vs.map fun v => .value v v).reverse ++ Γ) σ₁ w₁ σ₂ w₂ := by
  induction vs generalizing Γ with
  | nil => exact h
  | cons v rest ih =>
    rw [List.map_cons, List.reverse_cons, List.append_assoc]
    obtain ⟨hm, ho⟩ := hv v List.mem_cons_self
    exact ih (h.holdValue hm ho) fun w hw => hv w (List.mem_cons_of_mem v hw)

/-- Interpreters with the same history, one that releases scopes and one that keeps them, with a
host that has something. -/
structure Interpreter.InStep (config : Config) (host : Host ω) (I J : Interpreter ω)
    (K : Holding) (A : Set ScopeId) (T : ObjectId → Table Binding) : Prop where
  releasing : I.setting = .releasing config host
  keeping : J.setting = .keeping config host
  globals : I.globals = J.globals
  line : I.machine.line = J.machine.line
  callDepth : I.machine.callDepth = J.machine.callDepth
  released : Released host (K.base I.globals) A T K.context I.machine.store I.machine.world
    J.machine.store J.machine.world

namespace Interpreter

variable {I J : Interpreter ω} {K : Holding} {A : Set ScopeId} {T : ObjectId → Table Binding}

theorem InStep.mem_of_sees (h : InStep config host I J K A T) {s : ScopeId} (hs : I.Sees K s) :
    s ∈ A := by
  induction hs with
  | @root s hr =>
    rcases hr with hr | hr
    · rw [Holding.held_eq] at hr
      rcases Context.isRoot_left.1 hr with hr | hr
      · exact h.released.base_mem s hr
      · exact h.released.context_mem s hr
    · rw [h.releasing] at hr
      exact h.released.world_mem s hr
  | step _ hh ih => exact h.released.region.closed _ ih _ hh

/-- The values that a host can find mention scopes of the region alone, and obey. -/
theorem InStep.of_knows (h : InStep config host I J K A T) {v : Value} (hv : I.Knows K v) :
    (∀ u, v.mentions u = true → u ∈ A) ∧ v.Obeys T I.machine.store.nextObject := by
  induction hv with
  | @kept v hv =>
    have hm : .value v v ∈ K.context := Holding.mem_context.2 ⟨hv, rfl⟩
    exact ⟨fun u hu => h.released.mem_of_mentions hm hu, h.released.identities.values v ⟨v, hm⟩⟩
  | @noted v s hv hs =>
    rw [h.releasing] at hv
    exact ⟨fun u hu => h.mem_of_sees (hs u hu), h.released.identities.world s v hv⟩
  | @bound v s hs hv =>
    exact ⟨fun u hu => h.released.region.mem_of_mentions (h.mem_of_sees hs) hv hu,
      h.released.identities.store s v hv⟩
  | nested _ hn ih =>
    exact ⟨fun u hu => ih.1 u (Value.mentions_of_nested hn hu),
      fun id t hm => ih.2 id t (hm.trans hn)⟩
  | leaf hv hs => exact ⟨fun u hu => h.mem_of_sees (hs u hu), Value.obeys_of_type_ne hv⟩

/-- A host may drop what it has, and take up what it sees and knows. -/
theorem InStep.rehold (h : InStep config host I J K A T) {K' : Holding}
    (hs : ∀ s ∈ K'.scopes, I.Sees K s) (hv : ∀ v ∈ K'.values, I.Knows K v) :
    InStep config host I J K' A T :=
  { h with
    released :=
      { h.released with
        same := fun v w hm => (Holding.mem_context.1 hm).2
        base_mem := fun u hu => by
          rcases List.mem_cons.1 (Holding.isRoot_base.1 hu) with rfl | hu
          · exact h.released.base_mem _ (Holding.isRoot_base.2 List.mem_cons_self)
          · exact h.mem_of_sees (hs u hu)
        context_mem := fun u hu => by
          obtain ⟨v, hm, hu⟩ := Holding.context_mentions.1 hu
          exact (h.of_knows (hv v hm)).1 u hu
        identities :=
          { h.released.identities with
            values := fun v ⟨w, hm⟩ => (h.of_knows (hv v (Holding.mem_context.1 hm).1)).2
            base := Holding.base_obeys } } }

/-! ## Turns -/

theorem InStep.right_eq (h : InStep config host I J K A T) :
    Context.right id (K.base I.globals) K.context = K.held J.globals := by
  rw [← h.released.same.left_eq_right, ← Holding.held_eq, h.globals]

/-- Machines that an evaluation ends in, and what the host learns of its values. -/
theorem InStep.withMachines (h : InStep config host I J K A T) {m₁ m₂ : Machine ω}
    {A' : Set ScopeId} {T' : ObjectId → Table Binding} {Γ : Context} {vs : List Value}
    (hl : m₁.line = m₂.line) (hd : m₁.callDepth = m₂.callDepth)
    (hr : Released host (K.base I.globals) A' T' Γ m₁.store m₁.world m₂.store m₂.world)
    (hΓ : Holding.context ⟨K.scopes, vs⟩ ⊆ Γ) :
    InStep config host { I with machine := m₁ } { J with machine := m₂ } ⟨K.scopes, vs⟩ A' T' :=
  ⟨h.releasing, h.keeping, h.globals, hl, hd, hr.weaken hΓ⟩

/-- Answers that correspond tell a host the same and leave the interpreters in step. -/
theorem InStep.perform (hh : host.UsesStrongHandles) (h : InStep config host I J K A T)
    {d e : Machine ω → Deferred (Answer ω)}
    (ha : (releaseSimulation config hh (K.base I.globals)).Answers K.context
      (d I.machine).value (e J.machine).value) :
    (I.perform d).1 = (J.perform e).1 ∧ ∃ A' T', InStep config host (I.perform d).2
      (J.perform e).2 (K.learn (.result (I.perform d).1)) A' T' := by
  simp only [Interpreter.perform, Deferred.force_eq_value]
  obtain ⟨_, _, hx⟩ | ⟨Δ, hp, ha⟩ := ha
  · exact hx.elim
  generalize (d I.machine).value = a at hp ha ⊢
  generalize (e J.machine).value = b at hp ha ⊢
  obtain ⟨c₁, m₁⟩ := a
  obtain ⟨c₂, m₂⟩ := b
  obtain ⟨hl, hd, A', T', hr⟩ := ha
  dsimp only at hp hl hd hr ⊢
  have hΔ : K.context ⊆ Δ ++ K.context := List.subset_append_right Δ K.context
  -- the host learns nothing, null, or the value that is in the answers
  have kept := h.withMachines hl hd hr hΔ
  have plain : InStep config host { I with machine := m₁ } { J with machine := m₂ }
      ⟨K.scopes, .null :: K.values⟩ A' T' := by
    have hnull : Value.null.IsPlain := trivial
    have hr := hr.holdValue (fun u hu => by simp [hnull.mentions_eq_false u] at hu) hnull.obeys
    exact h.withMachines hl hd hr
      (Holding.context_cons_subset List.mem_cons_self (List.subset_cons_of_subset _ hΔ))
  have same : ∀ {v w : Value}, .value v w ∈ Δ → v = w ∧ InStep config host
      { I with machine := m₁ } { J with machine := m₂ } ⟨K.scopes, v :: K.values⟩ A' T' := by
    intro v w hm
    obtain rfl := hr.same v w (List.mem_append_left _ hm)
    exact ⟨rfl, h.withMachines hl hd hr
      (Holding.context_cons_subset (List.mem_append_left _ hm) hΔ)⟩
  cases hp with
  | value v w =>
    obtain ⟨rfl, hk⟩ := same List.mem_cons_self
    exact ⟨rfl, A', T', hk⟩
  | returned v w =>
    obtain ⟨rfl, hk⟩ := same List.mem_cons_self
    exact ⟨rfl, A', T', hk⟩
  | broke => exact ⟨rfl, A', T', plain⟩
  | continued => exact ⟨rfl, A', T', plain⟩
  | failed he =>
    obtain rfl := he
    rw [hl]
    exact ⟨rfl, A', T', kept⟩
  | panicked | exhausted => exact ⟨rfl, A', T', kept⟩

theorem InStep.answers (hh : host.UsesStrongHandles) (h : InStep config host I J K A T)
    (fuel : Nat) (n : Node) {env : ScopeId} (hs : env ∈ I.globals :: K.scopes) :
    (releaseSimulation config hh (K.base I.globals)).Answers K.context
      (I.setting.exec fuel (K.held I.globals) n env I.machine).value
      (J.setting.exec fuel (K.held J.globals) n env J.machine).value := by
  have hf := Simulation.follows_exec (releaseSimulation config hh (K.base I.globals)) fuel
    (n := n) rfl ⟨h.line, h.callDepth, A, T, h.released⟩ (.inl (Holding.isRoot_base.2 hs))
    (.inl trivial)
  rw [h.releasing, h.keeping, Holding.held_eq, ← h.right_eq]
  exact hf

/-- An evaluation in a scope that the host keeps. -/
theorem InStep.eval (hh : host.UsesStrongHandles) (h : InStep config host I J K A T) (fuel : Nat)
    (n : Node) {env : ScopeId} (hs : env ∈ I.globals :: K.scopes) :
    let a := I.eval fuel (K.held I.globals) n env
    let b := J.eval fuel (K.held J.globals) n env
    a.1 = b.1 ∧ ∃ A' T', InStep config host a.2 b.2 (K.learn (.result a.1)) A' T' :=
  h.perform hh (h.answers hh fuel n hs)

/-- A call of a value that the host knows with arguments that it knows. -/
theorem InStep.call (hh : host.UsesStrongHandles) (h : InStep config host I J K A T) (fuel : Nat)
    {callee : Value} {args : List Value}
    (hv : ∀ v ∈ callee :: args, (∀ u, v.mentions u = true → u ∈ A) ∧
      v.Obeys T I.machine.store.nextObject) :
    let a := I.call fuel (K.held I.globals) callee args
    let b := J.call fuel (K.held J.globals) callee args
    a.1 = b.1 ∧ ∃ A' T', InStep config host a.2 b.2 (K.learn (.result a.1)) A' T' := by
  let Γ := ((callee :: args).map fun v => Handle.value v v).reverse ++ K.context
  have hΓ : Released host (K.base I.globals) A T Γ I.machine.store I.machine.world
      J.machine.store J.machine.world := h.released.holdValues hv
  have hmem : ∀ v ∈ callee :: args, .value v v ∈ Γ := fun v hv =>
    List.mem_append_left _ (List.mem_reverse.2 (List.mem_map_of_mem hv))
  have hag : (releaseSimulation config hh (K.base I.globals)).Agree Γ I.machine J.machine :=
    ⟨h.line, h.callDepth, A, T, hΓ⟩
  have ha := Simulation.answers_callValue (Simulation.follows_exec _ fuel) hag
    (hmem callee List.mem_cons_self)
    (List.forall₂_same.2 fun v hv => hmem v (List.mem_cons_of_mem _ hv))
    (.inl (Holding.isRoot_base.2 List.mem_cons_self)) trivial
  refine h.perform hh ?_
  have hl : (K.held I.globals).values (callee :: args) =
      Context.left (K.base I.globals) Γ := by
    rw [Holding.held_eq, Context.values_eq_left]
  have hr : (K.held J.globals).values (callee :: args) =
      Context.right id (K.base I.globals) Γ := by
    rw [← h.globals, hl, hΓ.same.left_eq_right]
  rw [h.releasing, h.keeping, hl, hr, ← h.globals]
  exact ha.weaken (List.subset_append_right _ _)

/-- A new scope for the host, on its own or below one that the host keeps. -/
theorem InStep.add (h : InStep config host I J K A T) (capacity : Nat)
    (parent : Option ScopeId) (childCapacity : Nat) (hp : ∀ p, parent = some p → p ∈ A) :
    let a := I.machine.store.add capacity parent childCapacity
    let b := J.machine.store.add capacity parent childCapacity
    a.1 = b.1 ∧ InStep config host (I.withStore a.2) (J.withStore b.2) (K.learn (.scope a.1))
      (insert a.1 A) T := by
  have hr := h.released
  have hg := hr.grow (Set.subset_insert _ A) (hr.region.add capacity childCapacity hp)
    (hr.sameIn.add capacity parent childCapacity)
    (hr.identities.store.add capacity parent childCapacity) rfl
  refine ⟨ScopeId.index_inj.1 hr.sameIn.size_eq, h.releasing, h.keeping, h.globals, h.line,
    h.callDepth, { hg with
      base_mem := fun u hu => ?_
      identities := { hg.identities with base := Holding.base_obeys } }⟩
  rcases List.mem_cons.1 (Holding.isRoot_base.1 hu) with rfl | hu
  · exact .inr (hr.base_mem _ (Holding.isRoot_base.2 List.mem_cons_self))
  · rcases List.mem_cons.1 hu with rfl | hu
    · exact .inl rfl
    · exact .inr (hr.base_mem u (Holding.isRoot_base.2 (List.mem_cons_of_mem _ hu)))

/-- A turn has the same outcome on both sides and leaves the interpreters in step. -/
theorem InStep.serve (hh : host.UsesStrongHandles) (h : InStep config host I J K A T) {t : Turn}
    (hp : I.Permits K t) :
    (I.serve t).1 = (J.serve t).1 ∧ ∃ A' T', InStep config host (I.serve t).2 (J.serve t).2
      (t.holding.learn (I.serve t).1) A' T' := by
  have hk := h.rehold hp.scopes hp.values
  have hreq := hp.request
  obtain ⟨fuel, kept, request⟩ := t
  have mem : ∀ {s : ScopeId}, s ∈ I.globals :: kept.scopes → s ∈ A := fun hs =>
    hk.released.base_mem _ (Holding.isRoot_base.2 hs)
  cases request with
  | run n =>
    obtain ⟨he, A', T', h'⟩ := hk.eval hh fuel n List.mem_cons_self
    have hJ : J.run fuel (kept.held J.globals) n =
        J.eval fuel (kept.held J.globals) n I.globals := by rw [Interpreter.run, h.globals]
    simp only [Interpreter.serve, hJ]
    exact ⟨congrArg Outcome.result he, A', T', h'⟩
  | eval n env =>
    obtain ⟨he, A', T', h'⟩ := hk.eval hh fuel n hreq
    exact ⟨congrArg Outcome.result he, A', T', h'⟩
  | call callee args =>
    obtain ⟨he, A', T', h'⟩ := hk.call hh fuel fun v hv => h.of_knows (hreq v hv)
    exact ⟨congrArg Outcome.result he, A', T', h'⟩
  | root capacity childCapacity =>
    obtain ⟨he, h'⟩ := hk.add capacity none childCapacity (by simp)
    exact ⟨congrArg Outcome.scope he, _, T, h'⟩
  | child parent =>
    have hcap := h.released.sameIn.childCapacity_eq (mem hreq)
    obtain ⟨he, h'⟩ := hk.add (I.machine.store.childCapacity parent) (some parent)
      (I.machine.store.childCapacity parent) (by rintro p ⟨⟩; exact mem hreq)
    simp only [Interpreter.serve, Store.child, ← hcap]
    exact ⟨congrArg Outcome.scope he, _, T, h'⟩

/-- All turns that a host can come to. -/
theorem InStep.turns (hh : host.UsesStrongHandles) (h : InStep config host I J K A T)
    {ts : List Turn} (hl : I.IsLegal K ts) :
    (I.turns K ts).1 = (J.turns K ts).1 ∧ (I.turns K ts).2.2 = (J.turns K ts).2.2 ∧
      ∃ A' T',
        InStep config host (I.turns K ts).2.1 (J.turns K ts).2.1 (I.turns K ts).2.2 A' T' := by
  induction ts generalizing I J K A T with
  | nil => exact ⟨rfl, rfl, A, T, h⟩
  | cons t rest ih =>
    obtain ⟨he, A', T', h'⟩ := h.serve hh hl.1
    obtain ⟨hos, hK, hrest⟩ := ih h' hl.2
    simp only [Interpreter.turns, ← he]
    exact ⟨congrArg _ hos, hK, hrest⟩

/-- What interpreters in step have in common, as far as the host sees. -/
theorem InStep.sees (h : InStep config host I J K A T) {s : ScopeId} (hs : I.Sees K s) :
    J.Sees K s ∧ I.machine.store.bindings s = J.machine.store.bindings s ∧
      I.machine.store.parent? s = J.machine.store.parent? s := by
  have hsame := h.released.sameIn
  refine ⟨?_, hsame.bindings_eq (h.mem_of_sees hs), hsame.parent?_eq (h.mem_of_sees hs)⟩
  induction hs with
  | @root s hr =>
    rw [h.globals, h.released.world_eq, h.releasing] at hr
    refine .root ?_
    rw [h.keeping]
    exact hr
  | @step t u ht hu ih =>
    refine .step ih ?_
    rw [Store.holds, ← hsame.scopes_eq t (h.mem_of_sees ht)]
    exact hu

/-- Interpreters that have just been built are in step. -/
theorem inStep_of_build {b : Builder} {print printLine : NativeFunction} {globals : ScopeId}
    {σ : Store} {w : ω} (hw : host.held w = .empty)
    (hb : b.build print printLine .empty = .ok (globals, σ)) :
    InStep config host ⟨.releasing config host, globals, ⟨σ, 0, 0, w⟩⟩
      ⟨.keeping config host, globals, ⟨σ, 0, 0, w⟩⟩ ⟨[], []⟩ Set.univ fun _ => .withCapacity 0 := by
  have hf := Builder.isFresh_of_build Store.isFresh_empty hb
  exact
    { releasing := rfl
      keeping := rfl
      globals := rfl
      line := rfl
      callDepth := rfl
      released :=
        { world_eq := rfl
          same := fun v w hm => (Holding.mem_context.1 hm).2
          region := ⟨fun t _ => hf.alive t, fun _ _ _ _ => trivial⟩
          sameIn := .refl _ σ
          base_mem := fun _ _ => trivial
          context_mem := fun _ _ => trivial
          world_mem := fun _ _ => trivial
          identities :=
            { store := fun t v hv => (hf.plain t v hv).obeys
              values := fun v ⟨w, hm⟩ => by simp [Holding.context] at hm
              base := Holding.base_obeys
              world := fun t v hv => by simp [hw] at hv } } }

end Interpreter

/-- **Releasing scopes is unobservable.** An interpreter that discards the scopes that nothing else
can reach and one that keeps all scopes, asked the same by a host: every turn has the same outcome,
and after it the world is the same, and so is every scope that the host sees. -/
theorem releasing_unobservable {host : Host ω} (hh : host.UsesStrongHandles) {b : Builder}
    {print printLine : NativeFunction} {globals : ScopeId} {σ : Store} {w : ω}
    (hw : host.held w = .empty) (hb : b.build print printLine .empty = .ok (globals, σ))
    {ts : List Turn} :
    let I : Interpreter ω := ⟨.releasing b.config host, globals, ⟨σ, 0, 0, w⟩⟩
    let J : Interpreter ω := ⟨.keeping b.config host, globals, ⟨σ, 0, 0, w⟩⟩
    I.IsLegal ⟨[], []⟩ ts →
    let (os, I, K) := I.turns ⟨[], []⟩ ts
    let (os', J, K') := J.turns ⟨[], []⟩ ts
    os = os' ∧ K = K' ∧ I.machine.line = J.machine.line ∧ I.machine.world = J.machine.world ∧
      ∀ s, I.Sees K s → J.Sees K' s ∧ I.machine.store.bindings s = J.machine.store.bindings s ∧
        I.machine.store.parent? s = J.machine.store.parent? s := by
  intro I J hl
  obtain ⟨hos, hK, A, T, h⟩ := (Interpreter.inStep_of_build hw hb).turns hh hl
  refine ⟨hos, hK, h.line, h.released.world_eq, fun s hs => ?_⟩
  rw [← hK]
  exact h.sees hs

/-- A block on the workbench that binds a function in the function's own scope, run twice. -/
theorem releasing_unobservable_workbench :
    let b : Builder := Builder.start.withConfig { Config.standard with globalCapacity := 4 }
    let n : Node := ⟨.block [⟨.function "f" ⟨0, [], []⟩, 1⟩], 1⟩
    let ts : List Turn := [⟨3, ⟨[], []⟩, .run n⟩, ⟨3, ⟨[], []⟩, .run n⟩]
    ∃ globals σ, b.build ⟨0, "print"⟩ ⟨1, "println"⟩ .empty = .ok (globals, σ) ∧
      let m : Machine Workbench := ⟨σ, 0, 0, .ofSink .buffer⟩
      ((⟨.releasing b.config Workbench.host, globals, m⟩ : Interpreter Workbench).turns ⟨[], []⟩
          ts).1 =
        ((⟨.keeping b.config Workbench.host, globals, m⟩ : Interpreter Workbench).turns ⟨[], []⟩
          ts).1 := by
  intro b n ts
  have hok : (b.build ⟨0, "print"⟩ ⟨1, "println"⟩ .empty).isOk = true := by decide +kernel
  cases hb : b.build ⟨0, "print"⟩ ⟨1, "println"⟩ .empty with
  | error cause => simp [hb, Except.isOk, Except.toBool] at hok
  | ok p =>
    have permits : ∀ I : Interpreter Workbench, ∀ K t, t ∈ ts → I.Permits K t := by
      intro I K t ht
      simp only [ts, List.mem_cons, List.not_mem_nil, or_false, or_self] at ht
      subst ht
      exact ⟨by simp, by simp, trivial⟩
    have legal : Interpreter.IsLegal
        ⟨.releasing b.config Workbench.host, p.1, ⟨p.2, 0, 0, .ofSink .buffer⟩⟩ ⟨[], []⟩ ts :=
      ⟨permits _ _ _ List.mem_cons_self, permits _ _ _ List.mem_cons_self, trivial⟩
    refine ⟨p.1, p.2, rfl, ?_⟩
    exact (releasing_unobservable Workbench.usesStrongHandles rfl hb legal).1

end Treewalk
