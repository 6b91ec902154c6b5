import Treewalk.Interpreter
import Treewalk.Proofs.Matching.Store
import Treewalk.Proofs.Simulation.Exec

/-!
# Two like evaluations

Two evaluations on the same host, of nodes that are alike and from machines that match, end in
results that match and in machines that match, whatever the likeness is. Nothing is asked of the
natives but that they keep to the likeness themselves: `Host.Respects`.

* `matchingSimulation`: every operation keeps stores, worlds and the values held matching.
* `Host.Respects.exec` and `Host.Respects.callValue`: evaluations and calls.
-/

namespace Treewalk

variable {ω : Type} {L : Likeness}

/-- Results that are values which match, or errors that are alike. -/
inductive Likeness.Results (L : Likeness) :
    Except EvalError Value → Except EvalError Value → Prop
  | ok {v w : Value} (h : v.Matches L w) : Results L (.ok v) (.ok w)
  | error {e e' : EvalError} (h : L.Errors e e') : Results L (.error e) (.error e')

/-- Machines whose stores match, with worlds that are the same up to what a host can tell. -/
structure Machine.Matches (L : Likeness) (World : ω → ω → Prop) (m₁ m₂ : Machine ω) : Prop where
  line : L.Lines m₁.line m₂.line
  callDepth_eq : m₁.callDepth = m₂.callDepth
  store : m₁.store.Matches L m₂.store
  world : World m₁.world m₂.world

/-- Natives that do alike what they are given alike. `World` says when two worlds are the same up
to what the natives can tell. -/
structure Host.Respects (host : Host ω) (L : Likeness) (World : ω → ω → Prop) : Prop where
  held {w w' : ω} : World w w' → (host.held w).Matches L (host.held w')
  call {σ₁ σ₂ : Store} (f : NativeFunction) {args args' : List Value} (env : ScopeId) {w w' : ω} :
    List.Forall₂ (Value.Matches L) args args' → σ₁.Matches L σ₂ → World w w' →
      let a := host.call f args env σ₁ w
      let b := host.call f args' env σ₂ w'
      L.Results a.1 b.1 ∧ a.2.1.Matches L b.2.1 ∧ World a.2.2 b.2.2

/-! ## The simulation -/

/-- Two evaluations whose values, stores and worlds match. -/
structure Likened (L : Likeness) (World : ω → ω → Prop) (Γ : Context) (σ₁ : Store) (w₁ : ω)
    (σ₂ : Store) (w₂ : ω) : Prop where
  values : ∀ v w, .value v w ∈ Γ → v.Matches L w
  stores : σ₁.Matches L σ₂
  worlds : World w₁ w₂

namespace Likened

variable {World : ω → ω → Prop} {Γ Γ' : Context} {σ₁ σ₂ σ₁' σ₂' : Store} {w₁ w₂ : ω}
variable {v w : Value}

theorem weaken (h : Likened L World Γ σ₁ w₁ σ₂ w₂) (hs : Γ' ⊆ Γ) :
    Likened L World Γ' σ₁ w₁ σ₂ w₂ :=
  { h with values := fun v w hm => h.values v w (hs hm) }

theorem holdValue (h : Likened L World Γ σ₁ w₁ σ₂ w₂) (hvw : v.Matches L w) :
    Likened L World (.value v w :: Γ) σ₁ w₁ σ₂ w₂ :=
  { h with
    values := fun v' w' hm => by
      cases hm with
      | head => exact hvw
      | tail _ hm => exact h.values v' w' hm }

theorem holdScope (h : Likened L World Γ σ₁ w₁ σ₂ w₂) (s : ScopeId) :
    Likened L World (.scope s :: Γ) σ₁ w₁ σ₂ w₂ :=
  { h with
    values := fun v w hm => by
      cases hm with
      | tail _ hm => exact h.values v w hm }

theorem withStores (h : Likened L World Γ σ₁ w₁ σ₂ w₂) (hs : σ₁'.Matches L σ₂') :
    Likened L World Γ σ₁' w₁ σ₂' w₂ :=
  { h with stores := hs }

end Likened

/-- **Like evaluations, side by side.** -/
def matchingSimulation (config : Config) {host : Host ω} {World : ω → ω → Prop}
    (hh : host.Respects L World) {left right : Held} (hheld : left.Matches L right) :
    Simulation (Setting.releasing config host) (Setting.releasing config host) where
  like := L
  twin s := s
  left := left
  right := right
  Around _ := True
  Rel := Likened L World
  Excuses _ := False
  Open _ := True
  Callable _ := True
  New _ := True
  Tables t u := t.Matches L u
  loopVariable_eq := Setting.loopVariable_refl (Setting.releasing config host)
  maxCallDepth_le := Setting.maxCallDepth_refl (Setting.releasing config host)
  excuses_of_lt := Setting.maxCallDepth_irrefl (Setting.releasing config host)
  open_of_new _ := trivial
  callable_of_open _ := trivial
  weaken hs h := h.weaken hs
  alike h hm := (h.values _ _ hm).alike
  closure h hm := (Value.Matches.closures (h.values _ _ hm)).scope.symm
  plain h hv := h.holdValue (.plain hv)
  function h hcode _ _ name := h.holdValue (.function ⟨rfl, rfl, hcode⟩)
  property := fun {_ _ _ _ _ _ _ t u} h hm key => by
    have hb := (Value.Matches.object_iff.1 (h.values _ _ hm)).2.get? key
    generalize t.get? key = b at hb
    generalize u.get? key = c at hb
    cases hb with
    | none => exact .none
    | some hb => exact .some (h.holdValue hb.value)
  resolve := fun {_ σ₁ _ σ₂ _ s} h _ name => by
    have hb := h.stores.resolve s name
    generalize σ₁.resolve s name = b at hb
    generalize σ₂.resolve s name = c at hb
    cases hb with
    | none => exact .none
    | some hb => exact .some ⟨hb.isConst, h.holdValue hb.value⟩
  child := fun {_ _ _ _ _ s} h _ => by
    obtain ⟨he, hs⟩ := h.stores.child s
    exact ⟨he.symm, trivial, (h.withStores hs).holdScope _⟩
  leave := fun {_ _ _ _ _ s} _ h => by
    have h := h.weaken (List.subset_cons_self _ _)
    have hout := Context.matches hheld h.values
    exact h.withStores (h.stores.leave (.cons hout (.cons (hh.held h.worlds) .nil)) s)
  declare := fun {_ _ _ _ _ s _ _} h hm _ _ name isConst =>
    (h.stores.declare (h.values _ _ hm) s name isConst).imp fun _ _ hs => h.withStores hs
  assign := fun {_ _ _ _ _ s _ _} h hm _ name =>
    (h.stores.assign (h.values _ _ hm) s name).imp fun _ _ hs => h.withStores hs
  copy h hm := by
    obtain ⟨hcopy, hs⟩ := h.stores.copy (h.values _ _ hm)
    exact (h.withStores hs).holdValue hcopy
  tables_empty := .withCapacity _
  tables_set := fun {_ _ _ _ _ t u v w} h hm ht _ _ key isConst => by
    have hbc : BindingOf.Matches L ⟨key, isConst, v⟩ ⟨key, isConst, w⟩ :=
      ⟨rfl, rfl, h.values _ _ hm⟩
    rw [Table.set?, Table.set?, ht.place?_eq]
    cases u.place? key with
    | none => exact .inr ⟨rfl, .inr ⟨rfl, ht.capacity_eq⟩⟩
    | some p => exact .inl ⟨_, _, _, _, rfl, rfl, ht.write hbc p key⟩
  object h ht _ _ _ := by
    obtain ⟨ho, hs⟩ := h.stores.object ht
    exact (h.withStores hs).holdValue ho
  call := fun {_ σ₁ w₁ σ₂ w₂ s args args'} f h hargs _ _ => by
    obtain ⟨hr, hs, hw⟩ := hh.call f s (hargs.imp h.values) h.stores h.worlds
    dsimp only [Setting.releasing]
    generalize host.call f args s σ₁ w₁ = a at hr hs hw ⊢
    generalize host.call f args' s σ₂ w₂ = b at hr hs hw ⊢
    obtain ⟨r, σ₁', w₁'⟩ := a
    obtain ⟨r', σ₂', w₂'⟩ := b
    dsimp only at hr hs hw ⊢
    cases hr with
    | ok hvw => exact .inr ⟨_, _, rfl, rfl, Likened.holdValue ⟨h.values, hs, hw⟩ hvw⟩
    | error he => exact .inl ⟨_, rfl, .inr ⟨_, rfl, he, h.values, hs, hw⟩⟩

/-! ## Evaluations and calls -/

/-- The values of completions that correspond. -/
theorem Completion.Pair.values {c d : Completion} {Δ : Context} (h : Completion.Pair L c d Δ)
    (hΔ : ∀ v w, .value v w ∈ Δ → v.Matches L w) :
    List.Forall₂ (Value.Matches L) c.values d.values := by
  cases h with
  | value v w | returned v w => exact .cons (hΔ v w List.mem_cons_self) .nil
  | broke | continued | failed | panicked | exhausted => exact .nil

/-- What a host sees of completions that correspond. -/
theorem Completion.Pair.results {c d : Completion} {Δ Γ : Context} (h : Completion.Pair L c d Δ)
    (hΔ : ∀ v w, .value v w ∈ Δ ++ Γ → v.Matches L w) {line line' : UInt32}
    (hline : L.Lines line line') : Option.Rel L.Results (c.result? line) (d.result? line') := by
  cases h with
  | value v w | returned v w => exact .some (.ok (hΔ v w List.mem_cons_self))
  | broke | continued => exact .some (.ok (.plain .null))
  | failed he => exact .some (.error (L.atLine he hline))
  | panicked | exhausted => exact .none

/-- Answers whose results match for a host, on machines that match. -/
structure Answers (L : Likeness) (World : ω → ω → Prop) (a₁ a₂ : Answer ω) : Prop where
  results : Option.Rel L.Results (a₁.1.result? a₁.2.line) (a₂.1.result? a₂.2.line)
  panics : a₁.1 = .panicked → L.Panics
  machines : a₁.2.Matches L World a₂.2

namespace Host.Respects

variable {config : Config} {host : Host ω} {World : ω → ω → Prop} {left right : Held}
variable {m₁ m₂ : Machine ω}

theorem agree (hh : host.Respects L World) (hheld : left.Matches L right)
    (h : m₁.Matches L World m₂) {Γ : Context} (hΓ : ∀ v w, .value v w ∈ Γ → v.Matches L w) :
    (matchingSimulation config hh hheld).Agree Γ m₁ m₂ :=
  ⟨h.line, h.callDepth_eq, hΓ, h.store, h.world⟩

theorem answers (hh : host.Respects L World) (hheld : left.Matches L right) {Γ : Context}
    {a₁ a₂ : Answer ω} (h : (matchingSimulation config hh hheld).Answers Γ a₁ a₂) :
    Answers L World a₁ a₂ := by
  obtain ⟨e, -, hx⟩ | ⟨Δ, hp, hline, hdepth, hr⟩ := h
  · exact hx.elim
  · exact ⟨hp.results hr.values hline, hp.panics, hline, hdepth, hr.stores, hr.worlds⟩

/-- Evaluations of like nodes, by evaluators that give like answers to like nodes. -/
theorem evaluate (hh : host.Respects L World) (hheld : left.Matches L right)
    {ev₁ ev₂ : Evaluator ω}
    (hev : (matchingSimulation config hh hheld).Follows ev₁ ev₂)
    (h : m₁.Matches L World m₂) {n n' : Node} (hn : L.Nodes n n') (env : ScopeId) :
    Answers L World (ev₁ left n env m₁).value (ev₂ right n' env m₂).value :=
  hh.answers hheld (hev hn (hh.agree hheld h (Γ := []) (by simp)) (.inl trivial) (.inl trivial))

/-- Calls of matching values, by evaluators that give like answers to like nodes. -/
theorem evaluateCall (hh : host.Respects L World) (hheld : left.Matches L right)
    {ev₁ ev₂ : Evaluator ω}
    (hev : (matchingSimulation config hh hheld).Follows ev₁ ev₂)
    (h : m₁.Matches L World m₂) {f g : Value} (hfg : f.Matches L g) {args args' : List Value}
    (hargs : List.Forall₂ (Value.Matches L) args args') (env : ScopeId) :
    Answers L World ((Setting.releasing config host).callValue ev₁ left f args env m₁).value
      ((Setting.releasing config host).callValue ev₂ right g args' env m₂).value := by
  have hag : ∀ {Γ : Context}, (∀ v w, .value v w ∈ Γ → v.Matches L w) →
      (matchingSimulation config hh hheld).Agree Γ m₁ m₂ := hh.agree hheld h
  cases hfg with
  | function hfg =>
    refine hh.answers hheld (Simulation.answers_callClosure (Γ := []) hev hfg.name hfg.scope.symm
      hfg.code (hag (by simp)) (.inl trivial) (hargs.imp fun v w hvw => ?_))
    exact fun _ _ _ _ _ _ hr => hr.holdValue hvw
  | object => exact hh.answers hheld (Simulation.answers_fail (Γ := []) (hag (by simp)) _)
  | @plain f hf =>
    cases f with
    | native f =>
      -- A native is told nothing of what is held, so the arguments may be held as pairs.
      let Γ : Context := (args.zip args').map fun p => .value p.1 p.2
      have hΓ : ∀ v w, .value v w ∈ Γ → v.Matches L w := by
        intro v w hm
        obtain ⟨⟨v', w'⟩, hp, he⟩ := List.mem_map.1 hm
        cases he
        exact (List.forall₂_iff_zip.1 hargs).2 hp
      have hmem : List.Forall₂ (fun v w => .value v w ∈ Γ) args args' :=
        List.forall₂_iff_zip.2 ⟨hargs.length_eq, fun hp => List.mem_map.2 ⟨_, hp, rfl⟩⟩
      exact hh.answers hheld (Simulation.answers_callNative f (hag hΓ) hmem (.inl trivial) trivial)
    | function f => exact hf.isPlain.elim
    | _ => exact hh.answers hheld (Simulation.answers_fail (Γ := []) (hag (by simp)) _)

/-- Evaluations of like nodes end alike. -/
theorem exec (hh : host.Respects L World) (hheld : left.Matches L right)
    (h : m₁.Matches L World m₂) {n n' : Node} (hn : L.Nodes n n') (fuel : Nat) (env : ScopeId) :
    let S := Setting.releasing config host
    Answers L World (S.exec fuel left n env m₁).value (S.exec fuel right n' env m₂).value :=
  hh.evaluate hheld (Simulation.follows_exec _ fuel) h hn env

/-- Calls of matching values end alike. -/
theorem callValue (hh : host.Respects L World) (hheld : left.Matches L right)
    (h : m₁.Matches L World m₂) {f g : Value} (hfg : f.Matches L g) {args args' : List Value}
    (hargs : List.Forall₂ (Value.Matches L) args args') (fuel : Nat) (env : ScopeId) :
    let S := Setting.releasing config host
    Answers L World (S.callValue (S.exec fuel) left f args env m₁).value
      (S.callValue (S.exec fuel) right g args' env m₂).value :=
  hh.evaluateCall hheld (Simulation.follows_exec _ fuel) h hfg hargs env

end Host.Respects

end Treewalk
