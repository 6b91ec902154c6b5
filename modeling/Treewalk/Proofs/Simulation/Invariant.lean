import Treewalk.Proofs.Simulation.Exec

/-!
# Properties that evaluation keeps

A property of stores and worlds that every primitive operation keeps is kept by whole evaluations:
it is a simulation of a setting by itself. An invariant says which scopes an evaluation may declare
names in; the scopes that it makes are always among them.

* `Invariant.kept_exec` for nodes, in a scope where names may be declared.
* `Invariant.kept_exec_of_opensScope` for nodes that make a scope, in any scope.
* `Invariant.kept_callClosure` for calls.
-/

namespace Treewalk

/-- A property that the primitive operations of a setting keep. -/
structure Invariant {ω : Type} (S : Setting ω) where
  Kept : Store → ω → Prop
  /-- Scopes that names may be declared in. -/
  Open : ScopeId → Prop
  /-- Scopes made by the evaluation. -/
  New : ScopeId → Prop
  open_of_new {s : ScopeId} : New s → Open s
  child {σ : Store} {w : ω} (s : ScopeId) : Kept σ w →
    New (σ.child s).1 ∧ Kept (σ.child s).2 w
  leave {σ : Store} {w : ω} {s : ScopeId} (outside : List Held) : New s → Kept σ w →
    Kept (S.leave outside s σ) w
  declare {σ σ' : Store} {w : ω} {s : ScopeId} {name : String} {v : Value} {isConst : Bool}
    {b : Binding} : Kept σ w → Open s → σ.declare s name v isConst = .ok (b, σ') → Kept σ' w
  assign {σ σ' : Store} {w : ω} {s : ScopeId} {name : String} {v : Value} {b : Binding} :
    Kept σ w → σ.assign s name v = .ok (b, σ') → Kept σ' w
  number {σ : Store} {w : ω} (next : Nat) : Kept σ w → Kept { σ with nextObject := next } w
  call {σ : Store} {w : ω} {s : ScopeId} (f : NativeFunction) (args : List Value) :
    Kept σ w → Open s →
      Kept (S.host.call f args s σ w).2.1 (S.host.call f args s σ w).2.2

namespace Invariant

variable {ω : Type} {S : Setting ω} (I : Invariant S)

/-- The setting and itself, with whatever handles are held around. -/
def simulation (held : Held) : Simulation S S where
  like := .same
  twin s := s
  left := held
  right := held
  Around _ := True
  Rel Γ σ₁ w₁ σ₂ w₂ := σ₁ = σ₂ ∧ w₁ = w₂ ∧ Γ.Same ∧ I.Kept σ₁ w₁
  Excuses _ := False
  Open := I.Open
  Callable := I.Open
  New := I.New
  Tables t u := t = u
  loopVariable_eq := S.loopVariable_refl
  maxCallDepth_le := S.maxCallDepth_refl
  excuses_of_lt := S.maxCallDepth_irrefl
  open_of_new := I.open_of_new
  callable_of_open := id
  weaken hs := fun ⟨h₁, h₂, h, hk⟩ => ⟨h₁, h₂, fun v w hm => h v w (hs hm), hk⟩
  alike := fun ⟨_, _, h, _⟩ hm => by
    rw [h _ _ hm]
    exact .refl_same _
  closure := fun ⟨_, _, h, _⟩ hm => by
    obtain rfl := Value.function.inj (h _ _ hm)
    rfl
  plain := fun ⟨h₁, h₂, h, hk⟩ _ => ⟨h₁, h₂, h.cons _, hk⟩
  function := fun ⟨h₁, h₂, h, hk⟩ hcode _ _ name => by
    obtain rfl := hcode.eq
    exact ⟨h₁, h₂, h.cons _, hk⟩
  property := fun ⟨h₁, h₂, h, hk⟩ hm key => by
    obtain ⟨-, rfl⟩ := Value.object.inj (h _ _ hm)
    cases Table.get? _ key with
    | none => exact .none
    | some b => exact .some ⟨h₁, h₂, h.cons _, hk⟩
  resolve := fun ⟨h₁, h₂, h, hk⟩ _ name => by
    subst h₁
    cases Store.resolve _ _ name with
    | none => exact .none
    | some b => exact .some ⟨rfl, rfl, h₂, h.cons _, hk⟩
  child := fun ⟨h₁, h₂, h, hk⟩ _ => by
    subst h₁
    obtain ⟨hn, hk⟩ := I.child _ hk
    exact ⟨rfl, hn, rfl, h₂, h.scope _, hk⟩
  leave := fun {Γ} _ _ _ _ s hn ⟨h₁, h₂, h, hk⟩ => by
    have h : Γ.Same := fun v w hm => h v w (List.mem_cons_of_mem _ hm)
    subst h₁ h₂
    rw [h.left_eq_right]
    exact ⟨rfl, rfl, h, I.leave _ hn hk⟩
  declare := fun {_ σ₁ _ _ _ s v w} ⟨h₁, h₂, h, hk⟩ hm _ ho name isConst => by
    subst h₁
    obtain rfl := h _ _ hm
    cases hd : σ₁.declare s name v isConst with
    | error cause => exact .error cause
    | ok p => exact .ok ⟨rfl, h₂, h, I.declare hk ho hd⟩
  assign := fun {_ σ₁ _ _ _ s v w} ⟨h₁, h₂, h, hk⟩ hm _ name => by
    subst h₁
    obtain rfl := h _ _ hm
    cases ha : σ₁.assign s name v with
    | error fault => exact .error fault
    | ok p => exact .ok ⟨rfl, h₂, h, I.assign hk ha⟩
  copy := fun ⟨h₁, h₂, h, hk⟩ hm => by
    subst h₁
    obtain rfl := h _ _ hm
    exact ⟨rfl, h₂, h.cons _, I.number _ hk⟩
  tables_empty := rfl
  tables_set := fun {_ _ _ _ _ t u v w} ⟨_, _, h, _⟩ hm ht _ _ key isConst => by
    subst ht
    obtain rfl := h _ _ hm
    cases hs : t.set? key ⟨key, isConst, v⟩ with
    | none => exact .inr ⟨rfl, .inr ⟨rfl, rfl⟩⟩
    | some p => exact .inl ⟨p.1, p.1, p.2, p.2, rfl, rfl, rfl⟩
  object := fun ⟨h₁, h₂, h, hk⟩ ht _ _ _ => by
    subst h₁ ht
    exact ⟨rfl, h₂, h.cons _, I.number _ hk⟩
  call := fun {_ σ₁ w₁ _ _ s args args'} f ⟨h₁, h₂, h, hk⟩ hargs _ ho => by
    subst h₁ h₂
    obtain rfl : args = args' := by
      rw [← List.forall₂_eq_eq_eq]
      exact hargs.imp fun v w hm => h v w hm
    have hk := I.call f args hk ho
    dsimp only
    generalize S.host.call f args s σ₁ w₁ = r at hk ⊢
    obtain ⟨_ | v, σ, w⟩ := r
    · exact .inl ⟨_, rfl, .inr ⟨_, rfl, rfl, rfl, rfl, h, hk⟩⟩
    · exact .inr ⟨v, v, rfl, rfl, rfl, rfl, h.cons v, hk⟩

variable {I}

theorem admits (held : Held) (Γ : Context) (v : Value) : (I.simulation held).Admits Γ v v := by
  rintro Γ' σ₁ w₁ σ₂ w₂ - ⟨h₁, h₂, h, hk⟩
  exact ⟨h₁, h₂, h.cons v, hk⟩

theorem agree {m : Machine ω} (held : Held) (h : I.Kept m.store m.world) :
    (I.simulation held).Agree [] m m :=
  ⟨rfl, rfl, rfl, rfl, fun _ _ hm => (List.not_mem_nil hm).elim, h⟩

theorem kept_of_answers {held : Held} {Γ : Context} {a₁ a₂ : Answer ω}
    (h : (I.simulation held).Answers Γ a₁ a₂) : I.Kept a₁.2.store a₁.2.world := by
  obtain ⟨e, -, hx⟩ | ⟨Δ, -, ha⟩ := h
  · exact hx.elim
  · exact ha.rel.2.2.2

variable {m : Machine ω} {s : ScopeId}

/-- Evaluations keep an invariant. -/
theorem kept_exec (h : I.Kept m.store m.world) (ho : I.Open s) (fuel : Nat) (held : Held)
    (n : Node) :
    I.Kept (S.exec fuel held n s m).value.2.store (S.exec fuel held n s m).value.2.world :=
  kept_of_answers (Simulation.follows_exec (I.simulation held) fuel (n := n) rfl
    (agree held h) (.inl trivial) (.inl ho))

/-- A node that makes a scope declares no names in the scope at hand. -/
theorem kept_exec_of_opensScope (h : I.Kept m.store m.world) {n : Node}
    (hn : n.kind.opensScope = true) (s : ScopeId) (fuel : Nat) (held : Held) :
    I.Kept (S.exec fuel held n s m).value.2.store (S.exec fuel held n s m).value.2.world :=
  kept_of_answers (Simulation.follows_exec (I.simulation held) fuel rfl (agree held h)
    (.inl trivial) (.inr (.inl hn)))

/-- A call declares no names but in the scope that it makes. -/
theorem kept_callClosure (h : I.Kept m.store m.world) (f : Closure) (args : List Value)
    (fuel : Nat) (held : Held) :
    I.Kept (S.callClosure (S.exec fuel) held f args m).value.2.store
      (S.callClosure (S.exec fuel) held f args m).value.2.world := by
  have hargs : List.Forall₂ (fun v w => (I.simulation held).Admits [] v w) args args :=
    List.forall₂_same.2 fun v _ => admits held [] v
  have hev := Simulation.follows_exec (I.simulation held) fuel
  have ha := Simulation.answers_callClosure hev rfl rfl (Likeness.Closures.refl_same f).code
    (agree held h) (.inl trivial) hargs
  exact kept_of_answers ha

end Invariant

end Treewalk
