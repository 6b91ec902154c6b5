import Treewalk.Eval.Exec
import Treewalk.Proofs.Simulation.Likeness
import Treewalk.Proofs.Syntax.Parts
import Treewalk.Proofs.Table.Probing

/-!
# Two evaluations side by side

Two settings evaluate nodes in step that are alike. `Simulation` says what has to hold of the
primitive operations on stores, tables and worlds for the two evaluations to keep a relation; that
a whole evaluation keeps it is proved once, from these laws, in `Treewalk.Proofs.Simulation.Exec`.

The relation is between two stores with their worlds, in a context: a list of the handles that the
evaluations in progress hold. A handle is a scope of the first side, which has a twin on the second
side, or two values that stand for each other. Values waiting for a later part of a node are in the
context as long as they wait, so that the relation may speak of them.

Names may be bound in open scopes only, and natives may be called from some more. A node that
declares nothing at its own level is evaluated in step in every scope that natives may be called
from, and a node that makes a scope for all its parts is evaluated in step anywhere.

* `Simulation.Agree` ties two machines in a context, `Simulation.Answers` two answers.
* `Simulation.answers_seq` and `Simulation.answers_thenValue` compose evaluations.
* `Simulation.answers_within` evaluates in a new scope and leaves it.
-/

namespace Treewalk

/-- What two evaluations hold at the same moment. -/
inductive Handle where
  | scope (s : ScopeId)
  | value (left right : Value)

namespace Handle

/-- Adds the handle of the first evaluation to those held. -/
def holdLeft (h : Held) : Handle → Held
  | scope s => h.scope s
  | value v _ => h.value v

/-- Adds the handle of the second evaluation to those held, with the twin of a scope. -/
def holdRight (twin : ScopeId → ScopeId) (h : Held) : Handle → Held
  | scope s => h.scope (twin s)
  | value _ w => h.value w

end Handle

/-- The handles of evaluations in progress, the latest first. -/
abbrev Context := List Handle

namespace Context

/-- The handles of the first evaluation on top of others. -/
def left (base : Held) (Γ : Context) : Held := Γ.foldr (fun x h => x.holdLeft h) base

/-- The handles of the second evaluation on top of others. -/
def right (twin : ScopeId → ScopeId) (base : Held) (Γ : Context) : Held :=
  Γ.foldr (fun x h => x.holdRight twin h) base

/-- Whether a scope is held: by those around, by itself or by a function of it. -/
def Holds (around : ScopeId → Prop) (Γ : Context) (s : ScopeId) : Prop :=
  around s ∨ .scope s ∈ Γ ∨ ∃ (f : Closure) (v : Value), .value (.function f) v ∈ Γ ∧ f.scope = s

theorem Holds.mono {around : ScopeId → Prop} {Γ Γ' : Context} {s : ScopeId} (h : Γ ⊆ Γ')
    (hs : Holds around Γ s) : Holds around Γ' s := by
  obtain hb | hs | ⟨f, v, hf, rfl⟩ := hs
  · exact .inl hb
  · exact .inr (.inl (h hs))
  · exact .inr (.inr ⟨f, v, h hf, rfl⟩)

theorem Holds.cons {around : ScopeId → Prop} {Γ : Context} {s : ScopeId} (x : Handle)
    (hs : Holds around Γ s) : Holds around (x :: Γ) s := hs.mono (List.subset_cons_self x Γ)

/-- A context of two evaluations that are the same. -/
def Same (Γ : Context) : Prop := ∀ v w, .value v w ∈ Γ → v = w

theorem Same.cons {Γ : Context} (h : Γ.Same) (v : Value) : Same (.value v v :: Γ) := by
  intro v' w' hm
  cases hm with
  | head => rfl
  | tail _ hm => exact h v' w' hm

theorem Same.scope {Γ : Context} (h : Γ.Same) (s : ScopeId) : Same (.scope s :: Γ) := by
  intro v w hm
  cases hm with
  | tail _ hm => exact h v w hm

theorem Same.left_eq_right {Γ : Context} (h : Γ.Same) (base : Held) :
    Γ.left base = Γ.right id base := by
  induction Γ with
  | nil => rfl
  | cons x Γ ih =>
    have ih := ih fun v w hm => h v w (List.mem_cons_of_mem x hm)
    cases x with
    | scope s => exact congrArg (Held.scope · s) ih
    | value v w =>
      obtain rfl := h v w List.mem_cons_self
      exact congrArg (Held.value · v) ih

end Context

/-! ## Results and completions that correspond -/

/-- Results that correspond, unless the first one is a failure that is excused. -/
inductive Corresponds {ε α β : Type} (excuses : ε → Prop) (R : α → β → Prop) :
    Except ε α → Except ε β → Prop
  | ok {a : α} {b : β} (h : R a b) : Corresponds excuses R (.ok a) (.ok b)
  | error (e : ε) : Corresponds excuses R (.error e) (.error e)
  | excused {e : ε} (h : excuses e) (r : Except ε β) : Corresponds excuses R (.error e) r

theorem Corresponds.imp {ε α β : Type} {excuses : ε → Prop} {R R' : α → β → Prop}
    {a : Except ε α} {b : Except ε β} (h : Corresponds excuses R a b)
    (hR : ∀ a b, R a b → R' a b) : Corresponds excuses R' a b := by
  cases h with
  | ok h => exact .ok (hR _ _ h)
  | error e => exact .error e
  | excused h _ => exact .excused h _

namespace Completion

/-- Completions that correspond, with the handles that they carry. -/
inductive Pair (L : Likeness) : Completion → Completion → Context → Prop
  | value (v w : Value) : Pair L (.value v) (.value w) [.value v w]
  | returned (v w : Value) : Pair L (.returned v) (.returned w) [.value v w]
  | broke : Pair L .broke .broke []
  | continued : Pair L .continued .continued []
  | failed {e e' : EvalError} (h : L.Errors e e') : Pair L (.failed e) (.failed e') []
  | panicked (h : L.Panics) : Pair L .panicked .panicked []
  | exhausted : Pair L .exhausted .exhausted []

variable {L : Likeness} {c d : Completion} {Δ : Context}

theorem Pair.left_eq (h : Pair L c d Δ) (base : Held) (Γ : Context) :
    (Γ.left base).values c.values = Context.left base (Δ ++ Γ) := by
  cases h <;> rfl

theorem Pair.right_eq (h : Pair L c d Δ) (twin : ScopeId → ScopeId) (base : Held) (Γ : Context) :
    (Γ.right twin base).values d.values = Context.right twin base (Δ ++ Γ) := by
  cases h <;> rfl

theorem Pair.atLine (h : Pair L c d Δ) {line line' : UInt32} (hl : L.Lines line line') :
    Pair L (c.atLine line) (d.atLine line') Δ := by
  cases h with
  | failed he => exact .failed (L.atLine he hl)
  | panicked hp => exact .panicked hp
  | _ => constructor

/-- A panic is one of numbers that allow it. -/
theorem Pair.panics (h : Pair L c d Δ) (hc : c = .panicked) : L.Panics := by
  cases h with
  | panicked hp => exact hp
  | _ => cases hc

/-- A loop takes the same signals on both sides, or lets both completions pass. -/
theorem Pair.bodyStatus (h : Pair L c d Δ) (isBlock : Bool) :
    (∃ status, c.bodyStatus isBlock = .ok status ∧ d.bodyStatus isBlock = .ok status) ∨
      c.bodyStatus isBlock = .error c ∧ d.bodyStatus isBlock = .error d := by
  cases isBlock <;> cases h <;> simp [Completion.bodyStatus, Completion.loopStatus]

end Completion

/-! ## The laws -/

/-- Two settings with a relation that evaluation keeps. -/
structure Simulation {ω₁ ω₂ : Type} (S₁ : Setting ω₁) (S₂ : Setting ω₂) where
  /-- What may differ between the two evaluations. -/
  like : Likeness
  /-- The scope of the second side that stands for a scope of the first. -/
  twin : ScopeId → ScopeId
  /-- What is held around the first evaluation. -/
  left : Held
  /-- What is held around the second evaluation. -/
  right : Held
  /-- Scopes that are held around both. -/
  Around : ScopeId → Prop
  Rel : Context → Store → ω₁ → Store → ω₂ → Prop
  /-- Failures of the first evaluation that end the comparison. -/
  Excuses : ErrorCause → Prop
  /-- Scopes that names may be declared in. -/
  Open : ScopeId → Prop
  /-- Scopes that natives may be called from. -/
  Callable : ScopeId → Prop
  /-- Scopes made by the evaluation. -/
  New : ScopeId → Prop
  /-- Tables of objects that are being made. -/
  Tables : Table Binding → Table Binding → Prop
  loopVariable_eq : S₁.config.loopVariable = S₂.config.loopVariable
  maxCallDepth_le : S₁.config.maxCallDepth ≤ S₂.config.maxCallDepth
  excuses_of_lt : S₁.config.maxCallDepth < S₂.config.maxCallDepth →
    Excuses (.stackOverflow S₁.config.maxCallDepth)
  open_of_new {s : ScopeId} : New s → Open s
  callable_of_open {s : ScopeId} : Open s → Callable s
  weaken {Γ Γ' : Context} {σ₁ : Store} {w₁ : ω₁} {σ₂ : Store} {w₂ : ω₂} :
    Γ' ⊆ Γ → Rel Γ σ₁ w₁ σ₂ w₂ → Rel Γ' σ₁ w₁ σ₂ w₂
  alike {Γ : Context} {σ₁ : Store} {w₁ : ω₁} {σ₂ : Store} {w₂ : ω₂} {v w : Value} :
    Rel Γ σ₁ w₁ σ₂ w₂ → .value v w ∈ Γ → v.Alike like w
  closure {Γ : Context} {σ₁ : Store} {w₁ : ω₁} {σ₂ : Store} {w₂ : ω₂} {f g : Closure} :
    Rel Γ σ₁ w₁ σ₂ w₂ → .value (.function f) (.function g) ∈ Γ → g.scope = twin f.scope
  plain {Γ : Context} {σ₁ : Store} {w₁ : ω₁} {σ₂ : Store} {w₂ : ω₂} {v : Value} :
    Rel Γ σ₁ w₁ σ₂ w₂ → like.Plain v → Rel (.value v v :: Γ) σ₁ w₁ σ₂ w₂
  function {Γ : Context} {σ₁ : Store} {w₁ : ω₁} {σ₂ : Store} {w₂ : ω₂} {s : ScopeId}
    {code code' : Code} : Rel Γ σ₁ w₁ σ₂ w₂ → code.Matches like.Nodes code' → Γ.Holds Around s →
      Open s → ∀ name,
        Rel (.value (.function ⟨name, code, s⟩) (.function ⟨name, code', twin s⟩) :: Γ) σ₁ w₁ σ₂ w₂
  property {Γ : Context} {σ₁ : Store} {w₁ : ω₁} {σ₂ : Store} {w₂ : ω₂} {i j : ObjectId}
    {t u : Table Binding} : Rel Γ σ₁ w₁ σ₂ w₂ → .value (.object i t) (.object j u) ∈ Γ →
      ∀ key, Option.Rel (fun b c => Rel (.value b.value c.value :: Γ) σ₁ w₁ σ₂ w₂)
        (t.get? key) (u.get? key)
  resolve {Γ : Context} {σ₁ : Store} {w₁ : ω₁} {σ₂ : Store} {w₂ : ω₂} {s : ScopeId} :
    Rel Γ σ₁ w₁ σ₂ w₂ → Γ.Holds Around s →
      ∀ name, Option.Rel (fun b c => b.isConst = c.isConst ∧
        Rel (.value b.value c.value :: Γ) σ₁ w₁ σ₂ w₂)
          (σ₁.resolve s name) (σ₂.resolve (twin s) name)
  child {Γ : Context} {σ₁ : Store} {w₁ : ω₁} {σ₂ : Store} {w₂ : ω₂} {s : ScopeId} :
    Rel Γ σ₁ w₁ σ₂ w₂ → Γ.Holds Around s →
      (σ₂.child (twin s)).1 = twin (σ₁.child s).1 ∧ New (σ₁.child s).1 ∧
        Rel (.scope (σ₁.child s).1 :: Γ) (σ₁.child s).2 w₁ (σ₂.child (twin s)).2 w₂
  leave {Γ : Context} {σ₁ : Store} {w₁ : ω₁} {σ₂ : Store} {w₂ : ω₂} {s : ScopeId} :
    New s → Rel (.scope s :: Γ) σ₁ w₁ σ₂ w₂ →
      Rel Γ (S₁.leave [Γ.left left, S₁.host.held w₁] s σ₁) w₁
        (S₂.leave [Γ.right twin right, S₂.host.held w₂] (twin s) σ₂) w₂
  declare {Γ : Context} {σ₁ : Store} {w₁ : ω₁} {σ₂ : Store} {w₂ : ω₂} {s : ScopeId}
    {v w : Value} : Rel Γ σ₁ w₁ σ₂ w₂ → .value v w ∈ Γ → Γ.Holds Around s → Open s →
      ∀ name isConst, Corresponds Excuses (fun p q => Rel Γ p.2 w₁ q.2 w₂)
        (σ₁.declare s name v isConst) (σ₂.declare (twin s) name w isConst)
  assign {Γ : Context} {σ₁ : Store} {w₁ : ω₁} {σ₂ : Store} {w₂ : ω₂} {s : ScopeId}
    {v w : Value} : Rel Γ σ₁ w₁ σ₂ w₂ → .value v w ∈ Γ → Γ.Holds Around s →
      ∀ name, Corresponds (fun _ => False) (fun p q => Rel Γ p.2 w₁ q.2 w₂)
        (σ₁.assign s name v) (σ₂.assign (twin s) name w)
  copy {Γ : Context} {σ₁ : Store} {w₁ : ω₁} {σ₂ : Store} {w₂ : ω₂} {v w : Value} :
    Rel Γ σ₁ w₁ σ₂ w₂ → .value v w ∈ Γ →
      Rel (.value (σ₁.copy v).1 (σ₂.copy w).1 :: Γ) (σ₁.copy v).2 w₁ (σ₂.copy w).2 w₂
  tables_empty : Tables (.withCapacity S₁.config.objectCapacity)
    (.withCapacity S₂.config.objectCapacity)
  tables_set {Γ : Context} {σ₁ : Store} {w₁ : ω₁} {σ₂ : Store} {w₂ : ω₂}
    {t u : Table Binding} {v w : Value} : Rel Γ σ₁ w₁ σ₂ w₂ → .value v w ∈ Γ → Tables t u →
      t.WellFormed → u.WellFormed → ∀ key isConst,
        (∃ o o' t' u', t.set? key ⟨key, isConst, v⟩ = some (o, t') ∧
            u.set? key ⟨key, isConst, w⟩ = some (o', u') ∧ Tables t' u') ∨
          t.set? key ⟨key, isConst, v⟩ = none ∧ (Excuses (.tableOverflow t.capacity) ∨
            u.set? key ⟨key, isConst, w⟩ = none ∧ t.capacity = u.capacity)
  object {Γ : Context} {σ₁ : Store} {w₁ : ω₁} {σ₂ : Store} {w₂ : ω₂} {t u : Table Binding} :
    Rel Γ σ₁ w₁ σ₂ w₂ → Tables t u → t.WellFormed → u.WellFormed →
      (∀ key, Option.Rel (fun b c => .value b.value c.value ∈ Γ) (t.get? key) (u.get? key)) →
        Rel (.value (σ₁.object t).1 (σ₂.object u).1 :: Γ) (σ₁.object t).2 w₁ (σ₂.object u).2 w₂
  call {Γ : Context} {σ₁ : Store} {w₁ : ω₁} {σ₂ : Store} {w₂ : ω₂} {s : ScopeId}
    {args args' : List Value} (f : NativeFunction) : Rel Γ σ₁ w₁ σ₂ w₂ →
      List.Forall₂ (fun v w => .value v w ∈ Γ) args args' → Γ.Holds Around s → Callable s →
        let a := S₁.host.call f args s σ₁ w₁
        let b := S₂.host.call f args' (twin s) σ₂ w₂
        (∃ e, a.1 = .error e ∧ (Excuses e.cause ∨ ∃ e', b.1 = .error e' ∧
            like.Errors e e' ∧ Rel Γ a.2.1 a.2.2 b.2.1 b.2.2)) ∨
          ∃ v w, a.1 = .ok v ∧ b.1 = .ok w ∧ Rel (.value v w :: Γ) a.2.1 a.2.2 b.2.1 b.2.2

namespace Setting

/-! A setting has the limits that it has. -/

theorem loopVariable_refl {ω : Type} (S : Setting ω) :
    S.config.loopVariable = S.config.loopVariable := rfl

theorem maxCallDepth_refl {ω : Type} (S : Setting ω) :
    S.config.maxCallDepth ≤ S.config.maxCallDepth := Nat.le_refl _

theorem maxCallDepth_irrefl {ω : Type} (S : Setting ω) :
    S.config.maxCallDepth < S.config.maxCallDepth → False := Nat.lt_irrefl _

end Setting

theorem Setting.within_eq {ω : Type} (S : Setting ω) (held : Held) (s : ScopeId) (m : Machine ω)
    (body : ScopeId → Machine ω → Deferred (Answer ω)) :
    S.within held s m body =
      (body (m.store.child s).1 (m.withStore (m.store.child s).2)).map
        (S.leaveScope held (m.store.child s).1) := rfl

namespace Simulation

variable {ω₁ ω₂ : Type} {S₁ : Setting ω₁} {S₂ : Setting ω₂} (sim : Simulation S₁ S₂)

/-- What the first evaluation and all around it hold. -/
def leftHeld (Γ : Context) : Held := Γ.left sim.left

/-- What the second evaluation and all around it hold. -/
def rightHeld (Γ : Context) : Held := Γ.right sim.twin sim.right

/-- Whether a scope is held on both sides. -/
def Holds (Γ : Context) (s : ScopeId) : Prop := Γ.Holds sim.Around s

/-- Whether a node may be evaluated in a scope. -/
def Suits (kind : NodeKind) (s : ScopeId) : Prop :=
  sim.Open s ∨ kind.opensScope = true ∨ sim.Callable s ∧ kind.DeclaresNothing

/-- Two machines in step. -/
structure Agree (Γ : Context) (m₁ : Machine ω₁) (m₂ : Machine ω₂) : Prop where
  line : sim.like.Lines m₁.line m₂.line
  callDepth : m₁.callDepth = m₂.callDepth
  rel : sim.Rel Γ m₁.store m₁.world m₂.store m₂.world

/-- Whether two values may be held besides a context. -/
def Admits (Γ : Context) (v w : Value) : Prop :=
  ∀ ⦃Γ' σ₁ w₁ σ₂ w₂⦄, Γ ⊆ Γ' → sim.Rel Γ' σ₁ w₁ σ₂ w₂ → sim.Rel (.value v w :: Γ') σ₁ w₁ σ₂ w₂

/-- A failure that ends the comparison. -/
def Excused (c : Completion) : Prop := ∃ e, c = .failed e ∧ sim.Excuses e.cause

/-- Two answers that correspond, unless the first is an excused failure. -/
def Answers (Γ : Context) (a₁ : Answer ω₁) (a₂ : Answer ω₂) : Prop :=
  sim.Excused a₁.1 ∨ ∃ Δ, Completion.Pair sim.like a₁.1 a₂.1 Δ ∧ sim.Agree (Δ ++ Γ) a₁.2 a₂.2

/-- Two evaluators that give answers that correspond, for nodes that are alike. -/
def Follows (ev₁ : Evaluator ω₁) (ev₂ : Evaluator ω₂) : Prop :=
  ∀ ⦃Γ : Context⦄ ⦃n n' : Node⦄ ⦃s : ScopeId⦄ ⦃m₁ : Machine ω₁⦄ ⦃m₂ : Machine ω₂⦄,
    sim.like.Nodes n n' → sim.Agree Γ m₁ m₂ → sim.Holds Γ s → sim.Suits n.kind s →
      sim.Answers Γ (ev₁ (sim.leftHeld Γ) n s m₁).value
        (ev₂ (sim.rightHeld Γ) n' (sim.twin s) m₂).value

variable {sim} {Γ Γ' : Context} {m₁ : Machine ω₁} {m₂ : Machine ω₂}

/-! ## Nodes and scopes that go together -/

theorem Suits.part {kind : NodeKind} {s : ScopeId} (h : sim.Suits kind s) {n : Node}
    (hn : n ∈ kind.inPlace) : sim.Suits n.kind s := by
  obtain ho | hk | ⟨hc, hd⟩ := h
  · exact .inl ho
  · cases kind <;> cases hk <;> cases hn
  · exact .inr (.inr ⟨hc, hd.of_inPlace hn⟩)

theorem Suits.isOpen {kind : NodeKind} {s : ScopeId} (h : sim.Suits kind s)
    (hd : kind.declares = true) : sim.Open s := by
  obtain ho | hk | ⟨-, hn⟩ := h
  · exact ho
  · cases kind <;> cases hk <;> cases hd
  · rw [hn.declares_eq] at hd
    cases hd

theorem Suits.callable {kind : NodeKind} {s : ScopeId} (h : sim.Suits kind s)
    (hk : kind.opensScope = false) : sim.Callable s := by
  obtain ho | hk' | ⟨hc, -⟩ := h
  · exact sim.callable_of_open ho
  · rw [hk] at hk'
    cases hk'
  · exact hc

/-! ## Machines in step -/

theorem Agree.weaken (h : sim.Agree Γ m₁ m₂) (hs : Γ' ⊆ Γ) : sim.Agree Γ' m₁ m₂ :=
  ⟨h.line, h.callDepth, sim.weaken hs h.rel⟩

/-- Drops the latest handle. -/
theorem Agree.tail {x : Handle} (h : sim.Agree (x :: Γ) m₁ m₂) : sim.Agree Γ m₁ m₂ :=
  h.weaken (List.subset_cons_self x Γ)

/-- Drops the handle below the latest. -/
theorem Agree.dropSecond {x y : Handle} (h : sim.Agree (x :: y :: Γ) m₁ m₂) :
    sim.Agree (x :: Γ) m₁ m₂ :=
  h.weaken (List.cons_subset_cons x (List.subset_cons_self y Γ))

theorem Agree.plain (h : sim.Agree Γ m₁ m₂) {v : Value} (hv : sim.like.Plain v) :
    sim.Agree (.value v v :: Γ) m₁ m₂ :=
  ⟨h.line, h.callDepth, sim.plain h.rel hv⟩

theorem Agree.withStore {σ₁ σ₂ : Store} (h : sim.Agree Γ m₁ m₂)
    (hr : sim.Rel Γ' σ₁ m₁.world σ₂ m₂.world) :
    sim.Agree Γ' (m₁.withStore σ₁) (m₂.withStore σ₂) :=
  ⟨h.line, h.callDepth, hr⟩

theorem Agree.alike (h : sim.Agree Γ m₁ m₂) {v w : Value} (hv : .value v w ∈ Γ) :
    v.Alike sim.like w :=
  sim.alike h.rel hv

theorem admits_of_mem {v w : Value} (h : .value v w ∈ Γ) : sim.Admits Γ v w :=
  fun _ _ _ _ _ hs hr => sim.weaken (List.cons_subset.2 ⟨hs h, List.Subset.refl _⟩) hr

theorem Admits.mono {v w : Value} (h : sim.Admits Γ v w) (hs : Γ ⊆ Γ') : sim.Admits Γ' v w :=
  fun _ _ _ _ _ hs' => h (List.Subset.trans hs hs')

theorem Answers.weaken {a₁ : Answer ω₁} {a₂ : Answer ω₂} (h : sim.Answers Γ a₁ a₂)
    (hs : Γ' ⊆ Γ) : sim.Answers Γ' a₁ a₂ := by
  obtain he | ⟨Δ, hp, ha⟩ := h
  · exact .inl he
  · exact .inr ⟨Δ, hp, ha.weaken (List.append_subset.2
      ⟨List.subset_append_left Δ Γ, List.Subset.trans hs (List.subset_append_right Δ Γ)⟩)⟩

theorem Answers.tail {a₁ : Answer ω₁} {a₂ : Answer ω₂} {x : Handle}
    (h : sim.Answers (x :: Γ) a₁ a₂) : sim.Answers Γ a₁ a₂ :=
  h.weaken (List.subset_cons_self x Γ)

/-! ## Ends -/

theorem answers_give {v w : Value} (h : sim.Agree (.value v w :: Γ) m₁ m₂) :
    sim.Answers Γ (m₁.give v).value (m₂.give w).value :=
  .inr ⟨_, .value v w, h⟩

theorem answers_give_null (h : sim.Agree Γ m₁ m₂) :
    sim.Answers Γ (m₁.give .null).value (m₂.give .null).value :=
  answers_give (h.plain .null)

theorem answers_fail (h : sim.Agree Γ m₁ m₂) (cause : ErrorCause) :
    sim.Answers Γ (m₁.fail cause).value (m₂.fail cause).value :=
  .inr ⟨_, .failed (sim.like.ofCause cause), h⟩

theorem answers_excused {cause : ErrorCause} (h : sim.Excuses cause) (a₂ : Answer ω₂) :
    sim.Answers Γ (m₁.fail cause).value a₂ :=
  .inl ⟨_, rfl, h⟩

theorem answers_pair {c₁ c₂ : Completion} {Δ : Context} (hp : Completion.Pair sim.like c₁ c₂ Δ)
    (h : sim.Agree (Δ ++ Γ) m₁ m₂) :
    sim.Answers Γ (Deferred.done (c₁, m₁)).value (Deferred.done (c₂, m₂)).value :=
  .inr ⟨Δ, hp, h⟩

theorem answers_finish {r₁ r₂ : Except ErrorCause Value} (h : sim.Agree Γ m₁ m₂)
    (hr : Corresponds (fun _ => False)
      (fun v w => sim.Rel (.value v w :: Γ) m₁.store m₁.world m₂.store m₂.world) r₁ r₂) :
    sim.Answers Γ (m₁.finish r₁).value (m₂.finish r₂).value := by
  cases hr with
  | ok hv => exact answers_give ⟨h.line, h.callDepth, hv⟩
  | error cause => exact answers_fail h cause
  | excused hf => exact hf.elim

/-- Results that are the same and plain. -/
theorem answers_finish_plain {r : Except ErrorCause Value} (h : sim.Agree Γ m₁ m₂)
    (hr : ∀ v, r = .ok v → sim.like.Plain v) :
    sim.Answers Γ (m₁.finish r).value (m₂.finish r).value := by
  cases r with
  | ok v => exact answers_give (h.plain (hr v rfl))
  | error cause => exact answers_fail h cause

/-! ## Composition -/

theorem answers_seq {d₁ : Deferred (Answer ω₁)} {d₂ : Deferred (Answer ω₂)}
    {r₁ : Answer ω₁ → Deferred (Answer ω₁)} {r₂ : Answer ω₂ → Deferred (Answer ω₂)}
    (h : sim.Answers Γ' d₁.value d₂.value)
    (hf : ∀ e m, sim.Excuses e.cause → sim.Excused (r₁ (.failed e, m)).value.1)
    (hr : ∀ {c₁ c₂ Δ m₁ m₂}, Completion.Pair sim.like c₁ c₂ Δ → sim.Agree (Δ ++ Γ') m₁ m₂ →
      sim.Answers Γ (r₁ (c₁, m₁)).value (r₂ (c₂, m₂)).value) :
    sim.Answers Γ (Deferred.seq d₁ r₁).value (Deferred.seq d₂ r₂).value := by
  rw [Deferred.value_seq, Deferred.value_seq]
  obtain ⟨e, he, hx⟩ | ⟨Δ, hp, ha⟩ := h
  · left
    have heq : d₁.value = (.failed e, d₁.value.2) := Prod.ext he rfl
    rw [heq]
    exact hf e _ hx
  · exact hr hp ha

/-- The first evaluation may hold more than is left to hold at the end. -/
theorem answers_thenValue_of_subset {d₁ : Deferred (Answer ω₁)} {d₂ : Deferred (Answer ω₂)}
    {r₁ : Value → Machine ω₁ → Deferred (Answer ω₁)}
    {r₂ : Value → Machine ω₂ → Deferred (Answer ω₂)} (hs : Γ ⊆ Γ')
    (h : sim.Answers Γ' d₁.value d₂.value)
    (hr : ∀ {v w m₁ m₂}, sim.Agree (.value v w :: Γ') m₁ m₂ →
      sim.Answers Γ (r₁ v m₁).value (r₂ w m₂).value) :
    sim.Answers Γ (d₁.thenValue r₁).value (d₂.thenValue r₂).value := by
  refine answers_seq h (fun e m hx => ⟨e, rfl, hx⟩) fun hp ha => ?_
  cases hp with
  | value v w => exact hr ha
  | returned v w => exact answers_pair (.returned v w) (ha.weaken (List.cons_subset_cons _ hs))
  | broke => exact answers_pair .broke (ha.weaken hs)
  | continued => exact answers_pair .continued (ha.weaken hs)
  | failed he => exact answers_pair (.failed he) (ha.weaken hs)
  | panicked hp => exact answers_pair (.panicked hp) (ha.weaken hs)
  | exhausted => exact answers_pair .exhausted (ha.weaken hs)

theorem answers_thenValue {d₁ : Deferred (Answer ω₁)} {d₂ : Deferred (Answer ω₂)}
    {r₁ : Value → Machine ω₁ → Deferred (Answer ω₁)}
    {r₂ : Value → Machine ω₂ → Deferred (Answer ω₂)} (h : sim.Answers Γ d₁.value d₂.value)
    (hr : ∀ {v w m₁ m₂}, sim.Agree (.value v w :: Γ) m₁ m₂ →
      sim.Answers Γ (r₁ v m₁).value (r₂ w m₂).value) :
    sim.Answers Γ (d₁.thenValue r₁).value (d₂.thenValue r₂).value :=
  answers_thenValue_of_subset (List.Subset.refl Γ) h hr

theorem answers_map {d₁ : Deferred (Answer ω₁)} {d₂ : Deferred (Answer ω₂)}
    {f₁ : Answer ω₁ → Answer ω₁} {f₂ : Answer ω₂ → Answer ω₂}
    (h : sim.Answers Γ d₁.value d₂.value)
    (hf : ∀ e m, sim.Excuses e.cause → sim.Excused (f₁ (.failed e, m)).1)
    (hr : ∀ {c₁ c₂ Δ m₁ m₂}, Completion.Pair sim.like c₁ c₂ Δ → sim.Agree (Δ ++ Γ) m₁ m₂ →
      sim.Answers Γ' (f₁ (c₁, m₁)) (f₂ (c₂, m₂))) :
    sim.Answers Γ' (d₁.map f₁).value (d₂.map f₂).value := by
  rw [Deferred.value_map, Deferred.value_map]
  obtain ⟨e, he, hx⟩ | ⟨Δ, hp, ha⟩ := h
  · left
    have heq : d₁.value = (.failed e, d₁.value.2) := Prod.ext he rfl
    rw [heq]
    exact hf e _ hx
  · exact hr hp ha

/-- An evaluation in a new scope. The scope is held while the body runs and left after it, with
what the body's completion carries still held. -/
theorem answers_within {s : ScopeId} {body₁ : ScopeId → Machine ω₁ → Deferred (Answer ω₁)}
    {body₂ : ScopeId → Machine ω₂ → Deferred (Answer ω₂)} (h : sim.Agree Γ m₁ m₂)
    (hs : sim.Holds Γ s)
    (hb : ∀ {s m₁ m₂}, sim.Open s → sim.Agree (.scope s :: Γ) m₁ m₂ →
      sim.Answers (.scope s :: Γ) (body₁ s m₁).value (body₂ (sim.twin s) m₂).value) :
    sim.Answers Γ (S₁.within (sim.leftHeld Γ) s m₁ body₁).value
      (S₂.within (sim.rightHeld Γ) (sim.twin s) m₂ body₂).value := by
  obtain ⟨hid, hnew, hrel⟩ := sim.child h.rel hs
  rw [Setting.within_eq, Setting.within_eq, hid]
  refine answers_map (hb (sim.open_of_new hnew) (h.withStore hrel))
    (fun e m hx => ⟨e, rfl, hx⟩) fun hp ha => ?_
  refine .inr ⟨_, hp, ha.line, ha.callDepth, ?_⟩
  have hl := hp.left_eq sim.left Γ
  have hr := hp.right_eq sim.twin sim.right Γ
  simp only [Setting.leaveScope, leftHeld, rightHeld, hl, hr]
  refine sim.leave hnew (sim.weaken (fun x hx => ?_) ha.rel)
  simp only [List.mem_cons, List.mem_append] at hx ⊢
  tauto

end Simulation

end Treewalk
