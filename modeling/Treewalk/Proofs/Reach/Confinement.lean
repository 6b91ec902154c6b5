import Treewalk.Proofs.Reach.Realm
import Treewalk.Proofs.Simulation.Exec
import Treewalk.Proofs.Value.Keyed

/-!
# Evaluations confined to a realm

An evaluation that starts in a realm stays in it: what it looks up, binds, makes and gives is of
the realm, because every primitive operation keeps the store closed and all handles of evaluations
in progress inside. A confinement is a realm of a setting together with whatever else is kept as
long as only the realm is touched.

It is a simulation of the setting by itself: the context of a simulation is where the handles in
progress are known.

* `Confinement.confines_exec`: evaluators keep to every confinement.
* `Confinement.Confines.ends` for nodes, `Confinement.Confines.ends_callValue` for calls from the
  host.
-/

namespace Treewalk

/-- A realm, and a property of stores and worlds that operations inside the realm keep. -/
structure Confinement {ω : Type} (S : Setting ω) (R : Realm) where
  Also : Store → ω → Prop
  leave_cases : ∀ outside s σ, S.leave outside s σ = σ.discard s ∨ S.leave outside s σ = σ
  good_of_isKeyed {t : Table Binding} : t.IsKeyed S.config.objectCapacity → R.Good t
  child {σ : Store} {w : ω} {s : ScopeId} : R.Closed σ → Also σ w →
    R.Inside σ.scopes.size s → Also (σ.child s).2 w
  discard {σ : Store} {w : ω} {s : ScopeId} : R.Closed σ → Also σ w → R.base ≤ s.index →
    Also (σ.discard s) w
  declare {σ σ' : Store} {w : ω} {s : ScopeId} {name : String} {v : Value} {isConst : Bool}
    {b : Binding} : R.Closed σ → Also σ w → R.Inside σ.scopes.size s →
      σ.declare s name v isConst = .ok (b, σ') → Also σ' w
  assign {σ σ' : Store} {w : ω} {s : ScopeId} {name : String} {v : Value} {b : Binding} :
    R.Closed σ → Also σ w → R.Inside σ.scopes.size s → σ.assign s name v = .ok (b, σ') → Also σ' w
  number {σ : Store} {w : ω} (next : Nat) : Also σ w → Also { σ with nextObject := next } w
  call {σ : Store} {w : ω} {s : ScopeId} {args : List Value} (f : NativeFunction) : R.Closed σ →
    Also σ w → R.Inside σ.scopes.size s → (∀ v ∈ args, R.Fits σ.scopes.size v) →
      let r := S.host.call f args s σ w
      σ.scopes.size ≤ r.2.1.scopes.size ∧ R.Closed r.2.1 ∧ Also r.2.1 r.2.2 ∧
        ∀ v, r.1 = .ok v → R.Fits r.2.1.scopes.size v

namespace Confinement

variable {ω : Type} {S : Setting ω} {R : Realm} (C : Confinement S R)

/-- Whether a store, a world and all that evaluations in progress hold are in the realm. -/
structure Keeps (Γ : Context) (σ : Store) (w : ω) : Prop where
  closed : R.Closed σ
  also : C.Also σ w
  scopes : ∀ s, .scope s ∈ Γ → R.Inside σ.scopes.size s
  values : ∀ u v, .value u v ∈ Γ → u = v ∧ R.Fits σ.scopes.size u

namespace Keeps

variable {C} {Γ Γ' : Context} {σ σ' : Store} {w w' : ω} {s : ScopeId} {v : Value}

theorem same (h : C.Keeps Γ σ w) : Γ.Same := fun u v hm => (h.values u v hm).1

theorem weaken (h : C.Keeps Γ σ w) (hs : Γ' ⊆ Γ) : C.Keeps Γ' σ w :=
  ⟨h.closed, h.also, fun s hm => h.scopes s (hs hm), fun u v hm => h.values u v (hs hm)⟩

/-- A step to a store with no fewer scopes. -/
theorem step (h : C.Keeps Γ σ w) (hn : σ.scopes.size ≤ σ'.scopes.size) (hc : R.Closed σ')
    (ha : C.Also σ' w') : C.Keeps Γ σ' w' :=
  ⟨hc, ha, fun s hm => (h.scopes s hm).mono hn,
    fun u v hm => ⟨(h.values u v hm).1, (h.values u v hm).2.mono hn⟩⟩

theorem value (h : C.Keeps Γ σ w) (hv : R.Fits σ.scopes.size v) :
    C.Keeps (.value v v :: Γ) σ w := by
  refine ⟨h.closed, h.also, fun s hm => ?_, fun u u' hm => ?_⟩
  · cases hm with
    | tail _ hm => exact h.scopes s hm
  · cases hm with
    | head => exact ⟨rfl, hv⟩
    | tail _ hm => exact h.values u u' hm

theorem scope (h : C.Keeps Γ σ w) (hs : R.Inside σ.scopes.size s) :
    C.Keeps (.scope s :: Γ) σ w := by
  refine ⟨h.closed, h.also, fun t hm => ?_, fun u v hm => ?_⟩
  · cases hm with
    | head => exact hs
    | tail _ hm => exact h.scopes t hm
  · cases hm with
    | tail _ hm => exact h.values u v hm

/-- What is held is inside. -/
theorem inside (h : C.Keeps Γ σ w) (hs : Γ.Holds (· ∈ R.region) s) :
    R.Inside σ.scopes.size s := by
  obtain hr | hm | ⟨f, _, hm, rfl⟩ := hs
  · exact .inl hr
  · exact h.scopes s hm
  · exact (h.values _ _ hm).2.inside _ (List.mem_singleton.2 rfl)

theorem child (h : C.Keeps Γ σ w) (hs : R.Inside σ.scopes.size s) :
    R.base ≤ (σ.child s).1.index ∧ C.Keeps (.scope (σ.child s).1 :: Γ) (σ.child s).2 w := by
  have hsize : (σ.child s).2.scopes.size = σ.scopes.size + 1 := Store.size_add ..
  have hid : (σ.child s).1.index = σ.scopes.size := rfl
  have hbase : R.base ≤ (σ.child s).1.index := h.closed.base_le
  refine ⟨hbase, (h.step (by omega) (h.closed.child hs) (C.child h.closed h.also hs)).scope ?_⟩
  exact .inr ⟨hbase, by omega⟩

theorem leave (h : C.Keeps Γ σ w) (hs : R.base ≤ s.index) (outside : List Held) :
    C.Keeps Γ (S.leave outside s σ) w := by
  obtain he | he := C.leave_cases outside s σ
  · rw [he]
    exact h.step (Store.size_discard ..).ge (h.closed.discard s) (C.discard h.closed h.also hs)
  · rwa [he]

theorem declare (h : C.Keeps Γ σ w) (hs : R.Inside σ.scopes.size s)
    (hv : R.Fits σ.scopes.size v) {name : String} {isConst : Bool} {b : Binding}
    (hd : σ.declare s name v isConst = .ok (b, σ')) : C.Keeps Γ σ' w :=
  h.step (Store.size_of_declare hd).ge (h.closed.declare hv hd) (C.declare h.closed h.also hs hd)

theorem assign (h : C.Keeps Γ σ w) (hs : R.Inside σ.scopes.size s)
    (hv : R.Fits σ.scopes.size v) {name : String} {b : Binding}
    (ha : σ.assign s name v = .ok (b, σ')) : C.Keeps Γ σ' w :=
  h.step (Store.size_of_assign ha).ge (h.closed.assign hv ha) (C.assign h.closed h.also hs ha)

theorem number (h : C.Keeps Γ σ w) (next : Nat) : C.Keeps Γ { σ with nextObject := next } w :=
  h.step (Nat.le_refl _) (h.closed.number next) (C.number next h.also)

end Keeps

/-- The setting and itself, with the handles in progress in the realm. -/
def simulation (held : Held) : Simulation S S where
  like := .same
  twin s := s
  left := held
  right := held
  Around s := s ∈ R.region
  Rel Γ σ₁ w₁ σ₂ w₂ := σ₁ = σ₂ ∧ w₁ = w₂ ∧ C.Keeps Γ σ₁ w₁
  Excuses _ := False
  Open _ := True
  Callable _ := True
  New s := R.base ≤ s.index
  Tables t u := t = u ∧ t.IsKeyed S.config.objectCapacity
  loopVariable_eq := S.loopVariable_refl
  maxCallDepth_le := S.maxCallDepth_refl
  excuses_of_lt := S.maxCallDepth_irrefl
  open_of_new _ := trivial
  callable_of_open _ := trivial
  weaken hs := fun ⟨h₁, h₂, h⟩ => ⟨h₁, h₂, h.weaken hs⟩
  alike := fun ⟨_, _, h⟩ hm => by
    rw [h.same _ _ hm]
    exact .refl_same _
  closure := fun ⟨_, _, h⟩ hm => by
    obtain rfl := Value.function.inj (h.same _ _ hm)
    rfl
  plain := fun ⟨h₁, h₂, h⟩ hv => ⟨h₁, h₂, h.value (.plain hv.isPlain)⟩
  function := fun ⟨h₁, h₂, h⟩ hcode hs _ name => by
    obtain rfl := hcode.eq
    exact ⟨h₁, h₂, h.value (.function (h.inside hs))⟩
  property := fun {_ _ _ _ _ i j t u} ⟨h₁, h₂, h⟩ hm key => by
    obtain ⟨he, hf⟩ := h.values _ _ hm
    obtain ⟨-, rfl⟩ := Value.object.inj he
    cases hb : t.get? key with
    | none => exact .none
    | some b => exact .some ⟨h₁, h₂, h.value (hf.of_mem_values (Table.mem_values_of_get? hb))⟩
  resolve := fun {_ σ _ _ _ s} ⟨h₁, h₂, h⟩ hs name => by
    subst h₁
    cases hb : σ.resolve s name with
    | none => exact .none
    | some b => exact .some ⟨rfl, rfl, h₂, h.value (h.closed.fits_resolve (h.inside hs) hb)⟩
  child := fun ⟨h₁, h₂, h⟩ hs => by
    subst h₁
    obtain ⟨hn, hk⟩ := h.child (h.inside hs)
    exact ⟨rfl, hn, rfl, h₂, hk⟩
  leave := fun {Γ} _ _ _ _ s hn ⟨h₁, h₂, h⟩ => by
    have h : C.Keeps Γ _ _ := h.weaken (List.subset_cons_self _ _)
    subst h₁ h₂
    rw [h.same.left_eq_right]
    exact ⟨rfl, rfl, h.leave hn _⟩
  declare := fun {_ σ _ _ _ s u v} ⟨h₁, h₂, h⟩ hm hs _ name isConst => by
    subst h₁
    obtain ⟨rfl, hf⟩ := h.values _ _ hm
    cases hd : σ.declare s name u isConst with
    | error cause => exact .error cause
    | ok p => exact .ok ⟨rfl, h₂, h.declare (h.inside hs) hf hd⟩
  assign := fun {_ σ _ _ _ s u v} ⟨h₁, h₂, h⟩ hm hs name => by
    subst h₁
    obtain ⟨rfl, hf⟩ := h.values _ _ hm
    cases ha : σ.assign s name u with
    | error fault => exact .error fault
    | ok p => exact .ok ⟨rfl, h₂, h.assign (h.inside hs) hf ha⟩
  copy := fun ⟨h₁, h₂, h⟩ hm => by
    subst h₁
    obtain ⟨rfl, hf⟩ := h.values _ _ hm
    exact ⟨rfl, h₂, (h.number _).value (hf.copy _)⟩
  tables_empty := ⟨rfl, Table.isKeyed_withCapacity _⟩
  tables_set := fun {_ _ _ _ _ t u v w} ⟨_, _, h⟩ hm ⟨ht, hk⟩ _ _ key isConst => by
    subst ht
    obtain rfl := h.same _ _ hm
    cases hs : t.set? key ⟨key, isConst, v⟩ with
    | none => exact .inr ⟨rfl, .inr ⟨rfl, rfl⟩⟩
    | some p => exact .inl ⟨p.1, p.1, p.2, p.2, rfl, rfl, rfl, hk.set hs rfl⟩
  object := fun {_ _ _ _ _ t u} ⟨h₁, h₂, h⟩ ⟨ht, hk⟩ hw _ hget => by
    subst h₁ ht
    refine ⟨rfl, h₂, (h.number _).value (.object (C.good_of_isKeyed hk) fun v hv => ?_)⟩
    obtain ⟨key, b, hb, rfl⟩ := hw.mem_values.1 hv
    have hm := hget key
    rw [hb] at hm
    cases hm with
    | some hm => exact (h.values _ _ hm).2
  call := fun {_ σ₁ w₁ _ _ s args args'} f ⟨h₁, h₂, h⟩ hargs hs _ => by
    subst h₁ h₂
    obtain rfl : args = args' := by
      rw [← List.forall₂_eq_eq_eq]
      exact hargs.imp fun v w hm => h.same v w hm
    have hfits : ∀ v ∈ args, R.Fits σ₁.scopes.size v := fun v hv =>
      (h.values _ _ (List.forall₂_same.1 hargs v hv)).2
    obtain ⟨hn, hc, ha, hr⟩ := C.call f h.closed h.also (h.inside hs) hfits
    dsimp only
    generalize S.host.call f args s σ₁ w₁ = r at hn hc ha hr ⊢
    obtain ⟨_ | v, σ, w⟩ := r
    · exact .inl ⟨_, rfl, .inr ⟨_, rfl, rfl, rfl, rfl, h.step hn hc ha⟩⟩
    · exact .inr ⟨v, v, rfl, rfl, rfl, rfl, (h.step hn hc ha).value (hr v rfl)⟩

variable {C} {m : Machine ω} {env : ScopeId} {Γ : Context}

/-- What an evaluation that ends leaves in the realm. -/
structure Ends (a : Answer ω) : Prop where
  closed : R.Closed a.2.store
  also : C.Also a.2.store a.2.world
  fits : ∀ v ∈ a.1.values, R.Fits a.2.store.scopes.size v

theorem ends_of_answers {held : Held} {a₁ a₂ : Answer ω}
    (h : (C.simulation held).Answers Γ a₁ a₂) : C.Ends a₁ := by
  obtain ⟨e, -, hx⟩ | ⟨Δ, hp, ha⟩ := h
  · exact hx.elim
  · obtain ⟨-, -, hk⟩ := ha.rel
    refine ⟨hk.closed, hk.also, ?_⟩
    generalize a₁.1 = c₁ at hp
    generalize a₂.1 = c₂ at hp
    cases hp with
    | value v w | returned v w =>
      exact List.forall_mem_singleton.2 (hk.values v w List.mem_cons_self).2
    | _ => exact fun v hv => (List.not_mem_nil hv).elim

theorem agree_nil (held : Held) (hc : R.Closed m.store) (ha : C.Also m.store m.world) :
    (C.simulation held).Agree [] m m :=
  ⟨rfl, rfl, rfl, rfl, hc, ha, fun _ hm => (List.not_mem_nil hm).elim,
    fun _ _ hm => (List.not_mem_nil hm).elim⟩

/-- Whether an evaluator keeps to a confinement, with whatever handles are held around. -/
def Confines (ev : Evaluator ω) : Prop := ∀ held, (C.simulation held).Follows ev ev

theorem confines_exec (fuel : Nat) : C.Confines (S.exec fuel) :=
  fun held => Simulation.follows_exec (C.simulation held) fuel

variable {ev : Evaluator ω}

/-- Evaluations in a scope of the realm stay in it. -/
theorem Confines.ends (hev : C.Confines ev) (hc : R.Closed m.store) (ha : C.Also m.store m.world)
    (hs : env ∈ R.region) (held : Held) (n : Node) : C.Ends (ev held n env m).value :=
  ends_of_answers (hev held (n := n) rfl (agree_nil held hc ha) (.inl hs) (.inl trivial))

/-- Old values of the realm may be held at any time. -/
theorem admits {v : Value} (held : Held) (hv : R.Fits R.base v) :
    (C.simulation held).Admits Γ v v := by
  rintro Γ' σ₁ w₁ σ₂ w₂ - ⟨h₁, h₂, h⟩
  exact ⟨h₁, h₂, h.value (hv.mono h.closed.base_le)⟩

/-- Calls of old values of the realm stay in it. -/
theorem Confines.ends_callValue (hev : C.Confines ev) (hc : R.Closed m.store)
    (ha : C.Also m.store m.world) (hs : env ∈ R.region) {callee : Value}
    (hcallee : R.Fits R.base callee) {args : List Value} (hargs : ∀ v ∈ args, R.Fits R.base v)
    (held : Held) : C.Ends (S.callValue ev held callee args env m).value := by
  cases callee with
  | native f =>
    obtain ⟨-, hc', ha', hv⟩ := C.call f hc ha (.inl hs) fun v hv => (hargs v hv).mono hc.base_le
    rw [Setting.callValue, Setting.callNative]
    generalize S.host.call f args env m.store m.world = r at hc' ha' hv ⊢
    obtain ⟨_ | v, σ, w⟩ := r
    · exact ⟨hc', ha', fun v hv => (List.not_mem_nil hv).elim⟩
    · exact ⟨hc', ha', List.forall_mem_singleton.2 (hv v rfl)⟩
  | function f =>
    have hf : f.scope ∈ R.region := by
      obtain hr | ⟨hb, hlt⟩ := hcallee.inside f.scope (List.mem_singleton.2 rfl)
      · exact hr
      · omega
    have hvs : List.Forall₂ (fun v w => (C.simulation held).Admits [] v w) args args :=
      List.forall₂_same.2 fun v hv => admits held (hargs v hv)
    have ha := Simulation.answers_callClosure (hev held) rfl rfl
      (Likeness.Closures.refl_same f).code (agree_nil held hc ha) (.inl hf) hvs
    exact ends_of_answers ha
  | _ => exact ⟨hc, ha, fun v hv => (List.not_mem_nil hv).elim⟩

end Confinement

end Treewalk
