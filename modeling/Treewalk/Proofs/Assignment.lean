import Treewalk.Proofs.Frame
import Treewalk.Proofs.Scope.Lexical
import Treewalk.Proofs.Trace.Course

/-!
# Rejected assignments

The target of an assignment is checked, then the value is evaluated, then the target is checked
again by the write. A target that the first check rejects costs nothing. The value may change what
the second check sees, since declarations are expressions: if it makes a constant of the target's
name in the scope of the assignment, the write fails after the value was evaluated. It is the only
way, as long as natives bind constants in no other scopes (`Host.BindsConstantsLocally`).

* `Store.assign_of_targetFault?` and `Store.assign_of_targetFault?_eq_none`: writing fails for the
  faults that the check finds.
* `constantsInvariant`: evaluations make constants in the scope at hand and in new scopes only.
* `assignment_fails_after_value`: an assignment that fails after its value.

Main statement: `assignment_rejected`, when assignments fail, and what has happened then.
-/

namespace Treewalk

/-! ## The check of a target -/

namespace Store

variable {σ σ₀ σ₁ σ₂ σ' : Store} {s t env : ScopeId} {x : String} {v : Value}

/-- Why a target cannot be assigned to from a scope, if it cannot. -/
def targetFault? (σ : Store) (env : ScopeId) : NodeKind → Option ErrorCause
  | .identifier x =>
    match σ.resolve env x with
    | none => some (.undefinedIdentifier x)
    | some b => if b.isConst then some (.constReassignment x) else none
  | kind => some (.invalidAssignmentTarget kind.name)

/-- A name without fault as a target has a variable for its nearest binding. -/
theorem targetFault?_identifier_eq_none :
    σ.targetFault? env (.identifier x) = none ↔
      ∃ b, σ.resolve env x = some b ∧ b.isConst = false := by
  rw [targetFault?]
  cases σ.resolve env x with
  | none => simp
  | some b => cases hb : b.isConst <;> simp [hb]

/-- The owner of a name has its nearest binding in a slot. -/
theorem exists_locate?_of_resolve {b : Binding} (h : σ.resolve env x = some b) :
    ∃ t i, σ.owner? env x = some t ∧ (σ.bindings t).locate? x = some (i, b) := by
  rw [resolve_eq_bind, Option.bind_eq_some_iff] at h
  obtain ⟨t, ho, hb⟩ := h
  obtain ⟨⟨i, c⟩, hl, rfl⟩ := Option.map_eq_some_iff.1 hb
  exact ⟨t, i, ho, hl⟩

/-- A write fails for the fault of its target. -/
theorem assign_of_targetFault? {cause : ErrorCause}
    (h : σ.targetFault? env (.identifier x) = some cause) (v : Value) :
    ∃ fault, σ.assign env x v = .error fault ∧ fault.cause x = cause := by
  rw [targetFault?] at h
  cases hr : σ.resolve env x with
  | none =>
    rw [hr] at h
    cases h
    exact ⟨.undefined, assign_of_resolve_eq_none hr v, rfl⟩
  | some b =>
    obtain ⟨t, i, ho, hl⟩ := exists_locate?_of_resolve hr
    rw [hr] at h
    obtain ⟨hc, h⟩ := Option.ite_none_right_eq_some.1 h
    refine ⟨.const, ?_, Option.some.inj h⟩
    unfold assign
    simp only [ho, hl, hc, if_true]

/-- A write to a target without fault succeeds. -/
theorem assign_of_targetFault?_eq_none (h : σ.targetFault? env (.identifier x) = none)
    (v : Value) : ∃ b σ', σ.assign env x v = .ok (b, σ') ∧ b.value = v := by
  obtain ⟨b, hb, hc⟩ := targetFault?_identifier_eq_none.1 h
  obtain ⟨t, i, ho, hl⟩ := exists_locate?_of_resolve hb
  refine ⟨b.withValue v, σ.place t (.overwritten, i) x (b.withValue v), ?_, rfl⟩
  unfold assign
  simp only [ho, hl, hc, Bool.false_eq_true, if_false]

/-! ## Where constants are made -/

/-- The stores that can be reached from a store by binding constants in one scope or in new ones
and variables in any, by assigning, and by making scopes and objects. -/
inductive BindsConstantsIn (s : ScopeId) (σ : Store) : Store → Prop
  | refl : BindsConstantsIn s σ σ
  | declare {σ₁ σ₂ : Store} {t : ScopeId} {name : String} {v : Value} {isConst : Bool}
    {b : Binding} (h : BindsConstantsIn s σ σ₁)
    (ht : isConst = true → t = s ∨ σ.scopes.size ≤ t.index)
    (hd : σ₁.declare t name v isConst = .ok (b, σ₂)) : BindsConstantsIn s σ σ₂
  | assign {σ₁ σ₂ : Store} {t : ScopeId} {name : String} {v : Value} {b : Binding}
    (h : BindsConstantsIn s σ σ₁) (ha : σ₁.assign t name v = .ok (b, σ₂)) :
    BindsConstantsIn s σ σ₂
  | add {σ₁ : Store} (h : BindsConstantsIn s σ σ₁) (capacity : Nat) (parent : Option ScopeId)
    (childCapacity : Nat) : BindsConstantsIn s σ (σ₁.add capacity parent childCapacity).2
  | number {σ₁ : Store} (h : BindsConstantsIn s σ σ₁) (next : Nat) :
    BindsConstantsIn s σ { σ₁ with nextObject := next }

/-- What is kept of a store when constants are made in one scope and in new ones only: no scope
loses a name, and the constants of the other scopes were constants before. -/
structure KeepsVariables (σ₀ : Store) (s : ScopeId) (σ : Store) : Prop where
  size_le : σ₀.scopes.size ≤ σ.scopes.size
  wellFormed : ∀ t, (σ.bindings t).WellFormed
  parent?_eq : ∀ t : ScopeId, t.index < σ₀.scopes.size → σ.parent? t = σ₀.parent? t
  contains : ∀ t : ScopeId, t.index < σ₀.scopes.size → ∀ x,
    (σ₀.bindings t).contains x = true → (σ.bindings t).contains x = true
  const : ∀ t : ScopeId, t.index < σ₀.scopes.size → t ≠ s → ∀ x b,
    (σ.bindings t).get? x = some b → b.isConst = true →
      ∃ b₀, (σ₀.bindings t).get? x = some b₀ ∧ b₀.isConst = true

namespace KeepsVariables

theorem refl (h : ∀ t, (σ.bindings t).WellFormed) (s : ScopeId) : σ.KeepsVariables s σ :=
  ⟨Nat.le_refl _, h, fun _ _ => rfl, fun _ _ _ h => h, fun _ _ _ _ b hb hc => ⟨b, hb, hc⟩⟩

/-- A binding is written: a constant in the scope or in a new one, or a variable. -/
theorem place (h : σ₀.KeepsVariables s σ) {p : Table.SetOutcome × Nat} {b : Binding}
    (hw : ((σ.bindings t).write p x b).WellFormed)
    (hget : ∀ y, ((σ.bindings t).write p x b).get? y =
      if x = y then some b else (σ.bindings t).get? y)
    (hb : b.isConst = true → t = s ∨ σ₀.scopes.size ≤ t.index) :
    σ₀.KeepsVariables s (σ.place t p x b) where
  size_le := by rw [size_place]; exact h.size_le
  wellFormed u := by
    rw [bindings_place]
    split
    · next hu => exact hu ▸ hw
    · exact h.wellFormed u
  parent?_eq u hu := by rw [parent?_place]; exact h.parent?_eq u hu
  contains u hu y hy := by
    have hy := h.contains u hu y hy
    rw [bindings_place]
    split
    · next htu =>
      subst htu
      rw [Table.contains_eq] at hy ⊢
      rw [hget]
      split
      · rfl
      · exact hy
    · exact hy
  const u hu hus y c hc hconst := by
    rw [bindings_place] at hc
    split at hc
    · next htu =>
      subst htu
      rw [hget] at hc
      split at hc
      · cases hc
        obtain hts | hle := hb hconst
        · exact absurd hts hus
        · omega
      · exact h.const t hu hus y c hc hconst
    · exact h.const u hu hus y c hc hconst

theorem declare {isConst : Bool} {b : Binding} (h : σ₀.KeepsVariables s σ)
    (ht : isConst = true → t = s ∨ σ₀.scopes.size ≤ t.index)
    (hd : σ.declare t x v isConst = .ok (b, σ')) : σ₀.KeepsVariables s σ' := by
  obtain ⟨-, p, hp, rfl⟩ := declare_eq_ok hd
  have hw := h.wellFormed t
  exact h.place (hw.place hp _) (hw.get?_place hp _) ht

theorem assign {b : Binding} (h : σ₀.KeepsVariables s σ)
    (ha : σ.assign t x v = .ok (b, σ')) : σ₀.KeepsVariables s σ' := by
  obtain ⟨u, i, old, -, hl, hc, -, rfl⟩ := assign_eq_ok ha
  obtain ⟨hi, hs⟩ := Table.locate?_eq_some.1 hl
  exact h.place ((h.wellFormed u).overwrite hs _)
    (Table.get?_overwrite (p := (.overwritten, i)) hi _)
    fun hconst => absurd (hc.symm.trans hconst) Bool.false_ne_true

theorem add (h : σ₀.KeepsVariables s σ) (capacity : Nat) (parent : Option ScopeId)
    (childCapacity : Nat) : σ₀.KeepsVariables s (σ.add capacity parent childCapacity).2 := by
  have hle := h.size_le
  have hold : ∀ t : ScopeId, t.index < σ₀.scopes.size →
      (σ.add capacity parent childCapacity).2.bindings t = σ.bindings t := by
    intro t ht
    rw [bindings_add, if_neg (by omega)]
  refine ⟨by rw [size_add]; omega, fun t => ?_, fun t ht => ?_, fun t ht => ?_, fun t ht => ?_⟩
  · rw [bindings_add]
    split
    · exact Table.wellFormed_withCapacity _
    · exact h.wellFormed t
  · rw [parent?_add, if_neg (by omega)]
    exact h.parent?_eq t ht
  · rw [hold t ht]
    exact h.contains t ht
  · rw [hold t ht]
    exact h.const t ht

theorem number (h : σ₀.KeepsVariables s σ) (next : Nat) :
    σ₀.KeepsVariables s { σ with nextObject := next } :=
  ⟨h.size_le, h.wellFormed, h.parent?_eq, h.contains, h.const⟩

theorem discard (h : σ₀.KeepsVariables s σ) (ht : σ₀.scopes.size ≤ t.index) :
    σ₀.KeepsVariables s (σ.discard t) := by
  have hold : ∀ u : ScopeId, u.index < σ₀.scopes.size →
      (σ.discard t).bindings u = σ.bindings u := by
    intro u hu
    rw [bindings_discard, if_neg (by rintro rfl; omega)]
  refine ⟨by rw [size_discard]; exact h.size_le, fun u => ?_, fun u hu => ?_, fun u hu => ?_,
    fun u hu => ?_⟩
  · rw [bindings_discard]
    split
    · exact Table.wellFormed_withCapacity _
    · exact h.wellFormed u
  · rw [parent?_discard]
    exact h.parent?_eq u hu
  · rw [hold u hu]
    exact h.contains u hu
  · rw [hold u hu]
    exact h.const u hu

theorem leave (h : σ₀.KeepsVariables s σ) (ht : σ₀.scopes.size ≤ t.index) (outside : List Held) :
    σ₀.KeepsVariables s (σ.leave outside t) := by
  obtain he | he := σ.leave_cases outside t
  · rw [he]
    exact h.discard ht
  · rwa [he]

theorem bindsConstantsIn (h : σ₀.KeepsVariables s σ) (hb : σ.BindsConstantsIn t σ')
    (ht : t = s ∨ σ₀.scopes.size ≤ t.index) : σ₀.KeepsVariables s σ' := by
  induction hb with
  | refl => exact h
  | @declare σ₁ σ₂ u name v isConst b _ hu hd ih =>
    refine ih.declare (fun hc => ?_) hd
    obtain rfl | hle := hu hc
    · exact ht
    · exact .inr (h.size_le.trans hle)
  | assign _ ha ih => exact ih.assign ha
  | add _ capacity parent childCapacity ih => exact ih.add capacity parent childCapacity
  | number _ next ih => exact ih.number next

theorem get?_eq_none (h : σ₀.KeepsVariables s σ) (ht : t.index < σ₀.scopes.size)
    (hn : (σ.bindings t).get? x = none) : (σ₀.bindings t).get? x = none := by
  have hcontains := h.contains t ht x
  rw [Table.contains_eq, Table.contains_eq, hn] at hcontains
  exact Option.not_isSome_iff_eq_none.1 fun hs => Bool.false_ne_true (hcontains hs)

/-- A variable that is found through scopes without new constants stays a variable. -/
theorem findSome?_get? (h : σ₀.KeepsVariables s σ) {chain : List ScopeId}
    (hold : ∀ t ∈ chain, t.index < s.index) (hs : s.index < σ₀.scopes.size) {b₀ : Binding}
    (hb : chain.findSome? (fun t => (σ₀.bindings t).get? x) = some b₀)
    (hc : b₀.isConst = false) :
    ∃ b, chain.findSome? (fun t => (σ.bindings t).get? x) = some b ∧ b.isConst = false := by
  induction chain with
  | nil => cases hb
  | cons t rest ih =>
    have ht : t.index < s.index := hold t List.mem_cons_self
    have hts : t ≠ s := by
      rintro rfl
      omega
    have hvariable : ∀ b, (σ.bindings t).get? x = some b → b.isConst = false := by
      intro b hget
      by_contra hconst
      obtain ⟨b', hget', hconst'⟩ :=
        h.const t (by omega) hts x b hget (by simpa using hconst)
      rw [List.findSome?_cons, hget'] at hb
      cases hb
      simp [hc] at hconst'
    rw [List.findSome?_cons] at hb ⊢
    cases hget : (σ.bindings t).get? x with
    | some b => exact ⟨b, rfl, hvariable b hget⟩
    | none =>
      rw [h.get?_eq_none (by omega) hget] at hb
      exact ih (fun u hu => hold u (List.mem_cons_of_mem t hu)) hb

/-- A name that could be assigned from a scope has a fault there only if the scope has got a
constant of that name. -/
theorem targetFault?_eq_some_iff (h : σ₀.KeepsVariables s σ) (hs : s.index < σ₀.scopes.size)
    (h₀ : σ₀.targetFault? s (.identifier x) = none) (cause : ErrorCause) :
    σ.targetFault? s (.identifier x) = some cause ↔
      cause = .constReassignment x ∧ ∃ b, σ.Declares s x b ∧ b.isConst = true := by
  obtain ⟨b₀, hb₀, hc₀⟩ := targetFault?_identifier_eq_none.1 h₀
  obtain ⟨rest, hrest, hold⟩ := σ₀.exists_chain_eq_cons s
  have hchain : σ.chain s = s :: rest := by
    rw [← hrest]
    exact chain_congr (P := fun t => t.index < σ₀.scopes.size) h.parent?_eq
      (fun t p ht _ hlt => hlt.trans ht) hs
  have hdeclares : ∀ b, σ.Declares s x b ↔ (σ.bindings s).get? x = some b :=
    fun b => (h.wellFormed s).mem_entries
  simp only [hdeclares]
  rw [resolve, hrest, List.findSome?_cons] at hb₀
  rw [targetFault?, resolve, hchain, List.findSome?_cons]
  cases hget : (σ.bindings s).get? x with
  | some b =>
    dsimp only
    rw [Option.ite_none_right_eq_some, Option.some_inj, and_comm, eq_comm (a := cause)]
    simp
  | none =>
    rw [h.get?_eq_none hs hget] at hb₀
    obtain ⟨b, hb, hc⟩ := h.findSome?_get? hold hs hb₀ hc₀
    simp [hb, hc]

end KeepsVariables

end Store

/-- The natives of a host bind constants only in the scope that they are called from. Variables
they may bind anywhere. -/
def Host.BindsConstantsLocally {ω : Type} (host : Host ω) : Prop :=
  ∀ (f : NativeFunction) (args : List Value) (env : ScopeId) (σ : Store) (w : ω),
    σ.BindsConstantsIn env (host.call f args env σ w).2.1

/-- The natives of the workbench bind constants only where they are called; in the global scope
they bind variables. -/
theorem Workbench.Effect.bindsConstantsIn {isGlobal : Prop} {args : List Value} {env : ScopeId}
    {σ σ' : Store} {r : Except EvalError Value} (h : Effect isGlobal args env σ r σ') :
    σ.BindsConstantsIn env σ' := by
  cases h with
  | fail | give => exact .refl
  | declare hs _ hd =>
    exact .declare .refl (fun hc => .inl (hs.resolve_right fun h =>
      Bool.false_ne_true (h.2.2.symm.trans hc))) hd
  | assign _ ha => exact .assign .refl ha

theorem Workbench.bindsConstantsLocally : Workbench.host.BindsConstantsLocally :=
  fun f args env σ w => (effect_call f args env σ w).bindsConstantsIn

variable {ω : Type}

/-- Evaluations in a scope make constants there and in new scopes. -/
def constantsInvariant (config : Config) {host : Host ω} (h : host.BindsConstantsLocally)
    (σ₀ : Store) (s : ScopeId) : Invariant (Setting.releasing config host) where
  Kept σ _ := σ₀.KeepsVariables s σ
  Open t := t = s ∨ σ₀.scopes.size ≤ t.index
  New t := σ₀.scopes.size ≤ t.index
  open_of_new := .inr
  child _ hk := ⟨hk.size_le, hk.add ..⟩
  leave outside ht hk := hk.leave ht outside
  declare hk ht hd := hk.declare (fun _ => ht) hd
  assign hk ha := hk.assign ha
  number next hk := hk.number next
  call f args hk ht := hk.bindsConstantsIn (h f args _ _ _) ht

/-! ## Assignments -/

namespace Setting

variable {evaluate : Evaluator ω} {held : Held} {value : Node} {env : ScopeId} {m m' : Machine ω}
variable {x : String}

/-- A target with a fault is rejected whatever evaluates the value. -/
theorem value_assignment_of_targetFault? {target : NodeKind} {cause : ErrorCause}
    (h : m.store.targetFault? env target = some cause) (evaluate : Evaluator ω) (held : Held)
    (value : Node) : (assignment evaluate held target value env m).value = (.fail cause, m) := by
  cases target with
  | identifier x =>
    rw [Store.targetFault?] at h
    rw [assignment]
    cases hr : m.store.resolve env x with
    | none =>
      rw [hr] at h
      cases h
      rfl
    | some b =>
      rw [hr] at h
      obtain ⟨hc, hcause⟩ := Option.ite_none_right_eq_some.1 h
      cases hcause
      dsimp only
      rw [if_pos hc]
      rfl
  | _ =>
    cases h
    rfl

/-- A target without fault is a name, and what happens then is up to the value and the write. -/
theorem exists_value_assignment {target : NodeKind} (h : m.store.targetFault? env target = none)
    (evaluate : Evaluator ω) (held : Held) (value : Node) :
    let r := (evaluate held value env m).value
    let a := (assignment evaluate held target value env m).value
    ∃ x, target = .identifier x ∧ ((∀ v, r.1 ≠ .value v) → a = r) ∧ ∀ v, r.1 = .value v →
      (∀ b σ, r.2.store.assign env x v = .ok (b, σ) → a = (.value b.value, r.2.withStore σ)) ∧
      ∀ fault, r.2.store.assign env x v = .error fault → a = (.fail (fault.cause x), r.2) := by
  intro r a
  cases target with
  | identifier x =>
    obtain ⟨b, hb, hc⟩ := Store.targetFault?_identifier_eq_none.1 h
    have ha : a = (assignment evaluate held (.identifier x) value env m).value := rfl
    rw [assignment, hb] at ha
    dsimp only at ha
    rw [if_neg (by simp [hc]), Deferred.value_thenValue] at ha
    generalize hr : (evaluate held value env m).value = r' at ha
    obtain rfl : r = r' := hr
    obtain ⟨c, m'⟩ := r
    refine ⟨x, rfl, fun hc => ?_, fun v hv => ⟨fun b σ hassign => ?_, fun fault hassign => ?_⟩⟩
    · cases c with
      | value v => exact absurd rfl (hc v)
      | _ => exact ha
    · cases hv
      rw [ha]
      dsimp only
      rw [hassign]
      rfl
    · cases hv
      rw [ha]
      dsimp only
      rw [hassign]
      rfl
  | _ => cases h

end Setting

/-- **Rejected assignments.** A target that is no identifier, or a name that is not bound or bound
to a constant, is rejected before the value: nothing changes but the line, whatever the value is.
Else the value is evaluated, and what ends its evaluation without a value passes. When it has given
a value, the write is rejected if the target has become one of those above, and then nothing is
undone. If natives bind constants only where they are called, this happens exactly when the value
has made a constant of the name in the scope of the assignment, which had none. -/
theorem assignment_rejected (config : Config) (host : Host ω) (fuel : Nat) (held : Held)
    (target value : Node) (line : UInt32) (env : ScopeId) (m : Machine ω) :
    let S := Setting.releasing config host
    let a := (S.exec (fuel + 1) held ⟨.assignment target value, line⟩ env m).value
    let r := (S.exec fuel held value env { m with line }).value
    (∀ cause, m.store.targetFault? env target.kind = some cause →
      a = (.failed ⟨cause, some line⟩, { m with line })) ∧
    (m.store.targetFault? env target.kind = none →
      ((∀ v, r.1 ≠ .value v) → a = (r.1.atLine line, r.2)) ∧
      ∀ v, r.1 = .value v → ∃ x, target.kind = .identifier x ∧
        (r.2.store.targetFault? env target.kind = none → ∃ b σ,
          r.2.store.assign env x v = .ok (b, σ) ∧ a = (.value v, r.2.withStore σ)) ∧
        (∀ cause, r.2.store.targetFault? env target.kind = some cause →
          a = (.failed ⟨cause, some line⟩, r.2)) ∧
        (host.BindsConstantsLocally → env.index < m.store.scopes.size →
          (∀ s, (m.store.bindings s).WellFormed) → ∀ cause,
            (r.2.store.targetFault? env target.kind = some cause ↔
              cause = .constReassignment x ∧ ∃ b, r.2.store.Declares env x b ∧
                b.isConst = true))) := by
  intro S a r
  have ha : a = ((Setting.assignment (S.exec fuel) held target.kind value env
      { m with line }).value.1.atLine line, (Setting.assignment (S.exec fuel) held target.kind value
        env { m with line }).value.2) := rfl
  refine ⟨fun cause hc => ?_, fun hn => ?_⟩
  · rw [ha, Setting.value_assignment_of_targetFault? (m := { m with line }) hc]
    rfl
  obtain ⟨x, hx, hpass, hwrite⟩ := Setting.exists_value_assignment (m := { m with line }) hn
    (S.exec fuel) held value
  refine ⟨fun hc => ?_, fun v hv => ⟨x, hx, fun hn' => ?_, fun cause hf => ?_, fun hh hs hw => ?_⟩⟩
  · rw [ha, hpass hc]
  · rw [hx] at hn'
    obtain ⟨b, σ, hassign, rfl⟩ := Store.assign_of_targetFault?_eq_none hn' v
    refine ⟨b, σ, hassign, ?_⟩
    rw [ha, (hwrite _ hv).1 b σ hassign]
    rfl
  · rw [hx] at hf
    obtain ⟨fault, hassign, rfl⟩ := Store.assign_of_targetFault? hf v
    rw [ha, (hwrite _ hv).2 fault hassign]
    rfl
  · rw [hx] at hn ⊢
    have hk : m.store.KeepsVariables env r.2.store :=
      (constantsInvariant config hh m.store env).kept_exec (m := { m with line })
        (.refl hw env) (.inl rfl) fuel held value
    exact hk.targetFault?_eq_some_iff hs hn

/-- A variable is assigned the value of the declaration of a constant of its name: the target is
accepted and the value is evaluated, and then the write fails and the constant stays. -/
theorem assignment_fails_after_value :
    let S := Setting.releasing .standard Workbench.host
    let empty : Machine Workbench := ⟨(Store.empty.root 8 8).2, 0, 0, .ofSink .buffer⟩
    let init : Node := ⟨.declaration "x" false (some ⟨.string "a", 1⟩), 1⟩
    let constant : Node := ⟨.declaration "x" true (some ⟨.string "b", 2⟩), 2⟩
    let m := (S.exec 2 .empty init ⟨0⟩ empty).value.2
    let a := (S.exec 3 .empty ⟨.assignment ⟨.identifier "x", 2⟩ constant, 2⟩ ⟨0⟩ m).value
    m.store.targetFault? ⟨0⟩ (.identifier "x") = none ∧
      (∃ v, (S.exec 2 .empty constant ⟨0⟩ { m with line := 2 }).value.1 = .value v) ∧
      a.1 = .failed ⟨.constReassignment "x", some 2⟩ ∧
      (m.store.resolve ⟨0⟩ "x").bind (·.value.string?) = some "a" ∧
      (a.2.store.resolve ⟨0⟩ "x").bind (·.value.string?) = some "b" := by
  intro S empty init constant m a
  refine ⟨?_, Completion.exists_eq_value ?_, Completion.eq_failed_of_error? ?_, ?_, ?_⟩ <;>
    decide +kernel

/-- In that case the write fails for a constant in the scope of the assignment, and what the value
did stays. -/
theorem assignment_rejected_constant :
    let S := Setting.releasing .standard Workbench.host
    let empty : Machine Workbench := ⟨(Store.empty.root 8 8).2, 0, 0, .ofSink .buffer⟩
    let init : Node := ⟨.declaration "x" false (some ⟨.string "a", 1⟩), 1⟩
    let constant : Node := ⟨.declaration "x" true (some ⟨.string "b", 2⟩), 2⟩
    let m := (S.exec 2 .empty init ⟨0⟩ empty).value.2
    let r := (S.exec 2 .empty constant ⟨0⟩ { m with line := 2 }).value
    (S.exec 3 .empty ⟨.assignment ⟨.identifier "x", 2⟩ constant, 2⟩ ⟨0⟩ m).value =
        (.failed ⟨.constReassignment "x", some 2⟩, r.2) ∧
      ∃ b, r.2.store.Declares ⟨0⟩ "x" b ∧ b.isConst = true := by
  intro S empty init constant m r
  have hroot : empty.store.IsForest := Store.IsForest.empty.add 8 none 8 (by simp)
  have hk : empty.store.KeepsVariables ⟨0⟩ m.store :=
    (constantsInvariant .standard Workbench.bindsConstantsLocally empty.store ⟨0⟩).kept_exec
      (.refl hroot.wellFormed ⟨0⟩) (.inl rfl) 2 .empty init
  have hnone : m.store.targetFault? ⟨0⟩ (.identifier "x") = none := by decide +kernel
  have hfault : r.2.store.targetFault? ⟨0⟩ (.identifier "x") = some (.constReassignment "x") := by
    decide +kernel
  obtain ⟨v, hv⟩ : ∃ v, r.1 = .value v := Completion.exists_eq_value (by decide +kernel)
  clear_value m
  obtain ⟨-, h⟩ := assignment_rejected .standard Workbench.host 2 .empty ⟨.identifier "x", 2⟩
    constant 2 ⟨0⟩ m
  obtain ⟨x, hx, -, hfails, hconst⟩ := (h hnone).2 v hv
  cases hx
  have henv : 0 < m.store.scopes.size := Nat.lt_of_lt_of_le Nat.zero_lt_one hk.size_le
  exact ⟨hfails _ hfault,
    ((hconst Workbench.bindsConstantsLocally henv hk.wellFormed _).1 hfault).2⟩

end Treewalk
