import Treewalk.Proofs.Simulation.Basic
import Treewalk.Proofs.Value.Nesting

/-!
# What handles held outside the store lead to

A scope is a root of the handles held outside the store if one of them is to the scope itself or to
an object with a handle to it. One more scope or value held adds what it mentions:
`Held.isRoot_scope` and `Held.isRoot_value`. `Context.isRoot_left` collects this for all handles of
the evaluations in progress.
-/

namespace Treewalk

theorem Value.IsPlain.mentions_eq_false {v : Value} (h : v.IsPlain) (s : ScopeId) :
    v.mentions s = false := by
  cases v <;> first | rfl | exact h.elim

theorem Value.IsPlain.obeys {v : Value} (h : v.IsPlain) {T : ObjectId → Table Binding} {n : Nat} :
    v.Obeys T n :=
  obeys_of_type_ne (by cases v <;> first | exact h.elim | simp [Value.type])

namespace Held

variable {h : Held} {s t : ScopeId} {v : Value}

/-- Whether handles held outside the store lead to a scope directly. -/
def IsRoot (h : Held) (s : ScopeId) : Prop :=
  h.count s ≠ 0 ∨ ∃ v ∈ h.objectsFor s, v.mentions s = true

/-- The objects held outside the store obey a map from identities to tables. -/
def Obeys (T : ObjectId → Table Binding) (n : Nat) (h : Held) : Prop :=
  ∀ s, ∀ v ∈ h.objectsFor s, v.Obeys T n

theorem IsRoot.mentions (hr : h.IsRoot s) : h.mentions s = true := by
  rw [Held.mentions, Bool.or_eq_true]
  obtain hc | ⟨v, hv, -⟩ := hr
  · exact .inl (by simpa using hc)
  · right
    cases ho : h.objectsFor s with
    | nil => simp [ho] at hv
    | cons => rfl

@[simp] theorem objectsFor_empty (s : ScopeId) : empty.objectsFor s = [] := by
  simp [empty, objectsFor]

theorem not_isRoot_empty (s : ScopeId) : ¬empty.IsRoot s := by
  simp [IsRoot]

/-! ## One more handle -/

@[simp] theorem objectsFor_scope (h : Held) (s t : ScopeId) :
    (h.scope s).objectsFor t = h.objectsFor t := rfl

theorem objectsFor_objectFor (h : Held) (v : Value) (s t : ScopeId) :
    (h.objectFor v s).objectsFor t = if s = t then v :: h.objectsFor t else h.objectsFor t := by
  rw [objectFor, objectsFor, Std.TreeMap.getD_insert]
  simp only [Std.LawfulEqCmp.compare_eq_iff_eq]
  split
  · next hst => rw [hst]
  · rfl

theorem nodup_eraseDups : ∀ scopes : List ScopeId, scopes.eraseDups.Nodup
  | [] => List.nodup_nil
  | s :: rest => by
    rw [List.eraseDups_cons, List.nodup_cons]
    exact ⟨by simp [List.mem_eraseDups], nodup_eraseDups (rest.filter fun t => !t == s)⟩
termination_by scopes => scopes.length
decreasing_by
  have := List.length_filter_le (fun t => !t == s) rest
  simp only [List.length_cons]
  omega

theorem objectsFor_foldl (h : Held) (v : Value) {scopes : List ScopeId} (hn : scopes.Nodup)
    (t : ScopeId) :
    (scopes.foldl (fun h s => h.objectFor v s) h).objectsFor t =
      if t ∈ scopes then v :: h.objectsFor t else h.objectsFor t := by
  induction scopes generalizing h with
  | nil => simp
  | cons s rest ih =>
    obtain ⟨hs, hn⟩ := List.nodup_cons.1 hn
    rw [List.foldl_cons, ih _ hn, objectsFor_objectFor]
    by_cases hst : s = t
    · subst hst
      rw [if_neg hs, if_pos rfl, if_pos List.mem_cons_self]
    · have hmem : t ∈ s :: rest ↔ t ∈ rest := by
        rw [List.mem_cons, or_iff_right fun h => hst h.symm]
      rw [if_neg hst]
      simp only [hmem]

/-- Only objects are kept by the scopes that they mention. -/
theorem objectsFor_value (h : Held) (v : Value) (t : ScopeId) :
    (h.value v).objectsFor t =
      if v.type = .object ∧ v.mentions t = true then v :: h.objectsFor t
      else h.objectsFor t := by
  cases v with
  | object id properties =>
    rw [value, objectsFor_foldl h _ (nodup_eraseDups _)]
    simp [Value.type, Value.mentions_iff]
  | function f => simp [value, Value.type]
  | _ => simp [value, Value.type]

theorem isRoot_scope : (h.scope s).IsRoot t ↔ s = t ∨ h.IsRoot t := by
  rw [IsRoot, IsRoot, count_scope, objectsFor_scope]
  by_cases hst : s = t
  · simp [hst]
  · simp [hst]

theorem isRoot_value : (h.value v).IsRoot t ↔ v.mentions t = true ∨ h.IsRoot t := by
  cases v with
  | function f => rw [value, isRoot_scope, Value.mentions_function]
  | object id properties =>
    rw [IsRoot, IsRoot, count_value, objectsFor_value]
    simp only [Nat.add_zero, Value.type, true_and]
    split
    · next hm => simp [hm]
    · next hm => simp [hm]
  | _ => simp [value, Value.mentions, Value.scopes]

theorem mentions_value {h : Held} {v : Value} {t : ScopeId} :
    (h.value v).mentions t = true ↔ v.mentions t = true ∨ h.mentions t = true := by
  simp only [Held.mentions, Bool.or_eq_true, count_value, objectsFor_value]
  cases v with
  | function f =>
    by_cases hf : f.scope = t <;> simp [hf, Value.mentions_function, Value.type]
  | object id properties =>
    by_cases hm : (Value.object id properties).mentions t = true <;> simp [hm, Value.type]
  | _ => simp [Value.mentions, Value.scopes, Value.type]

theorem mentions_values {h : Held} {vs : List Value} {t : ScopeId} :
    (h.values vs).mentions t = true ↔ (∃ v ∈ vs, v.mentions t = true) ∨ h.mentions t = true := by
  induction vs generalizing h with
  | nil => simp [values]
  | cons v rest ih =>
    have hcons : h.values (v :: rest) = (h.value v).values rest := rfl
    rw [hcons, ih, mentions_value, List.exists_mem_cons_iff, or_left_comm, or_assoc]

variable {T : ObjectId → Table Binding} {n : Nat}

theorem Obeys.scope (ho : h.Obeys T n) (s : ScopeId) : (h.scope s).Obeys T n := ho

theorem Obeys.value (ho : h.Obeys T n) (hv : v.Obeys T n) : (h.value v).Obeys T n := by
  intro t w hw
  rw [objectsFor_value] at hw
  split at hw
  · rcases List.mem_cons.1 hw with rfl | hw
    · exact hv
    · exact ho t w hw
  · exact ho t w hw

theorem Obeys.mono {T' : ObjectId → Table Binding} {n' : Nat} (ho : h.Obeys T n)
    (hT : ∀ i : ObjectId, i.index < n → T' i = T i) (hn : n ≤ n') : h.Obeys T' n' :=
  fun t v hv => (ho t v hv).mono hT hn

end Held

/-! ## The handles of evaluations -/

namespace Context

variable {base : Held} {Γ : Context} {s t : ScopeId}

/-- Whether a scope is mentioned by a handle of the first evaluation. -/
def Mentions (Γ : Context) (t : ScopeId) : Prop :=
  .scope t ∈ Γ ∨ ∃ v w, .value v w ∈ Γ ∧ v.mentions t = true

theorem mentions_cons_scope : Mentions (.scope s :: Γ) t ↔ s = t ∨ Γ.Mentions t := by
  simp only [Mentions, List.mem_cons, Handle.scope.injEq, reduceCtorEq, false_or, or_assoc]
  rw [eq_comm]

theorem mentions_cons_value {v w : Value} :
    Mentions (.value v w :: Γ) t ↔ v.mentions t = true ∨ Γ.Mentions t := by
  simp only [Mentions, List.mem_cons, Handle.value.injEq, reduceCtorEq, false_or]
  constructor
  · rintro (hs | ⟨v', w', ⟨rfl, rfl⟩ | hm, ht⟩)
    · exact .inr (.inl hs)
    · exact .inl ht
    · exact .inr (.inr ⟨v', w', hm, ht⟩)
  · rintro (hv | hs | ⟨v', w', hm, ht⟩)
    · exact .inr ⟨v, w, .inl ⟨rfl, rfl⟩, hv⟩
    · exact .inl hs
    · exact .inr ⟨v', w', .inr hm, ht⟩

theorem Mentions.mono {Γ' : Context} (h : Γ ⊆ Γ') (hm : Γ.Mentions t) : Γ'.Mentions t := by
  obtain hs | ⟨v, w, hm, ht⟩ := hm
  · exact .inl (h hs)
  · exact .inr ⟨v, w, h hm, ht⟩

/-- The roots of the handles of evaluations: those below, and all that the handles mention. -/
theorem isRoot_left : (Γ.left base).IsRoot t ↔ base.IsRoot t ∨ Γ.Mentions t := by
  induction Γ with
  | nil => simp [left, Mentions]
  | cons x Γ ih =>
    cases x with
    | scope s =>
      have hx : (Context.left base (.scope s :: Γ)).IsRoot t ↔
          s = t ∨ (Context.left base Γ).IsRoot t := Held.isRoot_scope
      rw [hx, ih, mentions_cons_scope]
      tauto
    | value v w =>
      have hx : (Context.left base (.value v w :: Γ)).IsRoot t ↔
          v.mentions t = true ∨ (Context.left base Γ).IsRoot t := Held.isRoot_value
      rw [hx, ih, mentions_cons_value]
      tauto

theorem obeys_left {T : ObjectId → Table Binding} {n : Nat} (hb : base.Obeys T n)
    (hΓ : ∀ v w, .value v w ∈ Γ → v.Obeys T n) : (Γ.left base).Obeys T n := by
  induction Γ with
  | nil => exact hb
  | cons x Γ ih =>
    have ih := ih fun v w hm => hΓ v w (List.mem_cons_of_mem x hm)
    cases x with
    | scope s => exact ih.scope s
    | value v w => exact ih.value (hΓ v w List.mem_cons_self)

theorem obeys_right {T : ObjectId → Table Binding} {n : Nat} (twin : ScopeId → ScopeId)
    (hb : base.Obeys T n) (hΓ : ∀ v w, .value v w ∈ Γ → w.Obeys T n) :
    (Γ.right twin base).Obeys T n := by
  induction Γ with
  | nil => exact hb
  | cons x Γ ih =>
    have ih := ih fun v w hm => hΓ v w (List.mem_cons_of_mem x hm)
    cases x with
    | scope s => exact ih.scope (twin s)
    | value v w => exact ih.value (hΓ v w List.mem_cons_self)

end Context

end Treewalk
