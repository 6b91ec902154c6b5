import Mathlib.Logic.Relation
import Treewalk.Proofs.Scope.Forest

/-!
# Scope chains as lexical scoping over a shared store

What names mean is said from the entries of the tables and the parent links alone. The owner of a
name, seen from a scope, is the nearest scope upward that has an entry for it (`Store.Nearest`),
and a scope sees an entry of another one if no scope before that one hides the name
(`Store.Sees`).

Main statement: `Store.lexical_scoping`, look-ups, assignments and declarations in a forest are
those of lexical scoping, for the scope that they start from and for all others, which may share
any part of its chain.
-/

namespace Treewalk.Store

variable {σ σ' : Store} {s t u : ScopeId} {x y : String}

/-- A scope has a binding of its own for a name. -/
def Declares (σ : Store) (s : ScopeId) (x : String) (b : Binding) : Prop :=
  (x, b) ∈ (σ.bindings s).entries

/-- One scope is another one or above it. -/
def Ancestor (σ : Store) : ScopeId → ScopeId → Prop :=
  Relation.ReflTransGen fun s p => σ.parent? s = some p

/-- The second scope is the nearest one, from the first one upward, that declares a name. -/
inductive Nearest (σ : Store) (x : String) : ScopeId → ScopeId → Prop where
  | here {s : ScopeId} {b : Binding} : σ.Declares s x b → Nearest σ x s s
  | above {s p t : ScopeId} : (∀ b, ¬σ.Declares s x b) → σ.parent? s = some p →
      Nearest σ x p t → Nearest σ x s t

/-- The second scope is the first one or above it, and no scope before it declares a name. -/
inductive Sees (σ : Store) (x : String) : ScopeId → ScopeId → Prop where
  | here {s : ScopeId} : Sees σ x s s
  | above {s p t : ScopeId} : (∀ b, ¬σ.Declares s x b) → σ.parent? s = some p →
      Sees σ x p t → Sees σ x s t

/-- A store after one binding was written in the table of one scope. -/
structure Rewritten (σ σ' : Store) (t : ScopeId) (x : String) (b : Binding) : Prop where
  size_eq : σ'.scopes.size = σ.scopes.size
  elsewhere : ∀ u, u ≠ t → σ'.scopes[u.index]? = σ.scopes[u.index]?
  parent?_eq : ∀ u, σ'.parent? u = σ.parent? u
  childCapacity_eq : ∀ u, σ'.childCapacity u = σ.childCapacity u
  capacity_eq : (σ'.bindings t).capacity = (σ.bindings t).capacity
  declares_iff : ∀ y c, σ'.Declares t y c ↔ if y = x then c = b else σ.Declares t y c

/-! ## Owners -/

theorem IsForest.declares_iff (h : σ.IsForest) {b : Binding} :
    σ.Declares s x b ↔ (σ.bindings s).get? x = some b :=
  (h.wellFormed s).mem_entries

theorem IsForest.not_declares_iff (h : σ.IsForest) :
    (∀ b, ¬σ.Declares s x b) ↔ (σ.bindings s).get? x = none := by
  rw [Option.eq_none_iff_forall_ne_some]
  exact forall_congr' fun b => not_congr h.declares_iff

/-- The owner that look-ups and assignments walk to is the nearest scope that declares the name. -/
theorem IsForest.owner?_eq_some_iff (h : σ.IsForest) :
    σ.owner? s x = some t ↔ σ.Nearest x s t := by
  constructor
  · intro ho
    induction hn : s.index using Nat.strongRecOn generalizing s with
    | ind n ih =>
      rw [h.owner?_eq_ite, Table.contains_eq] at ho
      cases hb : (σ.bindings s).get? x with
      | some b =>
        rw [hb] at ho
        cases ho
        exact .here (h.declares_iff.2 hb)
      | none =>
        rw [hb] at ho
        obtain ⟨p, hp, ho⟩ := Option.bind_eq_some_iff.1 ho
        exact .above (h.not_declares_iff.2 hb) hp (ih _ (hn ▸ h.older hp) ho rfl)
  · intro hn
    induction hn with
    | here hb => rw [h.owner?_eq_ite, Table.contains_eq, h.declares_iff.1 hb]; rfl
    | above hb hp _ ih =>
      rw [h.owner?_eq_ite, Table.contains_eq, h.not_declares_iff.1 hb, hp]
      exact ih

theorem IsForest.resolve_eq_some_iff (h : σ.IsForest) {b : Binding} :
    σ.resolve s x = some b ↔ ∃ t, σ.Nearest x s t ∧ σ.Declares t x b := by
  rw [resolve_eq_bind, Option.bind_eq_some_iff]
  exact exists_congr fun t => and_congr h.owner?_eq_some_iff h.declares_iff.symm

theorem Nearest.ancestor (h : σ.Nearest x s t) : σ.Ancestor s t := by
  induction h with
  | here _ => exact .refl
  | above _ hp _ ih => exact .head hp ih

theorem Nearest.declares (h : σ.Nearest x s t) : ∃ b, σ.Declares t x b := by
  induction h with
  | here hb => exact ⟨_, hb⟩
  | above _ _ _ ih => exact ih

/-- A scope below one that declares a name has a nearest scope that does. -/
theorem Ancestor.exists_nearest {b : Binding} (h : σ.Ancestor s t) (hb : σ.Declares t x b) :
    ∃ u, σ.Nearest x s u := by
  induction h using Relation.ReflTransGen.head_induction_on with
  | refl => exact ⟨t, .here hb⟩
  | @head s p hp _ ih =>
    by_cases hs : ∃ c, σ.Declares s x c
    · obtain ⟨c, hc⟩ := hs
      exact ⟨s, .here hc⟩
    · obtain ⟨u, hu⟩ := ih
      exact ⟨u, .above (not_exists.1 hs) hp hu⟩

theorem IsForest.resolve_eq_none_iff (h : σ.IsForest) :
    σ.resolve s x = none ↔ ∀ t b, σ.Ancestor s t → ¬σ.Declares t x b := by
  rw [Option.eq_none_iff_forall_ne_some]
  constructor
  · intro hn t b hst hb
    obtain ⟨u, hu⟩ := hst.exists_nearest hb
    obtain ⟨c, hc⟩ := hu.declares
    exact hn c (h.resolve_eq_some_iff.2 ⟨u, hu, hc⟩)
  · intro hn b hb
    obtain ⟨t, ht, hb⟩ := h.resolve_eq_some_iff.1 hb
    exact hn t b ht.ancestor hb

/-! ## Writes -/

/-- A write to a slot that then holds the binding of its name and hides no other one. -/
theorem IsForest.rewritten_place (h : σ.IsForest) {p : Table.SetOutcome × Nat} {b : Binding}
    (h' : (σ.place t p x b).IsForest)
    (hget : ∀ y, ((σ.bindings t).write p x b).get? y =
      if x = y then some b else (σ.bindings t).get? y) :
    σ.Rewritten (σ.place t p x b) t x b where
  size_eq := size_place ..
  elsewhere u hu := by
    rw [getElem?_scopes_place, if_neg fun hi => hu (ScopeId.index_inj.1 hi).symm]
  parent?_eq u := parent?_place ..
  childCapacity_eq u := childCapacity_place ..
  capacity_eq := by rw [bindings_place, if_pos rfl, Table.capacity_write]
  declares_iff y c := by
    rw [h'.declares_iff, h.declares_iff, bindings_place, if_pos rfl, hget]
    by_cases hy : y = x
    · rw [if_pos hy, if_pos hy.symm, Option.some_inj, eq_comm]
    · rw [if_neg hy, if_neg (Ne.symm hy)]

namespace Rewritten

variable {b : Binding}

/-- What any scope declares after the write. -/
theorem declares_iff_ite (w : σ.Rewritten σ' t x b) (u : ScopeId) (y : String) (c : Binding) :
    σ'.Declares u y c ↔ if u = t ∧ y = x then c = b else σ.Declares u y c := by
  by_cases hu : u = t
  · subst hu
    simp only [true_and, w.declares_iff y c]
  · rw [if_neg fun hc => hu hc.1, Declares, Declares, bindings, bindings, w.elsewhere u hu]

theorem get?_eq (w : σ.Rewritten σ' t x b) (h : σ.IsForest) (h' : σ'.IsForest) (u : ScopeId)
    (y : String) :
    (σ'.bindings u).get? y = if u = t ∧ y = x then some b else (σ.bindings u).get? y := by
  refine Option.ext fun c => ?_
  rw [← h'.declares_iff, w.declares_iff_ite]
  by_cases hc : u = t ∧ y = x
  · rw [if_pos hc, if_pos hc, Option.some_inj, eq_comm]
  · rw [if_neg hc, if_neg hc, h.declares_iff]

/-- The scopes that see the written binding find it. -/
theorem resolve_of_sees (w : σ.Rewritten σ' t x b) (h : σ.IsForest) (h' : σ'.IsForest)
    (hu : σ.Sees x u t) : σ'.resolve u x = some b := by
  induction hu with
  | here => rw [h'.resolve_eq_or, w.get?_eq h h', if_pos ⟨rfl, rfl⟩]; rfl
  | @above u p t hn hp _ ih =>
    rw [h'.resolve_eq_or, w.get?_eq h h', w.parent?_eq, hp, Option.bind_some, ih w]
    by_cases hc : u = t ∧ x = x
    · rw [if_pos hc]; rfl
    · rw [if_neg hc, h.not_declares_iff.1 hn]; rfl

/-- All other look-ups find what they found before. -/
theorem resolve_of_not_sees (w : σ.Rewritten σ' t x b) (h : σ.IsForest) (h' : σ'.IsForest)
    (hu : ¬(y = x ∧ σ.Sees x u t)) : σ'.resolve u y = σ.resolve u y := by
  induction hn : u.index using Nat.strongRecOn generalizing u with
  | ind n ih =>
    have hut : ¬(u = t ∧ y = x) := by
      rintro ⟨rfl, rfl⟩
      exact hu ⟨rfl, .here⟩
    rw [h'.resolve_eq_or, h.resolve_eq_or, w.get?_eq h h', if_neg hut, w.parent?_eq]
    cases hb : (σ.bindings u).get? y with
    | some c => rfl
    | none =>
      cases hp : σ.parent? u with
      | none => rfl
      | some p =>
        have hpt : ¬(y = x ∧ σ.Sees x p t) := by
          rintro ⟨rfl, hs⟩
          exact hu ⟨rfl, .above (h.not_declares_iff.2 hb) hp hs⟩
        exact congrArg _ (ih _ (hn ▸ h.older hp) hpt rfl)

end Rewritten

/-- Where a scope declares a name, those that see it are those that it is the nearest one for. -/
theorem Declares.sees_iff {b : Binding} (hb : σ.Declares t x b) :
    σ.Sees x u t ↔ σ.Nearest x u t := by
  constructor
  · intro h
    induction h with
    | here => exact .here hb
    | above hn hp _ ih => exact .above hn hp (ih hb)
  · intro h
    induction h with
    | here _ => exact .here
    | above hn hp _ ih => exact .above hn hp (ih hb)

/-! ## Assigning and declaring -/

theorem assign_of_resolve_eq_none (h : σ.resolve s x = none) (v : Value) :
    σ.assign s x v = .error .undefined := by
  rw [assign]
  cases ho : σ.owner? s x with
  | none => rfl
  | some t =>
    obtain ⟨b, hb⟩ := exists_get?_of_owner? ho
    rw [resolve_eq_bind, ho, Option.bind_some, hb] at h
    cases h

/-- Assigning to a name that is bound: a constant is refused, and else its owner is rewritten. -/
theorem IsForest.assign_of_resolve_eq_some (h : σ.IsForest) {b : Binding}
    (hb : σ.resolve s x = some b) (v : Value) :
    (b.isConst = true ∧ σ.assign s x v = .error .const) ∨
    (b.isConst = false ∧ ∃ t σ', σ.Nearest x s t ∧
      σ.assign s x v = .ok (b.withValue v, σ') ∧ σ.Rewritten σ' t x (b.withValue v)) := by
  rw [resolve_eq_bind, Option.bind_eq_some_iff] at hb
  obtain ⟨t, ho, hb⟩ := hb
  obtain ⟨i, hi, hs⟩ := Table.get?_eq_some.1 hb
  have hassign : σ.assign s x v = if b.isConst then .error .const
      else .ok (b.withValue v, σ.place t (.overwritten, i) x (b.withValue v)) := by
    rw [Store.assign, ho]
    simp only [Table.locate?_eq_some.2 ⟨hi, hs⟩]
  cases hc : b.isConst with
  | true => exact .inl ⟨rfl, by rw [hassign, hc]; rfl⟩
  | false =>
    rw [hc] at hassign
    exact .inr ⟨rfl, t, _, h.owner?_eq_some_iff.1 ho, hassign,
      h.rewritten_place (h.assign hassign) (Table.get?_overwrite (p := (.overwritten, i)) hi _)⟩

/-- Declaring a name: refused in a full table, and else the scope itself is rewritten. -/
theorem IsForest.declare_cases (h : σ.IsForest) (s : ScopeId) (x : String) (v : Value)
    (isConst : Bool) :
    ((σ.bindings s).isFull = true ∧
      σ.declare s x v isConst = .error (.tableOverflow (σ.bindings s).capacity)) ∨
    ((σ.bindings s).isFull = false ∧ ∃ σ', σ.declare s x v isConst = .ok (⟨x, isConst, v⟩, σ') ∧
      σ.Rewritten σ' s x ⟨x, isConst, v⟩) := by
  cases hp : (σ.bindings s).place? x with
  | none => exact .inl ⟨(h.wellFormed s).place?_eq_none_iff.1 hp, by rw [Store.declare, hp]⟩
  | some p =>
    have hd : σ.declare s x v isConst =
        .ok (⟨x, isConst, v⟩, σ.place s p x ⟨x, isConst, v⟩) := by rw [Store.declare, hp]
    exact .inr ⟨(Table.place?_eq_some_iff.1 hp).1, _, hd,
      h.rewritten_place (h.declare hd) ((h.wellFormed s).get?_place hp _)⟩

/-- Assignments are refused for two causes, or else change one binding for all who have it as their
nearest one. -/
theorem IsForest.assign_lexical (h : σ.IsForest) (s : ScopeId) (x : String) (v : Value) :
    (σ.assign s x v = .error .undefined ↔ σ.resolve s x = none) ∧
    (σ.assign s x v = .error .const ↔ ∃ b, σ.resolve s x = some b ∧ b.isConst = true) ∧
    ∀ b, σ.resolve s x = some b → b.isConst = false → ∃ t σ', σ.Nearest x s t ∧
      σ.assign s x v = .ok (b.withValue v, σ') ∧ σ.Rewritten σ' t x (b.withValue v) ∧
      (∀ u, σ.Nearest x u t → σ'.resolve u x = some (b.withValue v)) ∧
      ∀ u y, ¬(y = x ∧ σ.Nearest x u t) → σ'.resolve u y = σ.resolve u y := by
  cases hb : σ.resolve s x with
  | none => simp [assign_of_resolve_eq_none hb]
  | some b =>
    obtain ⟨hc, ha⟩ | ⟨hc, t, σ', ht, ha, hw⟩ := h.assign_of_resolve_eq_some hb v
    · simp [ha, hc]
    · refine ⟨by simp [ha], by simp [ha, hc], ?_⟩
      rintro _ ⟨⟩ -
      obtain ⟨c, hd⟩ := ht.declares
      refine ⟨t, σ', ht, ha, hw, fun u hu => ?_, fun u y hu => ?_⟩
      · exact hw.resolve_of_sees h (h.assign ha) (hd.sees_iff.2 hu)
      · exact hw.resolve_of_not_sees h (h.assign ha) (by rwa [hd.sees_iff])

/-- Declarations are refused by a full table, or else give the name a new meaning for all who see
the scope. -/
theorem IsForest.declare_lexical (h : σ.IsForest) (s : ScopeId) (x : String) (v : Value)
    (isConst : Bool) :
    (∀ cause, σ.declare s x v isConst = .error cause ↔
      (σ.bindings s).entries.length = (σ.bindings s).capacity ∧
        cause = .tableOverflow (σ.bindings s).capacity) ∧
    ((σ.bindings s).entries.length ≠ (σ.bindings s).capacity →
      ∃ σ', σ.declare s x v isConst = .ok (⟨x, isConst, v⟩, σ') ∧
        σ.Rewritten σ' s x ⟨x, isConst, v⟩ ∧
        (∀ u, σ.Sees x u s → σ'.resolve u x = some ⟨x, isConst, v⟩) ∧
        ∀ u y, ¬(y = x ∧ σ.Sees x u s) → σ'.resolve u y = σ.resolve u y) := by
  rw [Ne, ← (h.wellFormed s).isFull_iff_length_entries]
  obtain ⟨hf, hd⟩ | ⟨hf, σ', hd, hw⟩ := h.declare_cases s x v isConst
  · simp [hf, hd, eq_comm]
  · have h' := h.declare hd
    exact ⟨by simp [hf, hd], fun _ => ⟨σ', hd, hw, fun u => hw.resolve_of_sees h h',
      fun u y => hw.resolve_of_not_sees h h'⟩⟩

/-- Scope chains are lexical scoping over a shared store. A look-up gives the binding of the
nearest scope that declares the name. An assignment is refused if there is none, or if that one is
constant, and otherwise changes the value of that binding alone, for all scopes that have it as
their nearest one. A declaration is refused if the scope's own table is full, and otherwise gives
the name a new meaning for exactly the scopes that see the scope. A refusal leaves no store but
the one before. -/
theorem lexical_scoping (h : σ.IsForest) (s : ScopeId) (x : String) :
    (∀ b, σ.resolve s x = some b ↔ ∃ t, σ.Nearest x s t ∧ σ.Declares t x b) ∧
    (σ.resolve s x = none ↔ ∀ t b, σ.Ancestor s t → ¬σ.Declares t x b) ∧
    (∀ v,
      (σ.assign s x v = .error .undefined ↔ σ.resolve s x = none) ∧
      (σ.assign s x v = .error .const ↔ ∃ b, σ.resolve s x = some b ∧ b.isConst = true) ∧
      ∀ b, σ.resolve s x = some b → b.isConst = false → ∃ t σ', σ.Nearest x s t ∧
        σ.assign s x v = .ok (b.withValue v, σ') ∧ σ.Rewritten σ' t x (b.withValue v) ∧
        (∀ u, σ.Nearest x u t → σ'.resolve u x = some (b.withValue v)) ∧
        ∀ u y, ¬(y = x ∧ σ.Nearest x u t) → σ'.resolve u y = σ.resolve u y) ∧
    ∀ v isConst,
      (∀ cause, σ.declare s x v isConst = .error cause ↔
        (σ.bindings s).entries.length = (σ.bindings s).capacity ∧
          cause = .tableOverflow (σ.bindings s).capacity) ∧
      ((σ.bindings s).entries.length ≠ (σ.bindings s).capacity →
        ∃ σ', σ.declare s x v isConst = .ok (⟨x, isConst, v⟩, σ') ∧
          σ.Rewritten σ' s x ⟨x, isConst, v⟩ ∧
          (∀ u, σ.Sees x u s → σ'.resolve u x = some ⟨x, isConst, v⟩) ∧
          ∀ u y, ¬(y = x ∧ σ.Sees x u s) → σ'.resolve u y = σ.resolve u y) :=
  ⟨fun _ => h.resolve_eq_some_iff, h.resolve_eq_none_iff, h.assign_lexical s x,
    h.declare_lexical s x⟩

/-! ## A constant that shadows a variable -/

/-- A variable, and a constant of the same name in a scope below. -/
def shadowed : Store :=
  let outer := (Store.empty.root 1 1).2.place ⟨0⟩ (.inserted, 0) "x" ⟨"x", false, .null⟩
  (outer.child ⟨0⟩).2.place ⟨1⟩ (.inserted, 0) "x" ⟨"x", true, .null⟩

theorem isForest_shadowed : shadowed.IsForest := by
  have hroot : (Store.empty.root 1 1).2.IsForest := IsForest.empty.add 1 none 1 (by simp)
  have hslot : (Table.withCapacity 1 : Table Binding).place? "x" = some (.inserted, 0) := by
    decide +kernel
  have houter := hroot.place (s := ⟨0⟩) (b := ⟨"x", false, .null⟩)
    ((hroot.wellFormed ⟨0⟩).place hslot _)
  have hchild := houter.add 1 (some ⟨0⟩) 1 (by simp [root, Store.empty])
  exact hchild.place (s := ⟨1⟩) ((hchild.wellFormed ⟨1⟩).place hslot _)

/-- The constant is refused, although the variable further up could be assigned. -/
theorem lexical_scoping_shadowed :
    shadowed.IsForest ∧ shadowed.assign ⟨1⟩ "x" (.int 1) = .error .const ∧
      ∃ b, shadowed.resolve ⟨0⟩ "x" = some b ∧ b.isConst = false := by
  have hinner : shadowed.Declares ⟨1⟩ "x" ⟨"x", true, .null⟩ := List.mem_singleton.2 rfl
  have houter : shadowed.Declares ⟨0⟩ "x" ⟨"x", false, .null⟩ := List.mem_singleton.2 rfl
  obtain ⟨hresolve, -, hassign, -⟩ := lexical_scoping isForest_shadowed ⟨1⟩ "x"
  refine ⟨isForest_shadowed, (hassign _).2.1.2 ⟨_, (hresolve _).2 ⟨_, .here hinner, hinner⟩, rfl⟩,
    ⟨"x", false, .null⟩, ?_, rfl⟩
  exact isForest_shadowed.resolve_eq_some_iff.2 ⟨_, .here houter, houter⟩

end Treewalk.Store
