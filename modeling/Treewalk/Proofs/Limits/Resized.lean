import Mathlib.Logic.Relator
import Treewalk.Proofs.Scope.Places
import Treewalk.Proofs.Simulation.Basic

/-!
# Values up to the layout of tables

Two tables of bindings are the same up to their layout if they have the same keys, with the same
flags and with values that are related: `Table.Resized`. Their capacities may differ, and so may the
slots of the keys. Two values are the same up to the layout of tables if the tables of the objects
in them are, object by object: `Value.Resized`. A pairing says which objects are meant to be the
same one.

* `Table.Resized.place` and `Table.Resized.overwrite` for writes on both sides.
* `Table.Resized.sumOf_eq`: sums over the values of a table do not depend on its layout.
* `Value.Resized.nested`: what is nested in a value is nested in the other one, up to layout.
-/

namespace Treewalk

/-- Which objects of one side are which of another. -/
abbrev Pairing := ObjectId → ObjectId → Prop

/-- Tables with the same keys and flags and with related values. -/
structure Table.Resized (R : Value → Value → Prop) (t u : Table Binding) : Prop where
  left : t.WellFormed
  right : u.WellFormed
  bindings : ∀ key, Option.Rel
    (fun b c => b.name = c.name ∧ b.isConst = c.isConst ∧ R b.value c.value)
    (t.get? key) (u.get? key)

/-- Values that are the same up to the layout of tables. -/
inductive Value.Resized (P : Pairing) : Value → Value → Prop
  | leaf {v : Value} (h : v.type ≠ .object) : Resized P v v
  | object {i j : ObjectId} {t u : Table Binding} (hid : P i j) (left : t.WellFormed)
    (right : u.WellFormed) (keys : ∀ key, (t.get? key).isSome = (u.get? key).isSome)
    (flags : ∀ key b c, t.get? key = some b → u.get? key = some c →
      b.name = c.name ∧ b.isConst = c.isConst)
    (values : ∀ key b c, t.get? key = some b → u.get? key = some c → Resized P b.value c.value) :
    Resized P (.object i t) (.object j u)

namespace Table.Resized

variable {R R' : Value → Value → Prop} {t u : Table Binding} {v w : Value}

theorem of_some (left : t.WellFormed) (right : u.WellFormed)
    (keys : ∀ key, (t.get? key).isSome = (u.get? key).isSome)
    (values : ∀ key b c, t.get? key = some b → u.get? key = some c →
      b.name = c.name ∧ b.isConst = c.isConst ∧ R b.value c.value) : t.Resized R u := by
  refine ⟨left, right, fun key => ?_⟩
  have hk := keys key
  cases hb : t.get? key with
  | none =>
    cases hc : u.get? key with
    | none => exact .none
    | some c => simp [hb, hc] at hk
  | some b =>
    cases hc : u.get? key with
    | none => simp [hb, hc] at hk
    | some c => exact .some (values key b c hb hc)

theorem isSome_eq (h : t.Resized R u) (key : String) :
    (t.get? key).isSome = (u.get? key).isSome := by
  have hk := h.bindings key
  generalize t.get? key = b at hk
  generalize u.get? key = c at hk
  cases hk <;> rfl

theorem of_get? (h : t.Resized R u) {key : String} {b : Binding} (hb : t.get? key = some b) :
    ∃ c, u.get? key = some c ∧ b.name = c.name ∧ b.isConst = c.isConst ∧ R b.value c.value := by
  have hk := h.bindings key
  rw [hb] at hk
  cases hc : u.get? key with
  | none => rw [hc] at hk; cases hk
  | some c =>
    rw [hc] at hk
    cases hk with
    | some hk => exact ⟨c, rfl, hk⟩

theorem of_get?_none (h : t.Resized R u) {key : String} (hb : t.get? key = none) :
    u.get? key = none := by
  have hk := h.isSome_eq key
  rw [hb] at hk
  simpa using hk.symm

theorem mono (h : t.Resized R u) (hR : ∀ v w, R v w → R' v w) : t.Resized R' u := by
  refine ⟨h.left, h.right, fun key => ?_⟩
  have hk := h.bindings key
  generalize t.get? key = b at hk
  generalize u.get? key = c at hk
  cases hk with
  | none => exact .none
  | some hk => exact .some ⟨hk.1, hk.2.1, hR _ _ hk.2.2⟩

theorem symm (h : t.Resized R u) : u.Resized (flip R) t := by
  refine ⟨h.right, h.left, fun key => ?_⟩
  have hk := h.bindings key
  generalize t.get? key = b at hk
  generalize u.get? key = c at hk
  cases hk with
  | none => exact .none
  | some hk => exact .some ⟨hk.1.symm, hk.2.1.symm, hk.2.2⟩

theorem withCapacity (R : Value → Value → Prop) (n n' : Nat) :
    (Table.withCapacity n).Resized R (Table.withCapacity n') := by
  refine ⟨wellFormed_withCapacity n, wellFormed_withCapacity n', fun key => ?_⟩
  rw [get?_withCapacity, get?_withCapacity]
  exact .none

/-! ## Keys and values -/

theorem keys_perm (h : t.Resized R u) : t.keys.Perm u.keys := by
  refine (List.perm_ext_iff_of_nodup h.left.nodup_keys h.right.nodup_keys).2 fun key => ?_
  rw [h.left.mem_keys_iff, h.right.mem_keys_iff, h.isSome_eq]

theorem size_eq (h : t.Resized R u) : t.size = u.size := by
  have hlen := h.keys_perm.length_eq
  rw [keys, keys, List.length_map, List.length_map] at hlen
  rw [h.left.size_eq_length_entries, h.right.size_eq_length_entries, hlen]

theorem contains_eq (h : t.Resized R u) (key : String) : t.contains key = u.contains key := by
  rw [Table.contains_eq, Table.contains_eq, h.isSome_eq]

/-- A sum over the values of a table is one over its keys. -/
theorem sumOf_values_eq (ht : t.WellFormed) (f : Value → Nat) :
    sumOf f t.values =
      (t.keys.map fun key => ((t.get? key).map fun b => f b.value).getD 0).sum := by
  have hvalues : t.values = t.entries.map fun p => p.2.value := by
    rw [values, entries, List.map_filterMap]
    rfl
  rw [hvalues, sumOf, keys, List.map_map, List.map_map]
  congr 1
  refine List.map_congr_left fun p hp => ?_
  have hp : t.get? p.1 = some p.2 := ht.mem_entries.1 hp
  simp [hp]

/-- A sum over the values of a table does not depend on the table's layout. -/
theorem sumOf_eq (h : t.Resized R u) {f g : Value → Nat} (hfg : ∀ v w, R v w → f v = g w) :
    sumOf f t.values = sumOf g u.values := by
  rw [sumOf_values_eq h.left, sumOf_values_eq h.right, (h.keys_perm.map _).sum_eq]
  congr 1
  refine List.map_congr_left fun key _ => ?_
  have hk := h.bindings key
  generalize t.get? key = b at hk
  generalize u.get? key = c at hk
  cases hk with
  | none => rfl
  | some hk => exact hfg _ _ hk.2.2

theorem exists_of_mem_values (h : t.Resized R u) (hv : v ∈ t.values) : ∃ w ∈ u.values, R v w := by
  obtain ⟨key, b, hb, rfl⟩ := h.left.mem_values.1 hv
  obtain ⟨c, hc, -, -, hR⟩ := h.of_get? hb
  exact ⟨c.value, mem_values_of_get? hc, hR⟩

/-! ## Writes -/

/-- A key that fits into the smaller table fits into the larger one. -/
theorem exists_place? (h : t.Resized R u) (hc : t.capacity ≤ u.capacity) {key : String}
    {p : SetOutcome × Nat} (hp : t.place? key = some p) :
    ∃ q, u.place? key = some q ∧ q.1 = p.1 := by
  have hfull : ¬u.isFull = true := by
    have hfull : ¬t.isFull = true := fun hf => by simp [h.left.place?_eq_none_iff.2 hf] at hp
    have hsize : t.count = u.count := h.size_eq
    rw [isFull, decide_eq_true_iff] at hfull ⊢
    omega
  cases hq : u.place? key with
  | none => exact (hfull (h.right.place?_eq_none_iff.1 hq)).elim
  | some q => exact ⟨q, rfl, by rw [outcome_eq hp, outcome_eq hq, h.isSome_eq]⟩

theorem of_get?_eq {t' u' : Table Binding} (h : t.Resized R u) (left : t'.WellFormed)
    (right : u'.WellFormed) {key : String} {b c : Binding}
    (ht : ∀ k, t'.get? k = if key = k then some b else t.get? k)
    (hu : ∀ k, u'.get? k = if key = k then some c else u.get? k) (hname : b.name = c.name)
    (hconst : b.isConst = c.isConst) (hvw : R b.value c.value) : t'.Resized R u' := by
  refine ⟨left, right, fun k => ?_⟩
  rw [ht, hu]
  split
  · exact .some ⟨hname, hconst, hvw⟩
  · exact h.bindings k

/-- The same key set on both sides. -/
theorem place (h : t.Resized R u) {key : String} {p q : SetOutcome × Nat}
    (hp : t.place? key = some p) (hq : u.place? key = some q) {b c : Binding}
    (hname : b.name = c.name) (hconst : b.isConst = c.isConst) (hvw : R b.value c.value) :
    (t.write p key b).Resized R (u.write q key c) :=
  h.of_get?_eq (h.left.place hp b) (h.right.place hq c) (h.left.get?_place hp b)
    (h.right.get?_place hq c) hname hconst hvw

/-- The value of a key replaced on both sides. -/
theorem overwrite (h : t.Resized R u) {key : String} {i j : Nat} {b c : Binding}
    (hb : t.locate? key = some (i, b)) (hc : u.locate? key = some (j, c)) (hvw : R v w) :
    (t.write (.overwritten, i) key (b.withValue v)).Resized R
      (u.write (.overwritten, j) key (c.withValue w)) := by
  obtain ⟨hi, hsi⟩ := locate?_eq_some.1 hb
  obtain ⟨hj, hsj⟩ := locate?_eq_some.1 hc
  have hbk : t.get? key = some b := get?_eq_some.2 ⟨i, hi, hsi⟩
  have hck : u.get? key = some c := get?_eq_some.2 ⟨j, hj, hsj⟩
  obtain ⟨c', hc', hname, hconst, -⟩ := h.of_get? hbk
  obtain rfl : c = c' := Option.some.inj (hck.symm.trans hc')
  exact h.of_get?_eq (h.left.overwrite hsi _) (h.right.overwrite hsj _) (get?_overwrite hi _)
    (get?_overwrite hj _) hname hconst hvw

end Table.Resized

/-! ## Values -/

namespace Value

variable {P P' : Pairing} {v w x : Value} {i j : ObjectId} {t u : Table Binding} {s : ScopeId}

theorem resized_object :
    Resized P (.object i t) (.object j u) ↔ P i j ∧ t.Resized (Resized P) u := by
  constructor
  · intro h
    cases h with
    | leaf h => exact (h rfl).elim
    | object hid left right keys flags values =>
      exact ⟨hid, .of_some left right keys fun key b c hb hc =>
        ⟨(flags key b c hb hc).1, (flags key b c hb hc).2, values key b c hb hc⟩⟩
  · rintro ⟨hid, h⟩
    have hrel : ∀ {key b c}, t.get? key = some b → u.get? key = some c →
        b.name = c.name ∧ b.isConst = c.isConst ∧ Resized P b.value c.value := by
      intro key b c hb hc
      obtain ⟨c', hc', hk⟩ := h.of_get? hb
      obtain rfl : c = c' := Option.some.inj (hc.symm.trans hc')
      exact hk
    exact .object hid h.left h.right h.isSome_eq
      (fun _ _ _ hb hc => ⟨(hrel hb hc).1, (hrel hb hc).2.1⟩) fun _ _ _ hb hc => (hrel hb hc).2.2

/-- Facts about values that are the same up to layout, with tables as they are. -/
theorem Resized.induction {motive : ∀ v w, Resized P v w → Prop}
    (leaf : ∀ v (hv : v.type ≠ .object), motive v v (.leaf hv))
    (object : ∀ i j t u (h : Resized P (.object i t) (.object j u)), P i j →
      Table.Resized (fun v w => ∃ h : Resized P v w, motive v w h) t u → motive _ _ h)
    (h : Resized P v w) : motive v w h := by
  induction h with
  | leaf h => exact leaf _ h
  | object hid left right keys flags values ih =>
    exact object _ _ _ _ _ hid (.of_some left right keys fun key b c hb hc =>
      ⟨(flags key b c hb hc).1, (flags key b c hb hc).2, values key b c hb hc, ih key b c hb hc⟩)

theorem IsPlain.resized (h : v.IsPlain) : Resized P v v :=
  .leaf (by cases v <;> first | exact h.elim | simp [type])

theorem Resized.mono (h : Resized P v w) (hP : ∀ i j, P i j → P' i j) : Resized P' v w := by
  induction h using Resized.induction with
  | leaf v hv => exact .leaf hv
  | object i j t u h hid ht => exact resized_object.2 ⟨hP _ _ hid, ht.mono fun _ _ h => h.2⟩

theorem Resized.symm (h : Resized P v w) : Resized (flip P) w v := by
  induction h using Resized.induction with
  | leaf v hv => exact .leaf hv
  | object i j t u h hid ht => exact resized_object.2 ⟨hid, ht.symm.mono fun _ _ h => h.2⟩

theorem Resized.alike (h : Resized P v w) : v.Alike .same w := by
  cases h with
  | leaf => exact .refl_same _
  | object => exact .objects ..

theorem Resized.eq_of_type (h : Resized P v w) (hv : v.type ≠ .object) : v = w := by
  cases h with
  | leaf => rfl
  | object => exact (hv rfl).elim

theorem Resized.mentions_of (h : Resized P v w) : v.mentions s = true → w.mentions s = true := by
  induction h using Resized.induction with
  | leaf v hv => exact id
  | object i j t u h hid ht =>
    intro hm
    obtain ⟨v, hv, hm⟩ := mentions_object.1 hm
    obtain ⟨w, hw, -, ih⟩ := ht.exists_of_mem_values hv
    exact mentions_object.2 ⟨w, hw, ih hm⟩

theorem Resized.mentions_eq (h : Resized P v w) (s : ScopeId) : v.mentions s = w.mentions s :=
  Bool.eq_iff_iff.2 ⟨h.mentions_of, h.symm.mentions_of⟩

/-- What is nested in a value is nested in the other one, up to layout. -/
theorem Resized.nested (h : Resized P v w) (hn : x.Nested v) : ∃ y, y.Nested w ∧ Resized P x y := by
  induction hn generalizing w with
  | self => exact ⟨w, .self, h⟩
  | @bound id t v hv hn ih =>
    cases h with
    | leaf h => exact (h rfl).elim
    | @object i j t u hid left right keys flags values =>
      have ht := (resized_object.1 (.object hid left right keys flags values)).2
      obtain ⟨w, hw, hvw⟩ := ht.exists_of_mem_values hv
      obtain ⟨y, hy, hxy⟩ := ih hvw
      exact ⟨y, .bound hw hy, hxy⟩

end Value

end Treewalk
