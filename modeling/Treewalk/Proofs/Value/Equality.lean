import Treewalk.Proofs.Table.Extensional
import Treewalk.Proofs.Value.Nesting
import Treewalk.Value.Equality

/-!
# Equality of values

Equality of values goes on into objects, which are equal as maps. It is symmetric and transitive;
only values with not-a-number in them differ from themselves. What is asked of a value is that the
tables in it were made by operations and copies: `Value.IsMade`.

* `Value.same_object_iff`: objects are equal if their tables agree.
* `Value.same_symm`, `Value.same_trans` and `Value.same_self_iff`.

Main statement: `equality_extensional`.
-/

namespace Treewalk

theorem BindingOf.same_iff {b c : Binding} :
    b.same c = true ↔ b.name = c.name ∧ b.isConst = c.isConst ∧ b.value.same c.value = true := by
  simp [BindingOf.same, and_assoc]

theorem Closure.same_iff {f g : Closure} :
    f.same g = true ↔ f.name = g.name ∧ f.code.label = g.code.label ∧ f.scope = g.scope := by
  simp [Closure.same, and_assoc]

namespace Value

variable {u v w x : Value} {id : ObjectId} {t : Table Binding}

theorem nested_leaf_iff (h : v.type ≠ .object) : Nested x v ↔ x = v := by
  constructor
  · intro hn
    cases hn with
    | self => rfl
    | bound => exact (h rfl).elim
  · rintro rfl
    exact .self

theorem nested_object_iff :
    Nested x (.object id t) ↔ x = .object id t ∨ ∃ v ∈ t.values, Nested x v := by
  constructor
  · intro hn
    cases hn with
    | self => exact .inl rfl
    | bound hv hn => exact .inr ⟨_, hv, hn⟩
  · rintro (rfl | ⟨v, hv, hn⟩)
    · exact .self
    · exact .bound hv hn

/-- Whether all tables in a value were made by operations and copies. -/
def IsMade (v : Value) : Prop := ∀ id t, Nested (.object id t) v → t.Made

/-- Whether no number in a value is not-a-number. -/
def HasNoNaN (v : Value) : Prop := ∀ n, Nested (.number n) v → n.raw ≠ .nan

theorem isMade_leaf (h : v.type ≠ .object) : v.IsMade := by
  intro id t hn
  obtain rfl := (nested_leaf_iff h).1 hn
  exact (h rfl).elim

theorem isMade_object_iff : (object id t).IsMade ↔ t.Made ∧ ∀ v ∈ t.values, v.IsMade := by
  constructor
  · exact fun h => ⟨h id t .self, fun v hv id' t' hn => h id' t' (.bound hv hn)⟩
  · rintro ⟨ht, hvs⟩ id' t' hn
    obtain he | ⟨v, hv, hn⟩ := nested_object_iff.1 hn
    · cases he
      exact ht
    · exact hvs v hv id' t' hn

theorem hasNoNaN_object_iff : (object id t).HasNoNaN ↔ ∀ v ∈ t.values, v.HasNoNaN := by
  constructor
  · exact fun h v hv n hn => h n (.bound hv hn)
  · intro h n hn
    obtain he | ⟨v, hv, hn⟩ := nested_object_iff.1 hn
    · cases he
    · exact h v hv n hn

/-! ## Laws of equality -/

/-- Objects are equal if their tables agree. -/
theorem same_object_iff {i j : ObjectId} {a b : Table Binding} (ha : a.WellFormed)
    (hb : b.WellFormed) :
    (object i a).same (.object j b) = true ↔ a.Agree BindingOf.same b := by
  rw [same_object, ha.sameBy_iff hb]

/-- The ways in which two values are equal. -/
inductive Sameness : Value → Value → Prop
  | numbers {m n : Number} (h : m.same n = true) : Sameness (.number m) (.number n)
  | natives {f g : NativeFunction} (h : f.number = g.number) : Sameness (.native f) (.native g)
  | functions {f g : Closure} (h : f.same g = true) : Sameness (.function f) (.function g)
  | objects {i j : ObjectId} {a b : Table Binding}
    (h : (Value.object i a).same (.object j b) = true) : Sameness (.object i a) (.object j b)
  | plain {v : Value} (h : v.same v = true) : Sameness v v

theorem sameness_of_same (h : v.same w = true) : Sameness v w := by
  cases v with
  | number m =>
    cases w with
    | number n => exact .numbers h
    | _ => cases h
  | bool b =>
    cases w with
    | bool c =>
      obtain rfl := beq_iff_eq.1 h
      exact .plain h
    | _ => cases h
  | null =>
    cases w with
    | null => exact .plain h
    | _ => cases h
  | string s =>
    cases w with
    | string t =>
      obtain rfl := beq_iff_eq.1 h
      exact .plain h
    | _ => cases h
  | object i a =>
    cases w with
    | object j b => exact .objects h
    | _ =>
      obtain ⟨⟨slots⟩, count⟩ := a
      cases h
  | native f =>
    cases w with
    | native g => exact .natives (beq_iff_eq.1 h)
    | _ => cases h
  | function f =>
    cases w with
    | function g => exact .functions h
    | _ => cases h

theorem same_symm (hv : v.IsMade) (hw : w.IsMade) (h : v.same w = true) : w.same v = true := by
  induction v using Value.induction generalizing w with
  | leaf v hleaf =>
    cases sameness_of_same h with
    | numbers hmn => exact (Number.same_comm ..).trans hmn
    | natives hfg => exact beq_iff_eq.2 hfg.symm
    | functions hfg =>
      obtain ⟨hname, hlabel, hscope⟩ := Closure.same_iff.1 hfg
      exact Closure.same_iff.2 ⟨hname.symm, hlabel.symm, hscope.symm⟩
    | objects => exact (hleaf rfl).elim
    | plain => exact h
  | object i a ih =>
    cases sameness_of_same h with
    | plain => exact h
    | @objects _ j _ b =>
      obtain ⟨ha, has⟩ := isMade_object_iff.1 hv
      obtain ⟨hb, hbs⟩ := isMade_object_iff.1 hw
      rw [same_object_iff ha.wellFormed hb.wellFormed] at h
      refine (same_object_iff hb.wellFormed ha.wellFormed).2 (h.symm fun key x y hx hy hxy => ?_)
      obtain ⟨hname, hconst, hvalue⟩ := BindingOf.same_iff.1 hxy
      have hx := Table.value_mem_values hx
      have hy := Table.value_mem_values hy
      exact BindingOf.same_iff.2
        ⟨hname.symm, hconst.symm, ih _ hx (has _ hx) (hbs _ hy) hvalue⟩

theorem same_trans (hu : u.IsMade) (hv : v.IsMade) (hw : w.IsMade) (huv : u.same v = true)
    (hvw : v.same w = true) : u.same w = true := by
  induction u using Value.induction generalizing v w with
  | leaf u hleaf =>
    cases sameness_of_same huv with
    | plain => exact hvw
    | objects => exact (hleaf rfl).elim
    | numbers hab =>
      cases sameness_of_same hvw with
      | plain => exact huv
      | numbers hbc => exact Number.same_trans hab hbc
    | natives hfg =>
      cases sameness_of_same hvw with
      | plain => exact huv
      | natives hgk => exact beq_iff_eq.2 (hfg.trans hgk)
    | functions hfg =>
      cases sameness_of_same hvw with
      | plain => exact huv
      | functions hgk =>
        obtain ⟨hname, hlabel, hscope⟩ := Closure.same_iff.1 hfg
        obtain ⟨hname', hlabel', hscope'⟩ := Closure.same_iff.1 hgk
        exact Closure.same_iff.2
          ⟨hname.trans hname', hlabel.trans hlabel', hscope.trans hscope'⟩
  | object i a ih =>
    cases sameness_of_same huv with
    | plain => exact hvw
    | @objects _ j _ b =>
      cases sameness_of_same hvw with
      | plain => exact huv
      | @objects _ k _ c =>
        obtain ⟨ha, has⟩ := isMade_object_iff.1 hu
        obtain ⟨hb, hbs⟩ := isMade_object_iff.1 hv
        obtain ⟨hc, hcs⟩ := isMade_object_iff.1 hw
        rw [same_object_iff ha.wellFormed hb.wellFormed] at huv
        rw [same_object_iff hb.wellFormed hc.wellFormed] at hvw
        refine (same_object_iff ha.wellFormed hc.wellFormed).2
          (huv.trans hvw fun key x y z hx hy hz hxy hyz => ?_)
        obtain ⟨hname, hconst, hvalue⟩ := BindingOf.same_iff.1 hxy
        obtain ⟨hname', hconst', hvalue'⟩ := BindingOf.same_iff.1 hyz
        have hx := Table.value_mem_values hx
        have hy := Table.value_mem_values hy
        have hz := Table.value_mem_values hz
        exact BindingOf.same_iff.2 ⟨hname.trans hname', hconst.trans hconst',
          ih _ hx (has _ hx) (hbs _ hy) (hcs _ hz) hvalue hvalue'⟩

/-- Only values with not-a-number in them differ from themselves. -/
theorem same_self_iff (hv : v.IsMade) : v.same v = true ↔ v.HasNoNaN := by
  induction v using Value.induction with
  | leaf v hleaf =>
    simp only [HasNoNaN, nested_leaf_iff hleaf]
    cases v with
    | number n => simpa [same] using n.same_self_iff
    | object => exact (hleaf rfl).elim
    | function f => simp [same, Closure.same]
    | _ => simp [same]
  | object i a ih =>
    obtain ⟨ha, has⟩ := isMade_object_iff.1 hv
    rw [same_object_iff ha.wellFormed ha.wellFormed, ha.wellFormed.agree_self_iff,
      hasNoNaN_object_iff]
    constructor
    · intro h v hm
      obtain ⟨j, key, b, hs, rfl⟩ := Table.mem_values.1 hm
      have hb := h key b (Table.mem_entries_iff.2 ⟨j, hs⟩)
      exact (ih _ hm (has _ hm)).1 (BindingOf.same_iff.1 hb).2.2
    · intro h key b hb
      have hm := Table.value_mem_values hb
      exact BindingOf.same_iff.2 ⟨rfl, rfl, (ih _ hm (has _ hm)).2 (h _ hm)⟩

end Value

/-- **Equality does not depend on how tables came about.** Two tables are equal if they have the
same keys with values that are equal pair by pair, whatever their capacities and slots; so equality
of tables is symmetric and transitive if that of the values is. Objects are equal if their tables
are, equality of values is symmetric and transitive, and the values that are equal to themselves are
those without not-a-number in them. -/
theorem equality_extensional :
    (∀ (α : Type) (same : α → α → Bool) (a b : Table α), a.Made → b.Made →
      (a.sameBy same b = true ↔ a.Agree same b)) ∧
    (∀ (α : Type) (same : α → α → Bool), (∀ v w, same v w = true → same w v = true) →
      ∀ a b : Table α, a.Made → b.Made → a.sameBy same b = true → b.sameBy same a = true) ∧
    (∀ (α : Type) (same : α → α → Bool),
      (∀ u v w, same u v = true → same v w = true → same u w = true) →
      ∀ a b c : Table α, a.Made → b.Made → c.Made → a.sameBy same b = true →
        b.sameBy same c = true → a.sameBy same c = true) ∧
    (∀ (i j : ObjectId) (a b : Table Binding), a.Made → b.Made →
      ((Value.object i a).same (.object j b) = true ↔ a.Agree BindingOf.same b)) ∧
    (∀ v w : Value, v.IsMade → w.IsMade → v.same w = true → w.same v = true) ∧
    (∀ u v w : Value, u.IsMade → v.IsMade → w.IsMade → u.same v = true → v.same w = true →
      u.same w = true) ∧
    ∀ v : Value, v.IsMade → (v.same v = true ↔ v.HasNoNaN) := by
  refine ⟨fun α same a b ha hb => ha.wellFormed.sameBy_iff hb.wellFormed,
    fun α same hsymm a b ha hb hab => ?_, fun α same htrans a b c ha hb hc hab hbc => ?_,
    fun i j a b ha hb => Value.same_object_iff ha.wellFormed hb.wellFormed,
    fun v w => Value.same_symm, fun u v w => Value.same_trans, fun v => Value.same_self_iff⟩
  · have hagree := (ha.wellFormed.sameBy_iff hb.wellFormed).1 hab
    exact (hb.wellFormed.sameBy_iff ha.wellFormed).2
      (hagree.symm fun _ v w _ _ hvw => hsymm v w hvw)
  · have hab := (ha.wellFormed.sameBy_iff hb.wellFormed).1 hab
    have hbc := (hb.wellFormed.sameBy_iff hc.wellFormed).1 hbc
    exact (ha.wellFormed.sameBy_iff hc.wellFormed).2
      (hab.trans hbc fun _ u v w _ _ _ huv hvw => htrans u v w huv hvw)

/-- A full table, and one with room and a tombstone that got the keys in another order. -/
theorem equality_extensional_reordered :
    let a : Table Nat := (Table.withCapacity 2).after [.set "x" 1, .set "y" 2]
    let b : Table Nat :=
      (Table.withCapacity 5).after [.set "y" 2, .set "z" 3, .delete "z", .set "x" 1]
    a.Made ∧ b.Made ∧ a.sameBy (· == ·) b = true ∧ a.Agree (· == ·) b := by
  intro a b
  have ha : a.Made := (Table.Made.withCapacity 2).after _
  have hb : b.Made := (Table.Made.withCapacity 5).after _
  have hab : a.sameBy (· == ·) b = true := by decide +kernel
  exact ⟨ha, hb, hab, (equality_extensional.1 Nat (· == ·) a b ha hb).1 hab⟩

end Treewalk
