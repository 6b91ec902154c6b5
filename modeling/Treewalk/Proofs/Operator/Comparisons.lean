import Treewalk.Proofs.Operator.Outcomes
import Treewalk.Value.Equality
import Treewalk.Value.Unary

/-!
# Laws of comparisons

The two operands of an equality take different ways through the operators, depending on which of
them is the string or the boolean, and strict equality is decided apart from the other one. Still
the order of the operands does not matter, and strict equality is the finer one. All comparisons of
numbers read off one order, which is missing only if one of them is not a number.

* `BinaryOperator.Commutes`, `BinaryOperator.commutes_of_isEquality`: operands that change places.
* `BinaryOperator.ReadsOrder`, `BinaryOperator.readsOrder`: comparisons of numbers.
* `BinaryOperator.apply_strictEq_eq_same`: strict equality and equality of values.

Main statement: `comparisons_coherent`.
-/

namespace Treewalk

/-- Exchanged numbers that are less are greater. -/
theorem Binary64.less_swap (x y : Binary64) : y.less x = decide (x.compare? y = some .gt) := by
  rw [less, compare?_swap x y]
  rcases compare? x y with _ | _ | _ | _ <;> rfl

namespace BinaryOperator

open Value

variable {op : BinaryOperator} {l r : Value} {a b : Number}

/-- Whether an operator gives the same truth value in both orders of its operands, or refuses them
in both and names them as they stand. -/
def Commutes (op : BinaryOperator) (l r : Value) : Prop :=
  (∃ c, op.apply l r = .ok (.bool c) ∧ op.apply r l = .ok (.bool c)) ∨
    op.apply l r = .error (.invalidOperands op l.type r.type) ∧
      op.apply r l = .error (.invalidOperands op r.type l.type)

/-- Whether the comparisons of two values read off an order of them, which may be missing. -/
structure ReadsOrder (l r : Value) (order : Option Ordering) : Prop where
  eq : apply .eq l r = .ok (.bool (order = some .eq))
  lt : apply .lt l r = .ok (.bool (order = some .lt))
  le : apply .le l r = .ok (.bool (order = some .lt ∨ order = some .eq))
  gt : apply .gt l r = .ok (.bool (order = some .gt))
  ge : apply .ge l r = .ok (.bool (order = some .gt ∨ order = some .eq))

theorem isLogical_of_isEquality (hop : op.isEquality = true) : op.isLogical = false := by
  cases op <;> first | rfl | cases hop

/-! ## Operands that change places -/

theorem numeric_of_isEquality (hop : op.isEquality = true) (a b : Number) :
    ∃ c, op.numeric a b = .ok (.bool c) ∧ op.numeric b a = .ok (.bool c) := by
  cases op with
  | eq => exact ⟨_, rfl, by rw [numeric, Binary64.equal_comm]⟩
  | strictEq => exact ⟨_, rfl, by rw [numeric, Binary64.equal_comm, Bool.beq_comm]⟩
  | _ => cases hop

theorem TakesString.symm (h : op.TakesString l r) : op.TakesString r l := by
  obtain hop | ⟨hop, ⟨hl, hr⟩ | ⟨hl, hr⟩ | ⟨hl, hr⟩⟩ := h
  · exact .inl hop
  · exact .inr ⟨hop, .inl ⟨hr, hl⟩⟩
  · exact .inr ⟨hop, .inr (.inr ⟨hr, hl⟩)⟩
  · exact .inr ⟨hop, .inr (.inl ⟨hr, hl⟩)⟩

theorem withString_of_isEquality (hop : op.isEquality = true) (h : op.TakesString l r) :
    ∃ c, op.withString l r = .ok (.bool c) ∧ op.withString r l = .ok (.bool c) := by
  cases op with
  | strictEq =>
    cases l with
    | string s =>
      cases r with
      | string t => exact ⟨_, rfl, by rw [withString, Bool.beq_comm]⟩
      | _ => exact ⟨false, rfl, rfl⟩
    | _ => cases r <;> exact ⟨false, rfl, rfl⟩
  | eq =>
    obtain hop | ⟨hop, ⟨hl, hr⟩ | ⟨hl, hr⟩ | ⟨hl, hr⟩⟩ := h
    · cases hop
    · obtain ⟨s, rfl⟩ := eq_string hl
      obtain ⟨t, rfl⟩ := eq_string hr
      exact ⟨_, rfl, by rw [withString, Bool.beq_comm]⟩
    · obtain ⟨s, rfl⟩ := eq_string hl
      obtain ⟨n, rfl⟩ := eq_number hr
      exact ⟨_, rfl, rfl⟩
    · obtain ⟨n, rfl⟩ := eq_number hl
      obtain ⟨s, rfl⟩ := eq_string hr
      exact ⟨_, rfl, rfl⟩
  | _ => cases hop

/-- The operands of an equality may change places. -/
theorem commutes_of_isEquality (hop : op.isEquality = true) (l r : Value) : op.Commutes l r := by
  have hlogical := isLogical_of_isEquality hop
  rw [Commutes, apply_eq_byType hlogical, apply_eq_byType hlogical]
  cases operands_cases l r with
  | numbers a b pair left right computed exchanged =>
    rw [computed, exchanged]
    exact .inl (numeric_of_isEquality hop a b)
  | text pair text computed exchanged =>
    rw [computed, exchanged]
    by_cases takes : op.TakesString l r
    · exact .inl (withString_of_isEquality hop takes)
    · exact .inr ⟨withString_of_not_takesString takes,
        withString_of_not_takesString fun other => takes other.symm⟩
  | nulls left right =>
    subst left right
    exact .inl ⟨_, rfl, rfl⟩
  | others pair text nulls computed exchanged => exact .inr ⟨computed op, exchanged op⟩

/-! ## Strict equality -/

theorem withString_strictEq_eq_true (h : withString .strictEq l r = .ok (.bool true)) :
    ∃ s, l = .string s ∧ r = .string s := by
  unfold withString at h
  split at h <;> simp_all

/-- What is strictly equal is equal. -/
theorem apply_eq_of_strictEq (h : apply .strictEq l r = .ok (.bool true)) :
    apply .eq l r = .ok (.bool true) := by
  rw [apply_eq_byType rfl] at h ⊢
  cases operands_cases l r with
  | numbers a b pair left right computed exchanged =>
    rw [computed] at h ⊢
    simp only [numeric, Except.ok.injEq, Value.bool.injEq, Bool.and_eq_true] at h
    rw [numeric, h.1]
  | text pair text computed exchanged =>
    rw [computed] at h ⊢
    obtain ⟨s, rfl, rfl⟩ := withString_strictEq_eq_true h
    rw [withString, beq_self_eq_true]
  | nulls left right =>
    subst left right
    rfl
  | others pair text nulls computed exchanged =>
    rw [computed] at h
    cases h

/-- On two numbers, strings or nulls, strict equality is equality of values. -/
theorem apply_strictEq_eq_same (htype : l.type = r.type)
    (h : l.type = .number ∨ l.type = .string ∨ l.type = .null) :
    apply .strictEq l r = .ok (.bool (l.same r)) := by
  obtain h | h | h := h
  · obtain ⟨a, rfl⟩ := eq_number h
    obtain ⟨b, rfl⟩ := eq_number (htype.symm.trans h)
    rw [Value.same]
    rfl
  · obtain ⟨s, rfl⟩ := eq_string h
    obtain ⟨t, rfl⟩ := eq_string (htype.symm.trans h)
    rw [Value.same]
    rfl
  · obtain rfl := eq_null h
    obtain rfl := eq_null (htype.symm.trans h)
    rw [Value.same]
    rfl

/-! ## Order -/

/-- The comparisons of two numbers read off the order of these. -/
theorem readsOrder (computed : ∀ op, byType op l r = numeric op a b) :
    ReadsOrder l r (a.raw.compare? b.raw) where
  eq := computed .eq
  lt := computed .lt
  le := by rw [Bool.decide_or]; exact computed .le
  gt := by rw [← Binary64.less_swap]; exact computed .gt
  ge := by
    have h : apply .ge l r = .ok (.bool (b.raw.lessEqual a.raw)) := computed .ge
    rw [h, Binary64.lessEqual, Binary64.less_swap, Binary64.equal_comm, Binary64.equal,
      Bool.decide_or]

/-- Two values that are computed with as numbers are ordered the other way round if they change
places. -/
theorem exists_readsOrder (h : NumericPair l r) :
    ∃ order, ReadsOrder l r order ∧ ReadsOrder r l (order.map Ordering.swap) := by
  cases operands_cases l r with
  | numbers a b pair left right computed exchanged =>
    refine ⟨_, readsOrder computed, ?_⟩
    rw [← Binary64.compare?_swap]
    exact readsOrder exchanged
  | text pair text computed exchanged => exact absurd h pair
  | nulls left right =>
    subst left right
    simp [NumericPair, type] at h
  | others pair text nulls computed exchanged => exact absurd h pair

end BinaryOperator

open BinaryOperator

/-- **Comparisons are coherent.** Equalities give the same for both orders of their operands, and
what is strictly equal is equal. On two numbers, strings or nulls, strict equality is equality of
values. The comparisons of two values that are computed with as numbers read off one order, so less
and greater, and their weak forms, change places with the operands. Negation takes each logical
operator to the other one. -/
theorem comparisons_coherent (l r : Value) :
    (∀ op : BinaryOperator, op.isEquality = true → op.Commutes l r) ∧
      (apply .strictEq l r = .ok (.bool true) → apply .eq l r = .ok (.bool true)) ∧
      (l.type = r.type → (l.type = .number ∨ l.type = .string ∨ l.type = .null) →
        apply .strictEq l r = .ok (.bool (l.same r))) ∧
      (Value.NumericPair l r →
        (∃ order, ReadsOrder l r order ∧ ReadsOrder r l (order.map Ordering.swap)) ∧
          apply .lt l r = apply .gt r l ∧ apply .le l r = apply .ge r l) ∧
      let not := UnaryOperator.apply .not
      (∃ c, (do not (← apply .and l r)) = .ok (.bool c) ∧
        (do apply .or (← not l) (← not r)) = .ok (.bool c)) ∧
      ∃ c, (do not (← apply .or l r)) = .ok (.bool c) ∧
        (do apply .and (← not l) (← not r)) = .ok (.bool c) := by
  refine ⟨fun op hop => commutes_of_isEquality hop l r, apply_eq_of_strictEq,
    apply_strictEq_eq_same, fun h => ?_, ⟨_, rfl, ?_⟩, ⟨_, rfl, ?_⟩⟩
  · obtain ⟨order, direct, exchanged⟩ := exists_readsOrder h
    refine ⟨⟨order, direct, exchanged⟩, ?_, ?_⟩
    · rw [direct.lt, exchanged.gt]
      rcases order with _ | _ | _ | _ <;> rfl
    · rw [direct.le, exchanged.ge]
      rcases order with _ | _ | _ | _ <;> rfl
  · exact congrArg (fun c => Except.ok (Value.bool c)) (Bool.not_and ..).symm
  · exact congrArg (fun c => Except.ok (Value.bool c)) (Bool.not_or ..).symm

end Treewalk
