import Treewalk.Proofs.Number.Whole
import Treewalk.Value.Binary

/-!
# What binary operators give and how they fail

Both operands decide together what an operator does. They are computed with as numbers if one is a
number and the other a number or a boolean. Otherwise, if one of them is a string, only a few
operators are defined; two nulls can be compared; and no operator but the logical ones takes other
operands.

* `BinaryOperator.operands_cases`: these four cases, with the function that computes each of them.
* `BinaryOperator.numeric_eq_error_iff`, `BinaryOperator.withString_of_not_takesString`: failures
  of the first two.

Main statement: `binary_outcomes`.
-/

namespace Treewalk

namespace Value

variable {l r : Value}

/-- Whether two values are computed with as numbers. -/
def NumericPair (l r : Value) : Prop :=
  l.type = .number ∧ (r.type = .number ∨ r.type = .boolean) ∨
    r.type = .number ∧ (l.type = .number ∨ l.type = .boolean)

/-- Whether one of two values is a string. -/
def HasString (l r : Value) : Prop := l.type = .string ∨ r.type = .string

/-- Whether a value is a number with the tag. -/
def IsTagged (v : Value) : Prop := ∃ n, v = .number n ∧ n.isFloat = true

/-- Whether a value counts as zero: the number, of either sign, or false. -/
def IsZero (v : Value) : Prop :=
  v = .bool false ∨ ∃ n negative, v = .number n ∧ n.raw = .zero negative

end Value

theorem Value.NumericPair.not_hasString {l r : Value} (h : NumericPair l r) : ¬HasString l r := by
  rintro (hs | hs) <;> simp [NumericPair, hs] at h

namespace Number

/-- The number zero has either sign. -/
theorem isZero_iff {n : Number} : n.isZero = true ↔ ∃ negative, n.raw = .zero negative := by
  rw [isZero, Binary64.equal, decide_eq_true_eq]
  cases n.raw with
  | nan => simp [Binary64.compare?, Binary64.zero]
  | infinite a => cases a <;> simp [Binary64.compare?, Binary64.zero]
  | finite a m =>
    have hzero : Magnitude.zero.signed false = 0 := rfl
    have hsigned : m.signed a = 0 ↔ m = Magnitude.zero := by
      rw [Magnitude.ext_quanta_iff, Magnitude.signed]
      split <;> simp [Magnitude.zero]
    simp [Binary64.compare?, Binary64.zero, hzero, hsigned]

end Number

namespace Value

variable {v : Value} {n : Number}

/-- A value that is computed with has the tag if its number does. -/
theorem isTagged_iff (h : v.number? = some n) : v.IsTagged ↔ n.isFloat = true := by
  cases v with
  | number m =>
    cases h
    simp [IsTagged]
  | bool b =>
    obtain rfl : Number.ofBool b = n := Option.some.inj h
    have hb : (Number.ofBool b).isFloat = false := by cases b <;> decide +kernel
    simp [IsTagged, hb]
  | _ => cases h

/-- A value that is computed with is zero if its number is. -/
theorem isZero_iff (h : v.number? = some n) : v.IsZero ↔ n.isZero = true := by
  cases v with
  | number m =>
    cases h
    simp [IsZero, Number.isZero_iff]
  | bool b =>
    obtain rfl : Number.ofBool b = n := Option.some.inj h
    cases b with
    | false => simp [IsZero, show (Number.ofBool false).isZero = true by decide +kernel]
    | true => simp [IsZero, show (Number.ofBool true).isZero = false by decide +kernel]
  | _ => cases h

end Value

namespace BinaryOperator

open Value

variable {op : BinaryOperator} {l r v : Value} {a b : Number} {cause : ErrorCause}

/-- Whether the operator computes a number of two. -/
def isArithmetic : BinaryOperator → Bool
  | .add | .sub | .mul | .div | .mod => true
  | _ => false

/-- Whether an operator is defined on two values of which one is a string: strict equality always
is, addition and equality on two strings, and on a string and a number. -/
def TakesString (op : BinaryOperator) (l r : Value) : Prop :=
  op = .strictEq ∨ (op = .add ∨ op = .eq) ∧
    (l.type = .string ∧ r.type = .string ∨ l.type = .string ∧ r.type = .number ∨
      l.type = .number ∧ r.type = .string)

/-- How an operator fails on two values. -/
inductive Fails (op : BinaryOperator) (l r : Value) : ErrorCause → Prop
  | modulusOfFloat (numbers : NumericPair l r) (mod : op = .mod)
      (tagged : l.IsTagged ∨ r.IsTagged) : Fails op l r (.typeError .modulusOfFloat)
  | divisionByZero (numbers : NumericPair l r) (zero : r.IsZero)
      (divides : op = .div ∨ op = .mod ∧ ¬l.IsTagged ∧ ¬r.IsTagged) : Fails op l r .divisionByZero
  | invalidOperands (strict : op.isLogical = false) (others : ¬NumericPair l r)
      (undefined : HasString l r ∧ ¬op.TakesString l r ∨
        ¬HasString l r ∧ ¬(l = .null ∧ r = .null)) :
      Fails op l r (.invalidOperands op l.type r.type)

/-- The type of what an operator gives for two values. -/
inductive Yields (op : BinaryOperator) (l r : Value) : ValueType → Prop
  | number (numbers : NumericPair l r) (arithmetic : op.isArithmetic = true) : Yields op l r .number
  | string (text : HasString l r) (add : op = .add) : Yields op l r .string
  | boolean (others : ¬(NumericPair l r ∧ op.isArithmetic = true))
      (others' : ¬(HasString l r ∧ op = .add)) : Yields op l r .boolean

/-- The four cases of two operands, with what computes an operator in each of them, in either
order. -/
inductive Operands (l r : Value) : Prop
  | numbers (a b : Number) (pair : NumericPair l r) (left : l.number? = some a)
      (right : r.number? = some b) (computed : ∀ op, byType op l r = numeric op a b)
      (exchanged : ∀ op, byType op r l = numeric op b a)
  | text (pair : ¬NumericPair l r) (text : HasString l r)
      (computed : ∀ op, byType op l r = withString op l r)
      (exchanged : ∀ op, byType op r l = withString op r l)
  | nulls (left : l = .null) (right : r = .null)
  | others (pair : ¬NumericPair l r) (text : ¬HasString l r) (nulls : ¬(l = .null ∧ r = .null))
      (computed : ∀ op, byType op l r = .error (.invalidOperands op l.type r.type))
      (exchanged : ∀ op, byType op r l = .error (.invalidOperands op r.type l.type))

theorem operands_cases (l r : Value) : Operands l r := by
  cases l with
  | number a =>
    cases r with
    | number b => exact .numbers a b (.inl ⟨rfl, .inl rfl⟩) rfl rfl (fun _ => rfl) fun _ => rfl
    | bool b => exact .numbers a _ (.inl ⟨rfl, .inr rfl⟩) rfl rfl (fun _ => rfl) fun _ => rfl
    | string => exact .text (by simp [NumericPair, type]) (.inr rfl) (fun _ => rfl) fun _ => rfl
    | _ =>
      refine .others ?_ ?_ ?_ (fun _ => rfl) fun _ => rfl <;> simp [NumericPair, HasString, type]
  | bool a =>
    cases r with
    | number b => exact .numbers _ b (.inr ⟨rfl, .inr rfl⟩) rfl rfl (fun _ => rfl) fun _ => rfl
    | string => exact .text (by simp [NumericPair, type]) (.inr rfl) (fun _ => rfl) fun _ => rfl
    | _ =>
      refine .others ?_ ?_ ?_ (fun _ => rfl) fun _ => rfl <;> simp [NumericPair, HasString, type]
  | string =>
    refine .text ?_ (.inl rfl) (fun _ => rfl) fun _ => ?_
    · simp [NumericPair, type]
    · cases r <;> rfl
  | null =>
    cases r with
    | null => exact .nulls rfl rfl
    | string => exact .text (by simp [NumericPair, type]) (.inr rfl) (fun _ => rfl) fun _ => rfl
    | _ =>
      refine .others ?_ ?_ ?_ (fun _ => rfl) fun _ => rfl <;> simp [NumericPair, HasString, type]
  | _ =>
    cases r with
    | string => exact .text (by simp [NumericPair, type]) (.inr rfl) (fun _ => rfl) fun _ => rfl
    | _ =>
      refine .others ?_ ?_ ?_ (fun _ => rfl) fun _ => rfl <;> simp [NumericPair, HasString, type]

theorem apply_eq_byType (hop : op.isLogical = false) (l r : Value) :
    op.apply l r = op.byType l r := by
  rw [apply, hop, if_neg Bool.false_ne_true]

/-- Numbers fail a remainder by their tags, and a division by a zero divisor. -/
theorem numeric_eq_error_iff :
    op.numeric a b = .error cause ↔
      op = .mod ∧ (a.isFloat = true ∨ b.isFloat = true) ∧ cause = .typeError .modulusOfFloat ∨
      (op = .div ∨ op = .mod ∧ ¬a.isFloat = true ∧ ¬b.isFloat = true) ∧ b.isZero = true ∧
        cause = .divisionByZero := by
  cases op with
  | div =>
    rw [numeric]
    cases b.isZero <;> simp [@eq_comm _ cause]
  | mod =>
    rw [numeric]
    cases a.isFloat <;> cases b.isFloat <;> cases b.isZero <;> simp [@eq_comm _ cause]
  | _ => simp [numeric]

theorem type_of_numeric (h : op.numeric a b = .ok v) :
    v.type = if op.isArithmetic then .number else .boolean := by
  cases op with
  | div =>
    rw [numeric] at h
    split at h <;> cases h
    rfl
  | mod =>
    rw [numeric] at h
    split at h
    · cases h
    · split at h <;> cases h
      rfl
  | _ =>
    cases h
    rfl

theorem withString_of_not_takesString (h : ¬op.TakesString l r) :
    op.withString l r = .error (.invalidOperands op l.type r.type) := by
  unfold withString
  split <;> simp_all [TakesString, type]

theorem exists_withString_of_takesString (h : op.TakesString l r) :
    ∃ v, op.withString l r = .ok v := by
  obtain rfl | ⟨hop, htypes⟩ := h
  · unfold withString
    split <;> simp_all
  · obtain ⟨hl, hr⟩ | ⟨hl, hr⟩ | ⟨hl, hr⟩ := htypes
    · obtain ⟨s, rfl⟩ := eq_string hl
      obtain ⟨t, rfl⟩ := eq_string hr
      rcases hop with rfl | rfl <;> exact ⟨_, rfl⟩
    · obtain ⟨s, rfl⟩ := eq_string hl
      obtain ⟨n, rfl⟩ := eq_number hr
      rcases hop with rfl | rfl <;> exact ⟨_, rfl⟩
    · obtain ⟨n, rfl⟩ := eq_number hl
      obtain ⟨s, rfl⟩ := eq_string hr
      rcases hop with rfl | rfl <;> exact ⟨_, rfl⟩

theorem type_of_withString (h : op.withString l r = .ok v) :
    v.type = if op = .add then .string else .boolean := by
  unfold withString at h
  split at h <;> cases h <;> rfl

/-- Failures of the operators that go by the types of their operands. -/
theorem byType_eq_error_iff (hop : op.isLogical = false) :
    op.byType l r = .error cause ↔ op.Fails l r cause := by
  cases operands_cases l r with
  | numbers a b pair left right computed exchanged =>
    rw [computed, numeric_eq_error_iff, ← isTagged_iff left, ← isTagged_iff right,
      ← isZero_iff right]
    constructor
    · rintro (⟨rfl, tagged, rfl⟩ | ⟨divides, zero, rfl⟩)
      · exact .modulusOfFloat pair rfl tagged
      · exact .divisionByZero pair zero divides
    · rintro (⟨-, mod, tagged⟩ | ⟨-, zero, divides⟩ | ⟨-, others, -⟩)
      · exact .inl ⟨mod, tagged, rfl⟩
      · exact .inr ⟨divides, zero, rfl⟩
      · exact absurd pair others
  | text pair text computed exchanged =>
    rw [computed]
    constructor
    · intro h
      have undefined : ¬op.TakesString l r := fun takes => by
        obtain ⟨v, hv⟩ := exists_withString_of_takesString takes
        cases hv.symm.trans h
      cases (withString_of_not_takesString undefined).symm.trans h
      exact .invalidOperands hop pair (.inl ⟨text, undefined⟩)
    · rintro (⟨numbers, -, -⟩ | ⟨numbers, -, -⟩ | ⟨-, -, ⟨-, undefined⟩ | ⟨other, -⟩⟩)
      · exact absurd numbers pair
      · exact absurd numbers pair
      · exact withString_of_not_takesString undefined
      · exact absurd text other
  | nulls left right =>
    subst left right
    constructor
    · rintro ⟨⟩
    · rintro (⟨numbers, -, -⟩ | ⟨numbers, -, -⟩ | ⟨-, -, ⟨text, -⟩ | ⟨-, other⟩⟩)
      · simp [NumericPair, type] at numbers
      · simp [NumericPair, type] at numbers
      · simp [HasString, type] at text
      · exact absurd ⟨rfl, rfl⟩ other
  | others pair text nulls computed exchanged =>
    rw [computed]
    constructor
    · rintro ⟨⟩
      exact .invalidOperands hop pair (.inr ⟨text, nulls⟩)
    · rintro (⟨numbers, -, -⟩ | ⟨numbers, -, -⟩ | -)
      · exact absurd numbers pair
      · exact absurd numbers pair
      · rfl

/-- What the operators that go by the types of their operands give. -/
theorem yields_of_byType (h : op.byType l r = .ok v) : op.Yields l r v.type := by
  cases operands_cases l r with
  | numbers a b pair left right computed exchanged =>
    rw [computed] at h
    rw [type_of_numeric h]
    split
    · next arithmetic => exact .number pair arithmetic
    · next arithmetic =>
      exact .boolean (fun other => arithmetic other.2) fun other => pair.not_hasString other.1
  | text pair text computed exchanged =>
    rw [computed] at h
    rw [type_of_withString h]
    split
    · next add => exact .string text add
    · next add => exact .boolean (fun other => pair other.1) fun other => add other.2
  | nulls left right =>
    subst left right
    cases h
    refine .boolean ?_ ?_ <;> simp [NumericPair, HasString, type]
  | others pair text nulls computed exchanged =>
    rw [computed] at h
    cases h

/-- A remainder is computed of integers only, and never by zero. -/
theorem numeric_mod_eq_ok (hb : b.IsWhole) (h : numeric .mod a b = .ok v) :
    a.isFloat = false ∧ b.isFloat = false ∧ b.toInt ≠ 0 ∧ v = .int (a.toInt.tmod b.toInt) := by
  rw [numeric] at h
  split at h
  · cases h
  · next hf =>
    rw [Bool.not_eq_true, Bool.or_eq_false_iff] at hf
    split at h
    · cases h
    · next hz =>
      cases h
      rw [Bool.not_eq_true] at hz
      exact ⟨hf.1, hf.2, hb.toInt_ne_zero hf.2 hz, rfl⟩

/-- A remainder that succeeds is one of numbers. -/
theorem mod_eq_ok_of_isWhole (hb : b.IsWhole) (hleft : l.number? = some a)
    (hright : r.number? = some b) (h : apply .mod l r = .ok v) :
    a.isFloat = false ∧ b.isFloat = false ∧ b.toInt ≠ 0 ∧ v = .int (a.toInt.tmod b.toInt) := by
  rw [apply_eq_byType rfl] at h
  cases operands_cases l r with
  | numbers a' b' pair left right computed exchanged =>
    obtain rfl : a' = a := Option.some.inj (left.symm.trans hleft)
    obtain rfl : b' = b := Option.some.inj (right.symm.trans hright)
    rw [computed] at h
    exact numeric_mod_eq_ok hb h
  | text pair text computed exchanged =>
    obtain hs | hs := text
    · obtain ⟨s, rfl⟩ := eq_string hs
      cases hleft
    · obtain ⟨s, rfl⟩ := eq_string hs
      cases hright
  | nulls left right =>
    subst left
    cases hleft
  | others pair text nulls computed exchanged =>
    rw [computed] at h
    cases h

end BinaryOperator

/-- **Binary operators fail exactly where they are meant to.** The logical operators never fail.
Every other operator fails just as `Fails` says: for a tag among the operands of a remainder, for a
divisor that is zero, or for operands that it is not defined on. All else succeeds, with a number
for arithmetic on numbers, a string for an addition with a string, and a boolean otherwise. If the
divisor is whole where it goes without the tag, a remainder that succeeds is not taken by the
integer zero, so it does not panic. -/
theorem binary_outcomes (op : BinaryOperator) (l r : Value) :
    (op.isLogical = true → ∃ b, op.apply l r = .ok (.bool b)) ∧
      (op.isLogical = false →
        (∀ cause, op.apply l r = .error cause ↔ op.Fails l r cause) ∧
          ((∀ cause, ¬op.Fails l r cause) → ∃ v, op.apply l r = .ok v ∧ op.Yields l r v.type)) ∧
      ∀ a b v, l.number? = some a → r.number? = some b → b.IsWhole →
        BinaryOperator.apply .mod l r = .ok v → b.toInt ≠ 0 := by
  refine ⟨fun hop => ⟨_, BinaryOperator.apply_of_isLogical hop l r⟩, fun hop => ?_,
    fun a b v hleft hright hb h => (BinaryOperator.mod_eq_ok_of_isWhole hb hleft hright h).2.2.1⟩
  rw [BinaryOperator.apply_eq_byType hop]
  refine ⟨fun cause => BinaryOperator.byType_eq_error_iff hop, fun hfails => ?_⟩
  cases h : op.byType l r with
  | error cause => exact absurd (BinaryOperator.byType_eq_error_iff hop |>.1 h) (hfails cause)
  | ok v => exact ⟨v, rfl, BinaryOperator.yields_of_byType h⟩

end Treewalk
