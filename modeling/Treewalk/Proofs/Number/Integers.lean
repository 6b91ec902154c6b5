import Mathlib.Data.List.TakeWhile
import Treewalk.Proofs.Number.Whole
import Treewalk.Value.Binary

/-!
# Integers are read back from their text

A whole number without the tag is shown as the decimal text of its exact value. The text is a
numeral, also with blank characters around it, and the number that it is a numeral for is equal to
the one shown: the exact value has no more than 53 significant bits, since it is that of a number
already, and so it is kept when it is made a number again.

* `Text.trim_append`: blank characters are removed at both ends, and no others.
* `Numeral.integer?_toString`: the text of an integer is read as the integer.
* `Binary64.IsInt.ofInt`, `Binary64.IsInt.equal_eq`: exact values are kept and compared.

Main statement: `integers_read_back`.
-/

namespace Treewalk

/-! ## Blank characters -/

namespace Text

/-- The blank characters below code point 128 are a space and those before it. -/
theorem isBlank_eq_false {c : Char} (h : 0x20 < c.toNat) (h' : c.toNat < 0x80) :
    isBlank c = false := by
  simp only [isBlank, blankRanges, List.any_cons, List.any_nil, Bool.or_eq_false_iff,
    Bool.and_eq_false_iff, decide_eq_false_iff_not, and_true]
  omega

theorem isBlank_eq_false_of_isDigit {c : Char} (h : c.isDigit = true) : isBlank c = false := by
  obtain ⟨hlow, hhigh⟩ := Char.isDigit_iff_toNat.1 h
  exact isBlank_eq_false (Nat.lt_of_lt_of_le (by decide) hlow)
    (Nat.lt_of_le_of_lt hhigh (by decide))

theorem dropWhile_isBlank_append {before cs : List Char} (hb : ∀ c ∈ before, isBlank c = true)
    (hcs : ∀ c ∈ cs, isBlank c = false) (after : List Char) (hne : cs ≠ []) :
    (before ++ (cs ++ after)).dropWhile isBlank = cs ++ after := by
  rw [List.dropWhile_append_of_pos hb]
  cases cs with
  | nil => exact absurd rfl hne
  | cons c cs => exact List.dropWhile_cons_of_neg (by simp [hcs c List.mem_cons_self])

/-- Blank characters are removed at both ends, and no others. -/
theorem trim_append {before cs after : List Char} (hb : ∀ c ∈ before, isBlank c = true)
    (ha : ∀ c ∈ after, isBlank c = true) (hcs : ∀ c ∈ cs, isBlank c = false) (hne : cs ≠ []) :
    trim (before ++ cs ++ after) = cs := by
  have hback : ((cs ++ after).reverse).dropWhile isBlank = cs.reverse := by
    have h := dropWhile_isBlank_append (fun c hc => ha c (List.mem_reverse.1 hc))
      (fun c hc => hcs c (List.mem_reverse.1 hc)) [] (mt List.reverse_eq_nil_iff.1 hne)
    rwa [List.append_nil, ← List.reverse_append] at h
  rw [trim, List.append_assoc, dropWhile_isBlank_append hb hcs after hne, hback,
    List.reverse_reverse]

end Text

/-! ## Integers as numerals -/

namespace Numeral

theorem splitSign_of_isDigit {cs : List Char} (h : ∀ c ∈ cs, c.isDigit = true) :
    splitSign cs = (false, cs) := by
  unfold splitSign
  split
  · exact absurd (h '-' List.mem_cons_self) (by decide)
  · exact absurd (h '+' List.mem_cons_self) (by decide)
  · rfl

/-- Digits are one or more, and nothing else is among them. -/
theorem digits?_eq_some_iff {cs digits : List Char} :
    digits? cs = some digits ↔ digits = cs ∧ cs ≠ [] ∧ ∀ c ∈ cs, c.isDigit = true := by
  rw [digits?, Option.ite_none_right_eq_some, Bool.and_eq_true, Bool.not_eq_true',
    List.isEmpty_eq_false_iff, List.all_eq_true, Option.some_inj]
  exact ⟨fun ⟨h, heq⟩ => ⟨heq.symm, h⟩, fun ⟨heq, h⟩ => ⟨h, heq.symm⟩⟩

theorem digits?_eq_some {digits : List Char} (nonempty : digits ≠ [])
    (isDigit : ∀ c ∈ digits, c.isDigit = true) : digits? digits = some digits :=
  digits?_eq_some_iff.2 ⟨rfl, nonempty, isDigit⟩

/-- The digits of a number are read as what they spell. -/
theorem digits?_toDigits (n : Nat) : digits? (Nat.toDigits 10 n) = some (Nat.toDigits 10 n) :=
  digits?_eq_some Nat.toDigits_ne_nil fun _ => Text.isDigit_of_mem_toDigits

/-- The text of an integer: a minus sign if it is negative, and the digits of its size. -/
theorem toList_toString (k : Int) :
    (toString k).toList = (if k < 0 then ['-'] else []) ++ Nat.toDigits 10 k.natAbs := by
  rw [Int.toString_eq_repr, Int.repr_eq_if]
  by_cases h : k < 0
  · rw [if_neg (by omega), if_pos h, String.toList_append, Nat.toList_repr,
      show (-k).toNat = k.natAbs by omega]
    rfl
  · rw [if_pos (by omega), if_neg h, Nat.toList_repr, show k.toNat = k.natAbs by omega]
    rfl

theorem splitSign_toString (k : Int) :
    splitSign (toString k).toList = (decide (k < 0), Nat.toDigits 10 k.natAbs) := by
  rw [toList_toString]
  by_cases h : k < 0
  · rw [if_pos h, decide_eq_true h]
    rfl
  · rw [if_neg h, decide_eq_false h]
    exact splitSign_of_isDigit fun c hc => Text.isDigit_of_mem_toDigits hc

/-- The text of an integer is read as the integer. -/
theorem integer?_toString (k : Int) : integer? (toString k).toList = some k := by
  rw [integer?, splitSign_toString]
  dsimp only
  rw [digits?_toDigits, Option.map_some, Text.spelled_toDigits, signed_natAbs]

/-- The characters of an integer's text. -/
theorem isDigit_of_mem_toString {k : Int} {c : Char} (h : c ∈ (toString k).toList) :
    c = '-' ∨ c.isDigit = true := by
  rw [toList_toString, List.mem_append] at h
  obtain h | h := h
  · split at h
    · exact .inl (List.mem_singleton.1 h)
    · cases h
  · exact .inr (Text.isDigit_of_mem_toDigits h)

/-- The text of an integer of 64 bits, with blank characters around it, is a numeral for it. -/
theorem parse?_toString {k : Int} (hlow : -2 ^ 63 ≤ k) (hhigh : k < 2 ^ 63)
    {before after : String} (hb : ∀ c ∈ before.toList, Text.isBlank c = true)
    (ha : ∀ c ∈ after.toList, Text.isBlank c = true) :
    parse? (before ++ toString k ++ after) = some (.int k) := by
  have hblank : ∀ c ∈ (toString k).toList, Text.isBlank c = false := by
    intro c hc
    obtain rfl | hc := isDigit_of_mem_toString hc
    · decide
    · exact Text.isBlank_eq_false_of_isDigit hc
  have hne : (toString k).toList ≠ [] := by
    rw [toList_toString]
    exact List.append_ne_nil_of_right_ne_nil _ Nat.toDigits_ne_nil
  have hpoint : (toString k).toList.contains '.' = false := by
    rw [List.contains_eq_mem, decide_eq_false_iff_not]
    intro hc
    obtain hc | hc := isDigit_of_mem_toString hc
    · cases hc
    · cases hc
  have hrange : -2 ^ 63 ≤ k ∧ k < 2 ^ 63 := ⟨hlow, hhigh⟩
  rw [parse?, String.toList_append, String.toList_append, Text.trim_append hb ha hblank hne,
    hpoint, integer?_toString]
  exact if_pos hrange

end Numeral

/-! ## Exact values -/

namespace Binary64

/-- The exact value of a number is kept when it is made a number again. -/
theorem IsInt.ofInt {x : Binary64} {k : Int} (h : x.IsInt k) : (Binary64.ofInt k).IsInt k := by
  obtain ⟨negative, m, -, hs⟩ := h
  have hquanta : k.natAbs * one = m.quanta := by
    have hnat := congrArg Int.natAbs hs
    rw [Int.natAbs_mul, Int.natAbs_natCast] at hnat
    rw [← hnat, Magnitude.signed]
    split
    · rw [Int.natAbs_neg, Int.natAbs_natCast]
    · rw [Int.natAbs_natCast]
  have hkept := roundQuotient_of_significant m.significant Nat.one_pos
  rw [Nat.mul_one, ← hquanta] at hkept
  refine ⟨k < 0, ⟨k.natAbs * one, hquanta ▸ m.in_range, hquanta ▸ m.significant⟩, ?_, ?_⟩
  · have hrange : roundQuotient (k.natAbs * one) 1 < overflow := by
      rw [hkept, hquanta]
      exact m.in_range
    rw [Binary64.ofInt, ofQuotient, dif_pos hrange]
    congr
  · rw [Magnitude.signed]
    push_cast
    by_cases hk : k < 0
    · rw [if_pos (decide_eq_true hk), abs_of_neg hk, Int.neg_mul, Int.neg_neg]
    · rw [if_neg (by simpa using hk), abs_of_nonneg (Int.not_lt.1 hk)]

/-- Exact values are equal as numbers if they are equal. -/
theorem IsInt.equal_eq {x y : Binary64} {j k : Int} (hx : x.IsInt j) (hy : y.IsInt k) :
    x.equal y = decide (j = k) := by
  obtain ⟨a, m, rfl, hm⟩ := hx
  obtain ⟨b, m', rfl, hm'⟩ := hy
  have hone : (one : Int) ≠ 0 := Int.natCast_ne_zero.2 one_pos.ne'
  rw [equal, compare?, hm, hm', decide_eq_decide, Option.some_inj, Int.compare_eq_eq]
  exact mul_left_inj' hone

end Binary64

namespace BinaryOperator

/-- Which numbers the text of a number's exact value denotes, with blank characters around it. -/
theorem denotes_toString {x : Binary64} {n : Number} {j k : Int} (hx : x.IsInt j)
    (hlow : -2 ^ 63 ≤ j) (hhigh : j < 2 ^ 63) (hn : n.raw.IsInt k) {before after : String}
    (hb : ∀ c ∈ before.toList, Text.isBlank c = true)
    (ha : ∀ c ∈ after.toList, Text.isBlank c = true) :
    denotes (before ++ toString j ++ after) n = decide (j = k) := by
  rewrite [denotes, Numeral.parse?_toString hlow hhigh hb ha, Option.any_some, Number.raw_int]
  exact hx.ofInt.equal_eq hn

end BinaryOperator

/-- **Integers are read back from their text.** The exact value of a whole number without the tag
is an integer of 64 bits. Joined to the empty string on either side, the number gives the decimal
text of this integer. The text is equal to the number on either side of `==`, also with blank
characters around it. The text of another such number is equal to it just if the exact values are
equal, and just if the numbers are. -/
theorem integers_read_back {n : Number} (hn : n.isFloat = false)
    (hw : n.raw.isIntegral = true) :
    let k := n.toInt
    n.raw.IsInt k ∧ -2 ^ 63 ≤ k ∧ k < 2 ^ 63 ∧
      BinaryOperator.apply .add (.string "") (.number n) = .ok (.string (toString k)) ∧
      BinaryOperator.apply .add (.number n) (.string "") = .ok (.string (toString k)) ∧
      (∀ before after : String, (∀ c ∈ before.toList, Text.isBlank c = true) →
        (∀ c ∈ after.toList, Text.isBlank c = true) →
        let text := before ++ toString k ++ after
        BinaryOperator.apply .eq (.string text) (.number n) = .ok (.bool true) ∧
          BinaryOperator.apply .eq (.number n) (.string text) = .ok (.bool true)) ∧
      ∀ m : Number, m.isFloat = false → m.raw.isIntegral = true →
        let equal : Except ErrorCause Value := .ok (.bool (decide (m.toInt = k)))
        m.raw.IsInt m.toInt ∧
          BinaryOperator.apply .add (.string "") (.number m) = .ok (.string (toString m.toInt)) ∧
          BinaryOperator.apply .eq (.string (toString m.toInt)) (.number n) = equal ∧
          BinaryOperator.apply .eq (.number m) (.number n) = equal := by
  intro k
  have htext : ∀ {m : Number}, m.isFloat = false → m.text = toString m.toInt := fun hm => by
    rw [Number.text, hm]
    rfl
  have hempty : ∀ c ∈ "".toList, Text.isBlank c = true := fun c hc => by cases hc
  obtain ⟨hk, hlow, hhigh⟩ := Binary64.isInt_toInt64 (n.fits hn) hw
  refine ⟨hk, hlow, hhigh, ?_, ?_, fun before after hb ha => ?_, fun m hm hmw => ?_⟩
  · exact congrArg (Except.ok ∘ Value.string) ((String.empty_append ..).trans (htext hn))
  · exact congrArg (Except.ok ∘ Value.string) ((String.append_empty ..).trans (htext hn))
  · have hdenotes := BinaryOperator.denotes_toString hk hlow hhigh hk hb ha
    rw [decide_eq_true rfl] at hdenotes
    exact ⟨congrArg (Except.ok ∘ Value.bool) hdenotes, congrArg (Except.ok ∘ Value.bool) hdenotes⟩
  · obtain ⟨hj, hlow', hhigh'⟩ := Binary64.isInt_toInt64 (m.fits hm) hmw
    have hdenotes := BinaryOperator.denotes_toString hj hlow' hhigh' hk hempty hempty
    rw [String.empty_append, String.append_empty] at hdenotes
    refine ⟨hj, ?_, ?_, ?_⟩
    · exact congrArg (Except.ok ∘ Value.string) ((String.empty_append ..).trans (htext hm))
    · exact congrArg (Except.ok ∘ Value.bool) hdenotes
    · exact congrArg (Except.ok ∘ Value.bool) (hj.equal_eq hk)

/-- The least integer is read back from its text between blank characters. Negative zero is shown
as zero, which is not equal to the least integer. -/
theorem integers_read_back_least :
    let least : Number := .int (-2 ^ 63)
    let zero : Number := .negate (.int 0)
    least.isFloat = false ∧ least.raw.isIntegral = true ∧ zero.isFloat = false ∧
      zero.raw.isIntegral = true ∧ zero.raw = .zero true ∧
      (∀ c ∈ "\t\u2003".toList, Text.isBlank c = true) ∧
      BinaryOperator.apply .eq (.string ("\t\u2003" ++ toString (-2 ^ 63 : Int) ++ ""))
        (.number least) = .ok (.bool true) ∧
      BinaryOperator.apply .add (.string "") (.number zero) = .ok (.string (toString (0 : Int))) ∧
      BinaryOperator.apply .eq (.string (toString (0 : Int))) (.number least) =
        .ok (.bool false) := by
  intro least zero
  have hn : least.isFloat = false := by decide +kernel
  have hw : least.raw.isIntegral = true := by decide +kernel
  have hz : zero.isFloat = false := by decide +kernel
  have hzw : zero.raw.isIntegral = true := by decide +kernel
  have hleast : least.toInt = -2 ^ 63 := by decide +kernel
  have hzero : zero.toInt = 0 := by decide +kernel
  have hblank : ∀ c ∈ "\t\u2003".toList, Text.isBlank c = true :=
    List.all_eq_true.1 (by decide)
  obtain ⟨-, -, -, -, -, hread, hother⟩ := integers_read_back hn hw
  obtain ⟨-, htext, hne, -⟩ := hother zero hz hzw
  have heq := (hread "\t\u2003" "" hblank fun c hc => by cases hc).1
  rw [hleast] at heq
  rw [hzero] at htext
  rw [hzero, hleast] at hne
  exact ⟨hn, hw, hz, hzw, by decide +kernel, hblank, heq, htext, hne⟩

end Treewalk
