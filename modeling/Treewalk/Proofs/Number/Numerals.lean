import Treewalk.Proofs.Number.Integers
import Treewalk.Proofs.Number.Rounded

/-!
# Texts that are equal to numbers

A text is equal to a number if it is a numeral and the number is the one that its value is rounded
to. Without a point the numeral is an integer of 64 bits, with a point it is a float. The grammar of
both is given by relations between texts and values, which know nothing of how a text is read. The
digits of an exponent are read only up to a limit; this makes a difference for texts that are about
as long as the limit, and for no others.

* `Text.trim_spec`: the blank characters at the ends of a text do not count.
* `Numeral.integer?_eq_some_iff`, `Numeral.exists_float?`, `Numeral.exists_isFloat`: what is read is
  what the grammar says.

Main statement: `text_equal_iff`.
-/

namespace Treewalk

open Binary64 (IsRounded)

/-! ## Blank characters -/

namespace Text

/-- Blank characters are taken from both ends as long as there are some. -/
theorem trim_spec (cs : List Char) :
    ∃ before after, cs = before ++ trim cs ++ after ∧ (∀ c ∈ before ++ after, isBlank c = true) ∧
      ∀ c, c ∈ (trim cs).head? ∨ c ∈ (trim cs).getLast? → isBlank c = false := by
  have hfront := (List.takeWhile_append_dropWhile (p := isBlank) (l := cs)).symm
  have hback := (List.takeWhile_append_dropWhile (p := isBlank)
    (l := (cs.dropWhile isBlank).reverse)).symm
  have hrest : cs.dropWhile isBlank =
      trim cs ++ ((cs.dropWhile isBlank).reverse.takeWhile isBlank).reverse := by
    rw [trim, ← List.reverse_append, ← hback, List.reverse_reverse]
  refine ⟨cs.takeWhile isBlank, ((cs.dropWhile isBlank).reverse.takeWhile isBlank).reverse, ?_, ?_,
    ?_⟩
  · rwa [List.append_assoc, ← hrest]
  · intro c hc
    rw [List.mem_append, List.mem_reverse] at hc
    obtain hc | hc := hc
    · exact List.mem_takeWhile_imp hc
    · exact List.mem_takeWhile_imp hc
  · rintro c (hc | hc)
    · have hhead : (cs.dropWhile isBlank).head? = some c := by
        rw [hrest, List.head?_append, Option.mem_def.1 hc, Option.some_or]
      have hnot := List.head?_dropWhile_not isBlank cs
      rwa [hhead] at hnot
    · rw [trim, List.getLast?_reverse] at hc
      have hnot := List.head?_dropWhile_not isBlank (cs.dropWhile isBlank).reverse
      rwa [Option.mem_def.1 hc] at hnot

theorem spelled_eq_ofDigitChars (cs : List Char) : spelled cs = Nat.ofDigitChars 10 cs 0 :=
  spelled_eq_foldl cs

/-- Digits spell a number that needs no more of them. -/
theorem spelled_lt {cs : List Char} (h : ∀ c ∈ cs, c.isDigit = true) :
    spelled cs < 10 ^ cs.length := by
  induction cs using List.reverseRecOn with
  | nil => decide
  | append_singleton cs c ih =>
    have hc := (Char.isDigit_iff_toNat.1 (h c (by simp))).2
    have hvalue : spelled [c] = c.toNat - '0'.toNat := by
      rw [spelled_eq_foldl]
      exact Nat.zero_add _
    have hcs := ih fun d hd => h d (List.mem_append_left _ hd)
    rw [spelled_append, hvalue, List.length_append, List.length_singleton, pow_add, pow_one]
    rw [show '9'.toNat = 57 from rfl] at hc
    rw [show '0'.toNat = 48 from rfl]
    omega

end Text

/-! ## The grammar -/

namespace Numeral

/-- A plus sign, a minus sign or none. -/
inductive IsSign : List Char → Bool → Prop
  | none : IsSign [] false
  | plus : IsSign ['+'] false
  | minus : IsSign ['-'] true

/-- A sign or none and one or more digits, with the integer that they stand for. -/
inductive IsInteger : List Char → ℤ → Prop
  | mk {sign digits : List Char} {negative : Bool} (front : IsSign sign negative)
    (nonempty : digits ≠ []) (isDigit : ∀ c ∈ digits, c.isDigit = true) :
    IsInteger (sign ++ digits) (signed negative (Nat.ofDigitChars 10 digits 0))

/-- Nothing, or one of the two letters and an integer, with the power of ten. -/
inductive IsExponent : List Char → ℤ → Prop
  | none : IsExponent [] 0
  | some {letter : Char} {cs : List Char} {power : ℤ} (front : letter = 'e' ∨ letter = 'E')
    (integer : IsInteger cs power) : IsExponent (letter :: cs) power

/-- A sign or none, digits with one point among them and an exponent or none, with the power of ten
of the exponent and the number that they stand for. -/
inductive IsFloat : List Char → ℤ → ℚ → Prop
  | mk {sign whole fraction exponent : List Char} {negative : Bool} {power : ℤ}
    (front : IsSign sign negative) (nonempty : whole ++ fraction ≠ [])
    (isDigit : ∀ c ∈ whole ++ fraction, c.isDigit = true) (back : IsExponent exponent power) :
    IsFloat (sign ++ (whole ++ '.' :: (fraction ++ exponent))) power
      (signed negative (Nat.ofDigitChars 10 (whole ++ fraction) 0) * 10 ^ (power - fraction.length))

/-! ## Signs and digits -/

variable {sign digits cs rest : List Char} {negative : Bool} {k power read : ℤ}

/-- A sign is split off what does not begin with one. -/
theorem splitSign_append (h : IsSign sign negative) (hrest : ∀ c ∈ rest.head?, c ≠ '-' ∧ c ≠ '+') :
    splitSign (sign ++ rest) = (negative, rest) := by
  cases h with
  | none =>
    rw [List.nil_append]
    unfold splitSign
    split
    · exact absurd rfl (hrest '-' rfl).1
    · exact absurd rfl (hrest '+' rfl).2
    · rfl
  | plus => rfl
  | minus => rfl

theorem exists_isSign (cs : List Char) :
    ∃ sign, cs = sign ++ (splitSign cs).2 ∧ IsSign sign (splitSign cs).1 := by
  unfold splitSign
  split
  · exact ⟨['-'], rfl, .minus⟩
  · exact ⟨['+'], rfl, .plus⟩
  · exact ⟨[], rfl, .none⟩

theorem ne_sign_of_isDigit {c : Char} (h : c.isDigit = true) : c ≠ '-' ∧ c ≠ '+' := by
  constructor
  · rintro rfl
    cases h
  · rintro rfl
    cases h

theorem splitSign_digits (front : IsSign sign negative)
    (isDigit : ∀ c ∈ digits, c.isDigit = true) : splitSign (sign ++ digits) = (negative, digits) :=
  splitSign_append front fun c hc => ne_sign_of_isDigit (isDigit c (List.mem_of_mem_head? hc))

theorem isInteger_of_digits? (h : digits? (splitSign cs).2 = some digits) :
    IsInteger cs (signed (splitSign cs).1 (Nat.ofDigitChars 10 digits 0)) := by
  obtain ⟨sign, hcs, front⟩ := exists_isSign cs
  obtain ⟨rfl, nonempty, isDigit⟩ := digits?_eq_some_iff.1 h
  have hinteger := IsInteger.mk front nonempty isDigit
  rwa [← hcs] at hinteger

/-- The integers of any size are read as the grammar says. -/
theorem integer?_eq_some_iff : integer? cs = some k ↔ IsInteger cs k := by
  constructor
  · intro h
    obtain ⟨digits, hdigits, rfl⟩ := Option.map_eq_some_iff.1 h
    rw [Text.spelled_eq_ofDigitChars]
    exact isInteger_of_digits? hdigits
  · rintro ⟨front, nonempty, isDigit⟩
    rw [integer?, splitSign_digits front isDigit, ← Text.spelled_eq_ofDigitChars]
    dsimp only
    rw [digits?_eq_some nonempty isDigit, Option.map_some]

/-- The characters of an integer. -/
theorem IsInteger.chars (h : IsInteger cs k) :
    (∃ c ∈ cs, c.isDigit = true) ∧ ∀ c ∈ cs, c.isDigit = true ∨ c = '+' ∨ c = '-' := by
  obtain @⟨sign, digits, _, front, nonempty, isDigit⟩ := h
  constructor
  · obtain ⟨c, hc⟩ := List.exists_mem_of_ne_nil digits nonempty
    exact ⟨c, List.mem_append_right sign hc, isDigit c hc⟩
  · intro c hc
    obtain hc | hc := List.mem_append.1 hc
    · cases front with
      | none => cases hc
      | plus => exact .inr (.inl (List.mem_singleton.1 hc))
      | minus => exact .inr (.inr (List.mem_singleton.1 hc))
    · exact .inl (isDigit c hc)

/-- A text stands for one integer. -/
theorem IsInteger.unique {j : ℤ} (h : IsInteger cs k) (h' : IsInteger cs j) : k = j :=
  Option.some.inj ((integer?_eq_some_iff.2 h).symm.trans (integer?_eq_some_iff.2 h'))

/-! ## Exponents -/

/-- Whether an exponent was read, or both the exponent and what was read for it are out of the range
of the numbers, in the same direction. -/
def Clips (power read : ℤ) : Prop :=
  read = power ∨ (exponentLimit : ℤ) ≤ read ∧ 10 * (exponentLimit : ℤ) ≤ power ∨
    read ≤ -(exponentLimit : ℤ) ∧ power ≤ -(10 * (exponentLimit : ℤ))

/-- The size of an exponent is that of the digits, if it is not stopped at its limit. -/
theorem exponentSize_spec (digits : List Char) :
    exponentSize digits = Text.spelled digits ∨
      exponentLimit ≤ exponentSize digits ∧ 10 * exponentLimit ≤ Text.spelled digits := by
  rw [Text.spelled_eq_foldl, exponentSize]
  induction digits using List.reverseRecOn with
  | nil => exact .inl rfl
  | append_singleton digits c ih =>
    rw [List.foldl_append, List.foldl_append]
    generalize digits.foldl _ 0 = size at ih ⊢
    generalize digits.foldl Text.appendDigit 0 = n at ih ⊢
    simp only [List.foldl_cons, List.foldl_nil, Text.appendDigit]
    split
    · next hsize =>
      obtain rfl : size = n := by omega
      exact .inl rfl
    · next hsize => exact .inr ⟨by omega, by omega⟩

theorem exponent?_cons {letter : Char} (h : letter = 'e' ∨ letter = 'E') (cs : List Char) :
    exponent? (letter :: cs) =
      (digits? (splitSign cs).2).map fun digits =>
        signed (splitSign cs).1 (exponentSize digits) := by
  rcases h with rfl | rfl <;> rfl

/-- An exponent of the grammar is read, and read as itself unless it is far out of range. -/
theorem exponent?_of_isExponent (h : IsExponent cs power) :
    ∃ read, exponent? cs = some read ∧ Clips power read := by
  cases h with
  | none => exact ⟨0, rfl, .inl rfl⟩
  | some front integer =>
    obtain @⟨sign, digits, negative, hsign, nonempty, isDigit⟩ := integer
    rw [exponent?_cons front, splitSign_digits hsign isDigit, digits?_eq_some nonempty isDigit,
      ← Text.spelled_eq_ofDigitChars]
    refine ⟨signed negative (exponentSize digits), rfl, ?_⟩
    rcases exponentSize_spec digits with heq | ⟨hsize, hspelled⟩
    · exact .inl (congrArg _ heq)
    · cases negative with
      | false =>
        refine .inr (.inl ?_)
        rw [signed, signed, if_neg Bool.false_ne_true, if_neg Bool.false_ne_true]
        omega
      | true =>
        refine .inr (.inr ?_)
        rw [signed, signed, if_pos rfl, if_pos rfl]
        omega

/-- What is read as an exponent is one of the grammar. -/
theorem exists_isExponent (h : exponent? cs = some read) : ∃ power, IsExponent cs power := by
  unfold exponent? at h
  split at h
  · exact ⟨0, .none⟩
  · obtain ⟨digits, hdigits, -⟩ := Option.map_eq_some_iff.1 h
    exact ⟨_, .some (.inl rfl) (isInteger_of_digits? hdigits)⟩
  · obtain ⟨digits, hdigits, -⟩ := Option.map_eq_some_iff.1 h
    exact ⟨_, .some (.inr rfl) (isInteger_of_digits? hdigits)⟩
  · cases h

/-! ## Floats -/

variable {whole fraction exponent : List Char} {v : Binary64} {x : ℚ}

/-- Digits are read as far as they go. -/
theorem span_isDigit (isDigit : ∀ c ∈ digits, c.isDigit = true)
    (hrest : ∀ c ∈ rest.head?, c.isDigit = false) :
    (digits ++ rest).takeWhile Char.isDigit = digits ∧
      (digits ++ rest).dropWhile Char.isDigit = rest := by
  rw [List.takeWhile_append_of_pos isDigit, List.dropWhile_append_of_pos isDigit]
  cases rest with
  | nil => exact ⟨List.append_nil _, rfl⟩
  | cons c rest =>
    have hc : ¬c.isDigit = true := by rw [hrest c rfl]; exact Bool.false_ne_true
    rw [List.takeWhile_cons_of_neg hc, List.append_nil, List.dropWhile_cons_of_neg hc]
    exact ⟨rfl, rfl⟩

/-- The parts of a float are read one by one. -/
theorem float?_append (front : IsSign sign negative) (nonempty : whole ++ fraction ≠ [])
    (isDigit : ∀ c ∈ whole ++ fraction, c.isDigit = true)
    (hback : ∀ c ∈ exponent.head?, c.isDigit = false) :
    float? (sign ++ (whole ++ '.' :: (fraction ++ exponent))) =
      (exponent? exponent).map fun power =>
        Binary64.ofDecimal negative (Text.spelled (whole ++ fraction))
          (power - fraction.length) := by
  have hwhole := fun c hc => isDigit c (List.mem_append_left fraction hc)
  have hfraction := fun c hc => isDigit c (List.mem_append_right whole hc)
  have hsign : ∀ c ∈ (whole ++ '.' :: (fraction ++ exponent)).head?, c ≠ '-' ∧ c ≠ '+' := by
    intro c hc
    rw [List.head?_append] at hc
    cases whole with
    | nil =>
      obtain rfl : '.' = c := Option.some.inj hc
      decide
    | cons d whole =>
      obtain rfl : d = c := Option.some.inj hc
      exact ne_sign_of_isDigit (hwhole d List.mem_cons_self)
  have hpoint : ∀ c ∈ ('.' :: (fraction ++ exponent)).head?, c.isDigit = false := by simp
  obtain ⟨htake, hdrop⟩ := span_isDigit hfraction hback
  rw [float?, splitSign_append front hsign]
  simp only [span_isDigit hwhole hpoint, htake, hdrop]
  rw [if_neg (mt List.isEmpty_iff.1 nonempty)]
  cases exponent? exponent <;> rfl

/-- What is read as a float is one of the grammar. -/
theorem exists_isFloat (h : float? cs = some v) : ∃ power x, IsFloat cs power x := by
  obtain ⟨sign, hcs, front⟩ := exists_isSign cs
  rw [float?] at h
  generalize splitSign cs = r at hcs front h
  obtain ⟨negative, rest⟩ := r
  dsimp only at hcs front h
  split at h
  · next behind hrest =>
    split at h
    · cases h
    · next hnonempty =>
      obtain ⟨read, hread, -⟩ := Option.bind_eq_some_iff.1 h
      obtain ⟨power, back⟩ := exists_isExponent hread
      rw [List.isEmpty_iff] at hnonempty
      rw [hcs, ← List.takeWhile_append_dropWhile (p := Char.isDigit) (l := rest), hrest,
        ← List.takeWhile_append_dropWhile (p := Char.isDigit) (l := behind)]
      refine ⟨power, _, .mk front hnonempty (fun c hc => ?_) back⟩
      obtain hc | hc := List.mem_append.1 hc
      · exact List.mem_takeWhile_imp hc
      · exact List.mem_takeWhile_imp hc
  · cases h

/-- What an exponent begins with is not a digit. -/
theorem IsExponent.head (h : IsExponent cs power) : ∀ c ∈ cs.head?, c.isDigit = false := by
  cases h with
  | none => exact fun c hc => by cases hc
  | @some letter _ _ front _ =>
    intro c hc
    obtain rfl : letter = c := Option.some.inj hc
    rcases front with rfl | rfl <;> decide

theorem IsFloat.mem (h : IsFloat cs power x) : '.' ∈ cs := by
  obtain @⟨sign, whole, fraction, exponent, -, -, -, -, -, -⟩ := h
  exact List.mem_append_right sign (List.mem_append_right whole List.mem_cons_self)

/-- A decimal whose exponent is clipped is rounded to the same number as with the exponent that was
read, if its digits are so few that both are far out of range. -/
theorem isRounded_clipped {n length places : ℕ} (hn : n < 10 ^ (length + places))
    (hclips : Clips power read) (hlength : read ≠ power → length + places + 330 ≤ exponentLimit) :
    IsRounded (signed negative n * 10 ^ (power - places))
      (Binary64.ofDecimal negative n (read - places)) := by
  have hread := Binary64.isRounded_ofDecimal negative n (read - places)
  by_cases heq : read = power
  · rwa [← heq]
  have hlength := hlength heq
  rcases Nat.eq_zero_or_pos n with rfl | hpos
  · have hzero : signed negative 0 = 0 := by cases negative <;> rfl
    rw [hzero, Int.cast_zero, zero_mul] at hread ⊢
    exact hread
  have hlimit : exponentLimit = 65536 := rfl
  obtain heq' | ⟨hhigh, hhigh'⟩ | ⟨hlow, hlow'⟩ := hclips
  · exact absurd heq' heq
  · have hlarge : ∀ e : ℤ, 65536 ≤ e →
        IsRounded (signed negative n * 10 ^ (e - places)) (.infinite negative) := fun e he =>
      Binary64.isRounded_infinite (Binary64.ten_pow_le_mul (k := 0) hpos (by omega))
    exact ((hlarge power (by omega)).congr (hlarge read (by omega))).2 hread
  · have hsmall : ∀ e : ℤ, e ≤ -65536 →
        IsRounded (signed negative n * 10 ^ (e - places)) (.zero false) := fun e he =>
      Binary64.isRounded_zero (zpow_pos (by norm_num) _)
        (Binary64.mul_le_ten_zpow hn (by push_cast; omega))
    exact ((hsmall power (by omega)).congr (hsmall read (by omega))).2 hread

/-- Floats of the grammar are read, and rounded to the nearest number unless the exponent is clipped
in a text about as long as its limit. -/
theorem exists_float? (h : IsFloat cs power x) :
    ∃ v, float? cs = some v ∧
      (power.natAbs < 10 * exponentLimit ∨ cs.length + 330 ≤ exponentLimit → IsRounded x v) := by
  obtain @⟨sign, whole, fraction, exponent, negative, power, front, nonempty, isDigit, back⟩ := h
  obtain ⟨read, hread, hclips⟩ := exponent?_of_isExponent back
  rw [float?_append front nonempty isDigit back.head, hread, ← Text.spelled_eq_ofDigitChars]
  refine ⟨_, rfl, fun hrange => ?_⟩
  have hspelled := Text.spelled_lt isDigit
  rw [List.length_append] at hspelled
  refine isRounded_clipped hspelled hclips fun hne => ?_
  obtain hsmall | hlength := hrange
  · rw [Clips] at hclips
    omega
  · simp only [List.length_append, List.length_cons] at hlength
    omega

end Numeral

/-! ## Equality with numbers -/

namespace BinaryOperator

open Numeral

variable {s : String} {n : Number}

/-- Which numbers a text without a point is equal to. -/
theorem denotes_iff_of_not_mem (h : '.' ∉ Text.trim s.toList) :
    denotes s n = true ↔ ∃ k, IsInteger (Text.trim s.toList) k ∧ -2 ^ 63 ≤ k ∧ k < 2 ^ 63 ∧
      IsRounded k n.raw := by
  rw [denotes, parse?]
  generalize Text.trim s.toList = t at h ⊢
  rw [if_neg (by simpa using h), Option.any_eq_true]
  constructor
  · rintro ⟨m, hm, heq⟩
    obtain ⟨k, hk, hm⟩ := Option.bind_eq_some_iff.1 hm
    rw [Option.ite_none_right_eq_some] at hm
    obtain ⟨⟨hlow, hhigh⟩, hm⟩ := hm
    obtain rfl : Number.int k = m := Option.some.inj hm
    rw [Number.raw_int] at heq
    exact ⟨k, integer?_eq_some_iff.1 hk, hlow, hhigh,
      (Binary64.isRounded_ofInt k).equal_iff.2 heq⟩
  · rintro ⟨k, hk, hlow, hhigh, hrounded⟩
    refine ⟨.int k, Option.bind_eq_some_iff.2 ⟨k, integer?_eq_some_iff.2 hk,
      if_pos ⟨hlow, hhigh⟩⟩, ?_⟩
    rw [Number.raw_int]
    exact (Binary64.isRounded_ofInt k).equal_iff.1 hrounded

/-- Which numbers a text with a point is equal to. -/
theorem denotes_iff_of_mem (h : '.' ∈ Text.trim s.toList) :
    denotes s n = true ↔
      ∃ v, float? (Text.trim s.toList) = some v ∧ v.equal n.raw = true := by
  rw [denotes, parse?]
  generalize Text.trim s.toList = t at h ⊢
  rw [if_pos (by simpa using h), Option.any_map, Option.any_eq_true]
  exact Iff.rfl

end BinaryOperator

open BinaryOperator Numeral

/-- **A text is equal to the numbers that it is a numeral for.** Equality of a text and a number
never fails, and gives the same in both orders. It goes by the text without the blank characters at
its ends. A text without a point is equal to a number if it is an integer of 64 bits that is rounded
to the number, so no text without a digit, with a character that is neither a digit nor a sign, or
with an integer out of range is equal to any number. A text with a point is equal to a number if it
is a float and read as the number, which is the number that it is rounded to, unless the exponent is
clipped in a text about as long as its limit. -/
theorem text_equal_iff (s : String) (n : Number) :
    let t := Text.trim s.toList
    (∃ before after, s.toList = before ++ t ++ after ∧
      (∀ c ∈ before ++ after, Text.isBlank c = true) ∧
        ∀ c, c ∈ t.head? ∨ c ∈ t.getLast? → Text.isBlank c = false) ∧
      ∃ b, apply .eq (.string s) (.number n) = .ok (.bool b) ∧
        apply .eq (.number n) (.string s) = .ok (.bool b) ∧
        ('.' ∉ t →
          (b = true ↔ ∃ k, IsInteger t k ∧ -2 ^ 63 ≤ k ∧ k < 2 ^ 63 ∧ IsRounded k n.raw) ∧
            ((∀ c ∈ t, c.isDigit = false) ∨ (∃ c ∈ t, c.isDigit = false ∧ c ≠ '+' ∧ c ≠ '-') ∨
              (∃ k, IsInteger t k ∧ (k < -2 ^ 63 ∨ 2 ^ 63 ≤ k)) → b = false)) ∧
        ('.' ∈ t → (b = true ↔
          ∃ power x v, IsFloat t power x ∧ float? t = some v ∧ v.equal n.raw = true)) ∧
        ∀ power x, IsFloat t power x →
          power.natAbs < 10 * exponentLimit ∨ t.length + 330 ≤ exponentLimit →
            (b = true ↔ IsRounded x n.raw) := by
  intro t
  refine ⟨Text.trim_spec s.toList, denotes s n, rfl, rfl, fun hpoint => ⟨?_, fun hother => ?_⟩,
    fun hpoint => ?_, fun power x hfloat hrange => ?_⟩
  · exact denotes_iff_of_not_mem hpoint
  · rw [← Bool.not_eq_true, denotes_iff_of_not_mem hpoint]
    rintro ⟨k, hinteger, hlow, hhigh, -⟩
    obtain ⟨⟨d, hd, hdigit⟩, hchars⟩ := hinteger.chars
    obtain hnone | ⟨c, hc, hnot⟩ | ⟨j, hj, hout⟩ := hother
    · exact absurd hdigit (by rw [hnone d hd]; exact Bool.false_ne_true)
    · obtain hc | rfl | rfl := hchars c hc
      · exact absurd hc (by rw [hnot.1]; exact Bool.false_ne_true)
      · exact hnot.2.1 rfl
      · exact hnot.2.2 rfl
    · have := hinteger.unique hj
      omega
  · rw [denotes_iff_of_mem hpoint]
    constructor
    · rintro ⟨v, hv, heq⟩
      obtain ⟨power, x, hfloat⟩ := exists_isFloat hv
      exact ⟨power, x, v, hfloat, hv, heq⟩
    · rintro ⟨-, -, v, -, hv, heq⟩
      exact ⟨v, hv, heq⟩
  · obtain ⟨v, hv, hrounded⟩ := exists_float? hfloat
    rw [denotes_iff_of_mem hfloat.mem, (hrounded hrange).equal_iff]
    constructor
    · rintro ⟨w, hw, heq⟩
      rwa [Option.some.inj (hv.symm.trans hw)]
    · exact fun heq => ⟨v, hv, heq⟩

/-- An integer that needs 54 bits is equal to the number below it. -/
example : denotes " +9007199254740993\n" (.int 9007199254740992) = true := by decide +kernel

end Treewalk
