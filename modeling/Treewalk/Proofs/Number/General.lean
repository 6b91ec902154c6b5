import Mathlib.Algebra.Order.Floor.Semifield
import Mathlib.Data.List.DropRight
import Treewalk.Binary64.General
import Treewalk.Proofs.Number.Nearest

/-!
# What the general format shows

A finite number other than zero is shown as a numeral whose value is the number rounded to six
significant digits. For a positional numeral the number is rounded a second time, at the place of
its last significant digit: this gives the same digits. Zeros are dropped from the end of a
fraction only, which keeps the value.

* `Binary64.stripZeros_pointed`: what is left of digits with a point.
* `DecimalForm.value_ofPointed`: dropping zeros keeps the value.

Main statement: `generalText_shows`.
-/

namespace Treewalk

open Binary64 (lastDigits pointed trimEnd stripZeros one roundedDigits)

/-! ## Numerals -/

/-- A decimal numeral in its parts: a minus sign or none, the digits before the point, the digits
behind it if there is a point, and the sign and the digits of the exponent if there is one. -/
structure DecimalForm where
  negative : Bool
  whole : List Char
  fraction : Option (List Char)
  exponent : Option (Bool × List Char)

namespace DecimalForm

/-- The digits behind the point. -/
def fractionDigits (f : DecimalForm) : List Char := f.fraction.getD []

/-- The digits of the exponent. -/
def exponentDigits (f : DecimalForm) : List Char := (f.exponent.map Prod.snd).getD []

/-- The text of a numeral. -/
def text (f : DecimalForm) : String :=
  String.ofList ((if f.negative then ['-'] else []) ++ f.whole ++
    (f.fraction.elim [] fun digits => '.' :: digits) ++
    f.exponent.elim [] fun e => 'e' :: (if e.1 then '-' else '+') :: e.2)

/-- The power of ten that the exponent stands for. -/
def power (f : DecimalForm) : ℤ :=
  f.exponent.elim 0 fun e => Numeral.signed e.1 (Text.spelled e.2)

/-- The exact value of a numeral. -/
def value (f : DecimalForm) : ℚ :=
  Numeral.signed f.negative (Text.spelled (f.whole ++ f.fractionDigits)) *
    10 ^ (f.power - f.fractionDigits.length)

/-- The numeral shows a number other than zero in the general format. Its value is the number. If
the decimal logarithm of the number is below `-4` or at least `6`, it is the exponent, in the digits
that it needs but two at least, and there is one digit before the point; else there is no exponent,
and the whole part of the number stands before the point. There is a point only before digits of
which the last is not a zero. -/
structure Shows (f : DecimalForm) (d : ℚ) : Prop where
  value_eq : f.value = d
  negative_iff : f.negative = true ↔ d < 0
  isDigit : ∀ c ∈ f.whole ++ f.fractionDigits ++ f.exponentDigits, c.isDigit = true
  scientific_iff : f.exponent.isSome = true ↔ Int.log 10 |d| < -4 ∨ 6 ≤ Int.log 10 |d|
  scientific : f.exponent.isSome = true →
    f.power = Int.log 10 |d| ∧ f.whole.length = 1 ∧
      f.exponentDigits.length = max 2 (Nat.toDigits 10 (Int.log 10 |d|).natAbs).length
  positional : f.exponent = none → f.whole = Nat.toDigits 10 ⌊|d|⌋₊
  fraction : ∀ digits, f.fraction = some digits →
    ∃ front last, digits = front ++ [last] ∧ last ≠ '0'

end DecimalForm

/-! ## Digits and zeros -/

namespace Binary64

/-- All digits of a number but the last ones, and the last ones. -/
theorem spelled_toDigits_append_lastDigits (places n : ℕ) :
    Text.spelled (Nat.toDigits 10 (n / 10 ^ places) ++ lastDigits places n) = n := by
  induction places generalizing n with
  | zero => rw [lastDigits, List.append_nil, pow_zero, Nat.div_one, Text.spelled_toDigits]
  | succ places ih =>
    have hdiv : n / 10 ^ (places + 1) = n / 10 / 10 ^ places := by
      rw [Nat.div_div_eq_div_mul, pow_succ']
    have hdigit : Text.spelled [Nat.digitChar (n % 10)] = n % 10 := by
      rw [← Nat.toDigits_of_lt_base (Nat.mod_lt n (by decide)), Text.spelled_toDigits]
    rw [lastDigits, ← List.append_assoc, Text.spelled_append, hdiv, ih, hdigit]
    exact Nat.div_add_mod' n 10

theorem spelled_replicate_zero (k : ℕ) : Text.spelled (List.replicate k '0') = 0 := by
  induction k with
  | zero => rfl
  | succ k ih =>
    rw [List.replicate_succ, ← List.singleton_append, Text.spelled_append, ih,
      show Text.spelled ['0'] = 0 by decide, Nat.zero_mul]

theorem trimEnd_append (c : Char) (cs ds : List Char) :
    trimEnd c (cs ++ ds) = if trimEnd c ds = [] then trimEnd c cs else cs ++ trimEnd c ds := by
  by_cases h : trimEnd c ds = []
  · have hempty := List.isEmpty_iff.2 (List.reverse_eq_nil_iff.1 h)
    rw [if_pos h, trimEnd, List.reverse_append, List.dropWhile_append, if_pos hempty, trimEnd]
  · have hempty := mt List.isEmpty_iff.1 (mt List.reverse_eq_nil_iff.2 h)
    rw [if_neg h, trimEnd, List.reverse_append, List.dropWhile_append, if_neg hempty,
      List.reverse_append, List.reverse_reverse, trimEnd]

theorem trimEnd_of_not_mem {c : Char} {cs : List Char} (h : c ∉ cs) : trimEnd c cs = cs :=
  List.rdropWhile_eq_self_iff.2 fun hne hlast =>
    h (of_decide_eq_true hlast ▸ List.getLast_mem hne)

/-- What is dropped is the character, as often as it stands at the end. -/
theorem exists_trimEnd_append (c : Char) (cs : List Char) :
    ∃ k, trimEnd c cs ++ List.replicate k c = cs := by
  have hall : ∀ d ∈ cs.rtakeWhile (· = c), d = c := fun d hd => by
    simpa using List.mem_rtakeWhile_imp hd
  refine ⟨(cs.rtakeWhile (· = c)).length, ?_⟩
  rw [← List.eq_replicate_iff.2 ⟨rfl, hall⟩]
  exact List.rdropWhile_append_rtakeWhile

/-- What is left does not end in the character. -/
theorem exists_of_trimEnd_ne_nil {c : Char} {cs : List Char} (h : trimEnd c cs ≠ []) :
    ∃ front last, trimEnd c cs = front ++ [last] ∧ last ≠ c :=
  ⟨_, _, (List.dropLast_append_getLast h).symm,
    mt decide_eq_true (List.rdropWhile_last_not (· = c) cs h)⟩

/-- The digits of a fraction without the zeros at its end; none if there is no other digit. -/
def fraction? (places n : ℕ) : Option (List Char) :=
  if trimEnd '0' (lastDigits places n) = [] then none
  else some (trimEnd '0' (lastDigits places n))

theorem point_not_mem {cs : List Char} (h : ∀ c ∈ cs, c.isDigit = true) : '.' ∉ cs :=
  fun hc => absurd (h '.' hc) (by decide)

/-- Digits with a point keep those before the point, and those of the fraction up to the last that
is not a zero. -/
theorem stripZeros_pointed (places n : ℕ) :
    stripZeros (pointed places n) =
      Nat.toDigits 10 (n / 10 ^ places) ++ (fraction? places n).elim [] fun ds => '.' :: ds := by
  have hwhole : '.' ∉ Nat.toDigits 10 (n / 10 ^ places) :=
    point_not_mem fun c hc => Text.isDigit_of_mem_toDigits hc
  have hdigits : '.' ∉ lastDigits places n := point_not_mem fun c hc => isDigit_of_mem_lastDigits hc
  rw [fraction?, pointed]
  generalize Nat.toDigits 10 (n / 10 ^ places) = whole at *
  by_cases hplaces : places = 0
  · subst hplaces
    have hnone : trimEnd '0' (lastDigits 0 n) = [] := rfl
    rw [if_pos rfl, if_pos hnone, List.append_nil, stripZeros, List.contains_eq_mem,
      decide_eq_false hwhole]
    exact (List.append_nil _).symm
  · have hpoint : '.' ∈ whole ++ '.' :: lastDigits places n := by simp
    rw [if_neg hplaces, stripZeros, List.contains_eq_mem, decide_eq_true hpoint, if_pos rfl,
      ← List.singleton_append, ← List.append_assoc, trimEnd_append]
    have hzero : trimEnd '0' ['.'] = ['.'] := by decide
    have hself : trimEnd '.' ['.'] = [] := by decide
    by_cases hnone : trimEnd '0' (lastDigits places n) = []
    · rw [if_pos hnone, if_pos hnone, trimEnd_append, hzero, if_neg (by decide), trimEnd_append,
        hself, if_pos rfl, trimEnd_of_not_mem hwhole]
      exact (List.append_nil _).symm
    · have hleft : '.' ∉ trimEnd '0' (lastDigits places n) :=
        fun hmem => hdigits ((List.rdropWhile_prefix _ _).subset hmem)
      rw [if_neg hnone, if_neg hnone, trimEnd_append, trimEnd_of_not_mem hleft, if_neg hnone,
        List.append_assoc]
      rfl

/-- The size of an exponent in two digits or more. -/
def paddedDigits (n : ℕ) : List Char :=
  if (Nat.toDigits 10 n).length < 2 then '0' :: Nat.toDigits 10 n else Nat.toDigits 10 n

theorem toList_exponentText (exponent : ℤ) :
    (exponentText exponent).toList =
      (if exponent < 0 then '-' else '+') :: paddedDigits exponent.natAbs := by
  have hdigits : (toString exponent.natAbs).toList = Nat.toDigits 10 exponent.natAbs :=
    Nat.toList_repr
  have hlength : (toString exponent.natAbs).length = (Nat.toDigits 10 exponent.natAbs).length := by
    rw [← hdigits, String.length_toList]
  rw [exponentText, paddedDigits, String.toList_append, hlength, apply_ite String.toList,
    apply_ite String.toList, String.toList_append, hdigits]
  split <;> rfl

theorem paddedDigits_spec (n : ℕ) :
    Text.spelled (paddedDigits n) = n ∧ (∀ c ∈ paddedDigits n, c.isDigit = true) ∧
      (paddedDigits n).length = max 2 (Nat.toDigits 10 n).length := by
  have hdigit : ∀ c ∈ Nat.toDigits 10 n, c.isDigit = true :=
    fun c hc => Text.isDigit_of_mem_toDigits hc
  rw [paddedDigits]
  split
  · have hpos := Nat.length_toDigits_pos (b := 10) (n := n)
    refine ⟨?_, List.forall_mem_cons.2 ⟨by decide, hdigit⟩, by rw [List.length_cons]; omega⟩
    rw [← List.singleton_append, Text.spelled_append, Text.spelled_toDigits,
      show Text.spelled ['0'] = 0 by decide, Nat.zero_mul, Nat.zero_add]
  · next h => exact ⟨Text.spelled_toDigits n, hdigit, (max_eq_right (Nat.not_lt.1 h)).symm⟩

end Binary64

/-! ## The form that is shown -/

namespace DecimalForm

open Binary64 (fraction? paddedDigits)

/-- The numeral of a number of steps of `10 ^ -places`, with an exponent if there is one. -/
def ofPointed (negative : Bool) (places n : ℕ) (exponent : Option ℤ) : DecimalForm where
  negative := negative
  whole := Nat.toDigits 10 (n / 10 ^ places)
  fraction := fraction? places n
  exponent := exponent.map fun e => (decide (e < 0), paddedDigits e.natAbs)

variable (negative : Bool) (places n : ℕ) (exponent : Option ℤ)

theorem fractionDigits_ofPointed :
    (ofPointed negative places n exponent).fractionDigits = trimEnd '0' (lastDigits places n) := by
  rw [fractionDigits, ofPointed, fraction?]
  split
  · next h => exact h.symm
  · rfl

theorem power_ofPointed : (ofPointed negative places n exponent).power = exponent.getD 0 := by
  cases exponent with
  | none => rfl
  | some e =>
    change Numeral.signed (decide (e < 0)) (Text.spelled (paddedDigits e.natAbs)) = e
    rw [(Binary64.paddedDigits_spec e.natAbs).1, Numeral.signed_natAbs]

theorem isDigit_ofPointed :
    let f := ofPointed negative places n exponent
    ∀ c ∈ f.whole ++ f.fractionDigits ++ f.exponentDigits, c.isDigit = true := by
  intro f c hc
  simp only [List.mem_append] at hc
  obtain (hc | hc) | hc := hc
  · exact Text.isDigit_of_mem_toDigits hc
  · rw [fractionDigits_ofPointed] at hc
    exact Binary64.isDigit_of_mem_lastDigits ((List.rdropWhile_prefix _ _).subset hc)
  · cases exponent with
    | none => cases hc
    | some e => exact (Binary64.paddedDigits_spec e.natAbs).2.1 c hc

/-- Dropping zeros keeps the value. -/
theorem value_ofPointed :
    (ofPointed negative places n exponent).value =
      Numeral.signed negative n * 10 ^ (exponent.getD 0 - places) := by
  obtain ⟨k, hk⟩ := Binary64.exists_trimEnd_append '0' (lastDigits places n)
  have hlength := congrArg List.length hk
  rw [List.length_append, List.length_replicate, Binary64.length_lastDigits] at hlength
  have hspelled := Binary64.spelled_toDigits_append_lastDigits places n
  rw [← hk, ← List.append_assoc, Text.spelled_append, List.length_replicate,
    Binary64.spelled_replicate_zero, Nat.add_zero] at hspelled
  rw [value, power_ofPointed, fractionDigits_ofPointed]
  change (Numeral.signed negative (Text.spelled (Nat.toDigits 10 (n / 10 ^ places) ++
    trimEnd '0' (lastDigits places n))) : ℚ) * _ = _
  generalize Text.spelled (_ ++ _) = digits at *
  generalize (trimEnd '0' (lastDigits places n)).length = kept at *
  have hsigned : (Numeral.signed negative n : ℚ) = Numeral.signed negative digits * 10 ^ k := by
    rw [← hspelled, Numeral.signed, Numeral.signed]
    split <;> push_cast <;> ring
  rw [hsigned, mul_assoc, ← Binary64.zpow_add_nat]
  congr 2
  omega

theorem text_ofPointed :
    (ofPointed negative places n exponent).text =
      Binary64.signText negative ++ (String.ofList (stripZeros (pointed places n)) ++
        exponent.elim "" fun e => "e" ++ Binary64.exponentText e) := by
  apply String.toList_injective
  rw [text, Binary64.stripZeros_pointed, String.toList_ofList, Binary64.signText,
    String.toList_append, String.toList_append, String.toList_ofList, apply_ite String.toList,
    List.append_assoc, List.append_assoc, List.append_assoc]
  cases exponent with
  | none => rfl
  | some e =>
    have hsign : (if e < 0 then '-' else '+') = if decide (e < 0) = true then '-' else '+' :=
      if_congr decide_eq_true_iff.symm rfl rfl
    rw [Option.elim_some, String.toList_append, Binary64.toList_exponentText, hsign]
    cases negative <;> rfl

variable {negative places n exponent}

/-- Six digits are shown by a numeral with five places and their power of ten as exponent, and by a
numeral that has the places that this power of ten leaves. -/
theorem shows_ofPointed {power : ℤ} (hlow : 10 ^ 5 ≤ n) (hhigh : n < 10 ^ 6)
    (h : exponent = some power ∧ places = 5 ∧ (power < -4 ∨ 6 ≤ power) ∨
      exponent = none ∧ (places : ℤ) = 5 - power ∧ ¬(power < -4 ∨ 6 ≤ power)) :
    (ofPointed negative places n exponent).Shows
      (Numeral.signed negative n * 10 ^ (power - 5)) := by
  have hunit : (0 : ℚ) < 10 ^ (power - 5) := zpow_pos (by norm_num) _
  have hpos : 0 < n := Nat.lt_of_lt_of_le (by decide) hlow
  have hlog : Int.log 10 |(Numeral.signed negative n : ℚ) * 10 ^ (power - 5)| = power := by
    rw [Numeral.abs_signed_mul negative n hunit]
    exact Binary64.log_digits hlow hhigh
  constructor
  case value_eq =>
    rw [value_ofPointed]
    obtain ⟨rfl, rfl, -⟩ | ⟨rfl, hplaces, -⟩ := h
    · rfl
    · rw [Option.getD_none, hplaces]
      congr 2
      ring
  case negative_iff => exact (Numeral.signed_mul_neg_iff hpos hunit).symm
  case isDigit => exact isDigit_ofPointed negative places n exponent
  case scientific_iff =>
    rw [hlog]
    obtain ⟨rfl, -, hrange⟩ | ⟨rfl, -, hrange⟩ := h
    · exact iff_of_true rfl hrange
    · exact iff_of_false Bool.false_ne_true hrange
  case scientific =>
    intro hsome
    obtain ⟨rfl, rfl, -⟩ | ⟨rfl, -, -⟩ := h
    · have hwhole : n / 10 ^ 5 < 10 := (Nat.div_lt_iff_lt_mul (by decide)).2 (by omega)
      rw [hlog]
      refine ⟨power_ofPointed .., ?_, (Binary64.paddedDigits_spec power.natAbs).2.2⟩
      rw [ofPointed, Nat.toDigits_of_lt_base hwhole]
      rfl
    · cases hsome
  case positional =>
    intro hnone
    obtain ⟨rfl, -, -⟩ | ⟨-, hplaces, -⟩ := h
    · cases hnone
    · have hneg : power - 5 = -(places : ℤ) := by omega
      rw [Numeral.abs_signed_mul negative n hunit, hneg, zpow_neg, zpow_natCast, ← div_eq_mul_inv]
      have hfloor := Nat.floor_div_eq_div (K := ℚ) n (10 ^ places)
      rw [Nat.cast_pow, Nat.cast_ofNat] at hfloor
      rw [hfloor]
      rfl
  case fraction =>
    intro digits hdigits
    change fraction? places n = some digits at hdigits
    rw [fraction?] at hdigits
    split at hdigits
    · cases hdigits
    · next hne =>
      cases hdigits
      exact Binary64.exists_of_trimEnd_ne_nil hne

end DecimalForm

/-- A magnitude in the general format is a numeral for its first six digits. -/
theorem exists_generalMagnitude {quanta digits : ℕ} {power : ℤ} (hq : quanta ≠ 0)
    (h : roundedDigits 6 quanta = (digits, power)) (negative : Bool) :
    ∃ form : DecimalForm,
      Binary64.signText negative ++ Binary64.generalMagnitude quanta = form.text ∧
        form.Shows (Numeral.signed negative digits * 10 ^ (power - 5)) := by
  obtain ⟨-, -, hlow, hhigh⟩ := Binary64.roundedDigits_spec (k := 5) hq h
  have hcount : Binary64.generalPrecision - 1 = 5 := rfl
  have hprecision : (Binary64.generalPrecision : ℤ) = 6 := rfl
  rw [Binary64.generalMagnitude, Binary64.scientific, hcount, hprecision, h]
  dsimp only
  by_cases hrange : power < -4 ∨ 6 ≤ power
  · refine ⟨_, ?_, DecimalForm.shows_ofPointed hlow hhigh (.inl ⟨rfl, rfl, hrange⟩)⟩
    rw [if_pos hrange, DecimalForm.text_ofPointed, String.append_assoc]
    rfl
  · have hplaces : ((6 - 1 - power).toNat : ℤ) = 5 - power := by omega
    have hfixed := Binary64.divNearest_eq_roundedDigits (k := 5) hq h hplaces
    refine ⟨_, ?_, DecimalForm.shows_ofPointed hlow hhigh (.inr ⟨rfl, hplaces, hrange⟩)⟩
    rw [if_neg hrange, DecimalForm.text_ofPointed, Binary64.fixed, hfixed, Option.elim_none,
      String.append_empty]

/-- **The general format shows the rounded number.** Let a finite number other than zero be rounded
to six significant digits: to the nearest multiple of the unit of the sixth digit, and to an even
one if two are equally near. The text of the number is the numeral that shows the rounded number in
the general format, with a minus sign just if the number is negative. -/
theorem generalText_shows (negative : Bool) {m : Magnitude} (hm : m.quanta ≠ 0) :
    let x : ℚ := m.signed negative / one
    ∃ d : ℚ, IsNearest (10 ^ (Int.log 10 |x| - 5)) x d ∧
      ∃ form : DecimalForm, Binary64.generalText (.finite negative m) = form.text ∧
        form.Shows d ∧ (form.negative = true ↔ x < 0) := by
  intro x
  have hone : (0 : ℚ) < 1 / one := div_pos one_pos (Nat.cast_pos.2 Binary64.one_pos)
  have hx : x = Numeral.signed negative m.quanta * (1 / one) := by
    rw [mul_one_div]
    rfl
  have habs : |x| = m.quanta / one := by
    rw [hx, Numeral.abs_signed_mul negative _ hone, mul_one_div]
  rcases h : roundedDigits 6 m.quanta with ⟨digits, power⟩
  obtain ⟨hnear, -, hlow, -⟩ := Binary64.roundedDigits_spec (k := 5) hm h
  obtain ⟨form, htext, hshows⟩ := exists_generalMagnitude hm h negative
  have hunit : (0 : ℚ) < 10 ^ (power - 5) := zpow_pos (by norm_num) _
  refine ⟨_, ?_, form, ?_, hshows, ?_⟩
  · rw [habs, hx, Numeral.signed_mul, Numeral.signed_mul, mul_one_div]
    split
    · exact hnear.neg
    · exact hnear
  · rw [Binary64.generalText, if_neg hm]
    exact htext
  · rw [hshows.negative_iff, hx,
      Numeral.signed_mul_neg_iff (Nat.lt_of_lt_of_le (by decide) hlow) hunit,
      Numeral.signed_mul_neg_iff (Nat.pos_of_ne_zero hm) hone]

/-- A number that is rounded up to a power of ten, and so shown with an exponent. -/
theorem generalText_shows_carry :
    let m : Magnitude := ⟨1999999 * 2 ^ 1073, by decide +kernel, ⟨1999999, 1073, by decide +kernel⟩⟩
    let x : ℚ := m.signed true / one
    m.quanta ≠ 0 ∧ ∃ d : ℚ, IsNearest (10 ^ (Int.log 10 |x| - 5)) x d ∧
      ∃ form : DecimalForm, form.text = "-1e+06" ∧ form.Shows d := by
  intro m x
  have hm : m.quanta ≠ 0 := by decide +kernel
  have htext : Binary64.generalText (.finite true m) = "-1e+06" := by decide +kernel
  clear_value m
  obtain ⟨d, hd, form, hform, hshows, -⟩ := generalText_shows true hm
  exact ⟨hm, d, hd, form, hform ▸ htext, hshows⟩

end Treewalk
