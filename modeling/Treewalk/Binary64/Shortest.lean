import Treewalk.Binary64.Decimal

/-!
# The shortest digits that read back

A number in the text of a syntax tree has the fewest significant digits from which `ofDecimal`
gives the number again, and of those the nearest to it; of two equally near the larger. The text is
positional from `0.0001` up to below `10 ^ 16`, with at least one digit behind the point.
-/

namespace Treewalk.Binary64

/-- The two neighbours of a magnitude on a decimal grid that read back, the nearer one first. -/
def gridCandidates (m : Magnitude) (exponent : Int) : List Nat :=
  let (num, den) := inSteps m.quanta exponent
  let below := num / den
  let nearest := if 2 * (num % den) < den then [below, below + 1] else [below + 1, below]
  nearest.filter fun digits => ofDecimal false digits exponent = .finite false m

/-- The first grid, from `count` digits on, with a point that reads back. Seventeen digits always
do, so `17` grids are enough. -/
def shortestFrom (m : Magnitude) : (grids : Nat) → (exponent : Int) → Nat × Int
  | 0, exponent => (m.quanta, exponent)
  | grids + 1, exponent =>
    match gridCandidates m exponent with
    | digits :: _ => (digits, exponent)
    | [] => shortestFrom m grids (exponent - 1)

/-- The shortest digits of a magnitude above zero and the power of ten of the first. -/
def shortestDigits (m : Magnitude) : List Char × Int :=
  let (digits, exponent) := shortestFrom m 17 (decimalExponent m.quanta)
  (significantDigits digits, decimalLength digits + exponent - 1)

/-- Whether a magnitude is written with an exponent: `10 ^ 16` and above, and below `0.0001`. -/
def isScientific (m : Magnitude) : Bool :=
  10 ^ 16 * one ≤ m.quanta || m.quanta * 10 ^ 4 < one

/-- A magnitude in its shortest digits, without its sign. -/
def shortestMagnitude (m : Magnitude) : String :=
  if m.quanta = 0 then "0.0"
  else
    let (digits, exponent) := shortestDigits m
    if isScientific m then String.ofList (scientificDigits digits) ++ "e" ++ toString exponent
    else
      let (whole, fraction) := positionalDigits digits exponent
      String.ofList (whole ++ '.' :: if fraction.isEmpty then ['0'] else fraction)

/-- The text of a number in its shortest digits. -/
def shortestText : Binary64 → String
  | .nan => "NaN"
  | .infinite negative => signText negative ++ "inf"
  | .finite negative m => signText negative ++ shortestMagnitude m

end Treewalk.Binary64
