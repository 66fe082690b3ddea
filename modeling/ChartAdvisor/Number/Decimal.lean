import ChartAdvisor.Number.Binary64

/-!
# Decimal texts of 64-bit numbers

The digits of a number are the fewest that read back as it. Where the point goes and
when an exponent is written is decided by a `DecimalLayout`. A text with a set number of
places rounds the exact value, a tie to the even digit.
-/
namespace ChartAdvisor

/-- Digits and a power of ten, `digits · 10 ^ exponent`. -/
structure Decimal where
  digits : Nat
  exponent : Int
deriving DecidableEq, Repr

namespace Decimal

/-- Drops zeros at the end of the digits, at most `fuel` of them. -/
def stripZeros : Nat → Decimal → Decimal
  | 0, d => d
  | fuel + 1, d =>
    if d.digits ≠ 0 ∧ d.digits % 10 = 0 then stripZeros fuel ⟨d.digits / 10, d.exponent + 1⟩ else d

end Decimal

namespace Binary64

/-- The greatest `k` with `10 ^ k` not above the positive quotient. -/
def floorLog10 (numerator denominator : Nat) : Int :=
  if denominator ≤ numerator then (digitCount (numerator / denominator) : Int) - 1
  else
    let count := digitCount (denominator / numerator)
    if denominator ≤ numerator * tenTo (count - 1) then -((count : Int) - 1) else -(count : Int)

/-- The two neighbours of the magnitude among the multiples of `10 ^ exponent`, the nearer
one first; of two equally near the even one. -/
def decimalNeighbours (x : Binary64) (exponent : Int) : List Decimal :=
  let (n, d) := x.ratio
  let (n, d) := if 0 ≤ exponent then (n, d * tenTo exponent.toNat) else (n * tenTo (-exponent).toNat, d)
  let below := n / d
  if roundHalfEven n d = below then [⟨below, exponent⟩, ⟨below + 1, exponent⟩]
  else [⟨below + 1, exponent⟩, ⟨below, exponent⟩]

/-- Whether a decimal reads back as the number. -/
def readsFrom (x : Binary64) (d : Decimal) : Bool :=
  ofDecimal? x.negative d.digits d.exponent == some x

/-- All digits of the exact value. -/
def exactDecimal (x : Binary64) : Decimal :=
  if 0 ≤ x.exponent then ⟨x.mantissa * twoTo x.exponent.toNat, 0⟩
  else ⟨x.mantissa * Nat.pow 5 (-x.exponent).toNat, x.exponent⟩

/-- The first decimal that reads back among the neighbours with 1, 2, … 17 digits. -/
def shortest (x : Binary64) : Decimal :=
  if x.mantissa = 0 then ⟨0, 0⟩
  else
    let (n, d) := x.ratio
    let leading := floorLog10 n d
    let candidates := (List.range 17).flatMap fun (k : Nat) => x.decimalNeighbours (leading - k)
    let found := (candidates.find? x.readsFrom).getD x.exactDecimal
    found.stripZeros 400

end Binary64

/-- Where a shortest decimal is written with a point alone, and whether a whole number
then ends in `.0`. Outside the bounds it is written with an exponent. -/
structure DecimalLayout where
  least : Int
  greatest : Int
  wholeFraction : Bool

namespace DecimalLayout

def zeros (n : Nat) : String := String.ofList (List.replicate n '0')

/-- The digits with a point after the first `whole` of them. -/
def pointed (layout : DecimalLayout) (text : String) (whole : Int) : String :=
  let length : Int := text.length
  if length ≤ whole then
    text ++ zeros (whole - length).toNat ++ (if layout.wholeFraction then ".0" else "")
  else if 0 < whole then
    String.ofList (text.toList.take whole.toNat) ++ "." ++ String.ofList (text.toList.drop whole.toNat)
  else "0." ++ zeros (-whole).toNat ++ text

/-- The digits with a point after the first and the exponent, which always has a sign. -/
def scientific (text : String) (exponent : Int) : String :=
  let rest := text.toList.drop 1
  let fraction := if rest.isEmpty then "" else "." ++ String.ofList rest
  let sign := if exponent < 0 then "-" else "+"
  String.ofList (text.toList.take 1) ++ fraction ++ "e" ++ sign ++ toString exponent.natAbs

/-- The text of a number under a layout. -/
def render (layout : DecimalLayout) (x : Binary64) : String :=
  let d := x.shortest
  let text := toString d.digits
  let leading : Int := (text.length : Int) - 1 + d.exponent
  let magnitude :=
    if d.digits = 0 then layout.pointed text 1
    else if layout.least ≤ leading ∧ leading ≤ layout.greatest then layout.pointed text (leading + 1)
    else scientific text leading
  (if x.negative then "-" else "") ++ magnitude

/-- The text of a number that may not be finite. -/
def renderExtended (layout : DecimalLayout) : Binary64.Extended → String
  | .finite x => layout.render x
  | .infinite negative => if negative then "-inf" else "inf"
  | .notANumber => "NaN"

end DecimalLayout

/-- Reading position of a digit string: the text without its last `places` digits, a point,
and those digits. -/
def placePoint (places : Nat) (n : Nat) : String :=
  let text := toString n
  let padded := DecimalLayout.zeros (places + 1 - text.length) ++ text
  let whole := padded.length - places
  String.ofList (padded.toList.take whole) ++
    (if places = 0 then "" else "." ++ String.ofList (padded.toList.drop whole))

/-- The number with exactly `places` decimal places; the sign is kept even on zero. -/
def Binary64.fixed (places : Nat) (x : Binary64) : String :=
  let (n, d) := x.ratio
  (if x.negative then "-" else "") ++ placePoint places (Binary64.roundHalfEven (n * tenTo places) d)

end ChartAdvisor
