/-!
# Finite 64-bit floating point numbers

A number is a sign, a mantissa and a power of two, in the one form that the 64-bit
format gives it. Everything is exact arithmetic on naturals: a quotient is rounded
to the nearest number of the format, and a tie goes to the even mantissa. The two
zeros are different numbers, because their texts are.
-/
namespace ChartAdvisor

/-- The power of two with a natural exponent. -/
abbrev twoTo (exponent : Nat) : Nat := Nat.pow 2 exponent

/-- The power of ten with a natural exponent. -/
abbrev tenTo (exponent : Nat) : Nat := Nat.pow 10 exponent

namespace Binary64

/-- The mantissas and exponents of the format: 53 significant bits, fewer only at the
least exponent. -/
def Canonical (mantissa : Nat) (exponent : Int) : Prop :=
  (twoTo 52 ≤ mantissa ∧ mantissa < twoTo 53 ∧ -1074 ≤ exponent ∧ exponent ≤ 971) ∨
    (mantissa < twoTo 52 ∧ exponent = -1074)

instance (mantissa : Nat) (exponent : Int) : Decidable (Canonical mantissa exponent) := by
  unfold Canonical; infer_instance

end Binary64

/-- The number `± mantissa · 2 ^ exponent`. -/
structure Binary64 where
  negative : Bool
  mantissa : Nat
  exponent : Int
  canonical : Binary64.Canonical mantissa exponent
deriving DecidableEq

namespace Binary64

/-- Zero of either sign. -/
def zero (negative : Bool) : Binary64 := ⟨negative, 0, -1074, by decide⟩

/-- The largest number of the format, of either sign. -/
def largest (negative : Bool) : Binary64 := ⟨negative, twoTo 53 - 1, 971, by decide⟩

instance : Inhabited Binary64 := ⟨zero false⟩

def isZero (x : Binary64) : Bool := x.mantissa == 0

/-- `numerator / denominator` divided by `2 ^ exponent`, again as a quotient. -/
def scale (numerator denominator : Nat) (exponent : Int) : Nat × Nat :=
  if 0 ≤ exponent then (numerator, denominator * twoTo exponent.toNat)
  else (numerator * twoTo (-exponent).toNat, denominator)

/-- The quotient rounded to the nearest natural number, a tie to the even one. -/
def roundHalfEven (numerator denominator : Nat) : Nat :=
  let quotient := numerator / denominator
  let rest := numerator % denominator
  if 2 * rest < denominator then quotient
  else if denominator < 2 * rest then quotient + 1
  else if quotient % 2 = 0 then quotient else quotient + 1

/-- The exponent at which a positive quotient has 53 bits before the point, or the
least exponent of the format. -/
def exponentOf (numerator denominator : Nat) : Int :=
  let guess : Int := (numerator.log2 : Int) - denominator.log2 - 52
  let (n, d) := scale numerator denominator guess
  max (-1074) (if n < twoTo 52 * d then guess - 1 else guess)

/-- The number nearest to a quotient; `none` when that lies beyond the largest number. -/
def ofRatio? (negative : Bool) (numerator denominator : Nat) : Option Binary64 :=
  if numerator = 0 then some (zero negative)
  else
    let exponent := exponentOf numerator denominator
    let (n, d) := scale numerator denominator exponent
    let rounded := roundHalfEven n d
    if h : Canonical rounded exponent then some ⟨negative, rounded, exponent, h⟩
    else if h : Canonical (twoTo 52) (exponent + 1) then some ⟨negative, twoTo 52, exponent + 1, h⟩
    else none

/-- How many decimal digits a natural number has; zero has one. -/
def digitCount (n : Nat) : Nat := (Nat.toDigits 10 n).length

/-- The number nearest to `digits · 10 ^ exponent`; `none` when that lies beyond the
largest number. Exponents far outside the format are settled without computing the power. -/
def ofDecimal? (negative : Bool) (digits : Nat) (exponent : Int) : Option Binary64 :=
  if digits = 0 then some (zero negative)
  else if 400 < exponent + digitCount digits then none
  else if exponent + digitCount digits < -400 then some (zero negative)
  else if 0 ≤ exponent then ofRatio? negative (digits * tenTo exponent.toNat) 1
  else ofRatio? negative digits (tenTo (-exponent).toNat)

/-- The magnitude as a quotient of naturals. -/
def ratio (x : Binary64) : Nat × Nat :=
  if 0 ≤ x.exponent then (x.mantissa * twoTo x.exponent.toNat, 1)
  else (x.mantissa, twoTo (-x.exponent).toNat)

/-- The exact value. -/
def toRat (x : Binary64) : Rat :=
  let (n, d) := x.ratio
  let magnitude : Rat := mkRat n d
  if x.negative then -magnitude else magnitude

/-- The number nearest to a rational; beyond the largest number, that one, where the format has an
infinity. The sums and products of scores do not come near it unless there are hundreds of open fields. A
zero takes the given sign. -/
def ofRat (negativeZero : Bool) (r : Rat) : Binary64 :=
  if r = 0 then zero negativeZero
  else (ofRatio? (r.num < 0) r.num.natAbs r.den).getD (largest (r.num < 0))

/-- Addition, rounded. Only two negative zeros add up to a negative zero. -/
def add (x y : Binary64) : Binary64 :=
  ofRat (x.isZero && y.isZero && x.negative && y.negative) (x.toRat + y.toRat)

/-- Multiplication, rounded. -/
def mul (x y : Binary64) : Binary64 :=
  ofRat (x.negative != y.negative) (x.toRat * y.toRat)

/-- Multiplication, rounded; `none` beyond the largest number. -/
def mul? (x y : Binary64) : Option Binary64 :=
  ofRatio? (x.negative != y.negative) (x.ratio.1 * y.ratio.1) (x.ratio.2 * y.ratio.2)

/-- Division, rounded; `none` by zero and beyond the largest number. -/
def div? (x y : Binary64) : Option Binary64 :=
  if y.isZero then none
  else ofRatio? (x.negative != y.negative) (x.ratio.1 * y.ratio.2) (x.ratio.2 * y.ratio.1)

def neg (x : Binary64) : Binary64 := { x with negative := !x.negative }

/-- The order of the values; the two zeros are equal. -/
def compare (x y : Binary64) : Ordering :=
  if x.toRat < y.toRat then .lt else if x.toRat = y.toRat then .eq else .gt

/-- A number of the whole format, which has infinities and a mark for what is not a number. -/
inductive Extended
  | finite (x : Binary64)
  | infinite (negative : Bool)
  | notANumber
deriving DecidableEq

/-- Whether a number lies between zero and one. -/
def Extended.isProportion : Extended → Bool
  | finite x => decide (0 ≤ x.toRat ∧ x.toRat ≤ 1)
  | _ => false

end Binary64
end ChartAdvisor
