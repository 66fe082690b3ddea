import ChartAdvisor.Number.Binary64

/-!
# Numbers in scientific form

A number is written as digits, a fraction and an exponent. `Binary64.ofDecimal?` gives the
nearest number of the format. `Scientific.inSteps?` gives what the format itself computes with a
64-bit significand and rounded powers of ten, which can differ from the nearest number in the
last places.
-/
namespace ChartAdvisor
namespace Scientific

/-- The value of a decimal digit. -/
def digitValue (c : Char) : Nat := c.toNat - '0'.toNat

/-- The natural number that a list of decimal digits writes. -/
def digitsValue (cs : List Char) : Nat := cs.foldl (fun n c => n * 10 + digitValue c) 0

/-- The digits of a fraction, after its point if there is one; a point needs a digit. -/
def readFraction? (cs : List Char) : Option (List Char × List Char) :=
  match cs with
  | '.' :: rest =>
    let digits := rest.takeWhile Char.isDigit
    if digits.isEmpty then none else some (digits, rest.dropWhile Char.isDigit)
  | rest => some ([], rest)

/-- The value of an exponent if one is written; it needs a digit. -/
def readExponent? (cs : List Char) : Option (Option Int × List Char) :=
  let signed (negative : Bool) (rest : List Char) : Option (Option Int × List Char) :=
    let digits := rest.takeWhile Char.isDigit
    let value : Int := digitsValue digits
    if digits.isEmpty then none
    else some (some (if negative then -value else value), rest.dropWhile Char.isDigit)
  match cs with
  | c :: rest =>
    if c = 'e' ∨ c = 'E' then
      match rest with
      | '+' :: rest => signed false rest
      | '-' :: rest => signed true rest
      | rest => signed false rest
    else some (none, cs)
  | [] => some (none, [])

/-- A number with digits appended for as long as it stays below a bound, and the digits that are
left over. -/
def appendDigits (bound : Nat) : Nat → List Char → Nat × List Char
  | n, [] => (n, [])
  | n, c :: cs =>
    let next := n * 10 + digitValue c
    if next < bound then appendDigits bound next cs else (n, c :: cs)

/-- The greatest power of ten in the format. -/
def greatestPower : Nat := 308

/-- `x · 10 ^ exponent` by one product or quotient with a power of ten of the format. An exponent
below the negated greatest power first takes quotients by that power, one in each step; a zero
stays as it is. `none` beyond the largest number. -/
def scale? : (steps : Nat) → Binary64 → (exponent : Int) → Option Binary64
  | 0, _, _ => none
  | steps + 1, x, exponent =>
    let power (n : Nat) := Binary64.ofRatio? false (tenTo n) 1
    if x.isZero then some x
    else if 0 ≤ exponent then
      if exponent ≤ greatestPower then (power exponent.toNat).bind x.mul? else none
    else if -(greatestPower : Int) ≤ exponent then (power (-exponent).toNat).bind x.div?
    else
      match (power greatestPower).bind x.div? with
      | some y => scale? steps y (exponent + greatestPower)
      | none => none

/-- The number that digits before and after a point and an exponent write, computed in steps that
are rounded one by one. Digits make up the significand for as long as it fits an unsigned 64-bit
word: of the digits that do not fit, those before the point raise the exponent and those behind
it are passed over. -/
def inSteps? (negative : Bool) (whole fraction : List Char) (exponent : Int) : Option Binary64 := do
  let (start, unfit) := appendDigits (twoTo 64) 0 whole
  let (significand, ignored) := appendDigits (twoTo 64) start fraction
  let power : Int := exponent + unfit.length + ignored.length - fraction.length
  let x ← Binary64.ofRatio? false significand 1
  let y ← scale? (power.natAbs / greatestPower + 1) x power
  return { y with negative }

end Scientific
end ChartAdvisor
