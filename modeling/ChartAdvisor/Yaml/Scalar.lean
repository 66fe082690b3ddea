import ChartAdvisor.Document.Basic
import ChartAdvisor.Number.Scientific

/-!
# Plain scalars

What a YAML scalar without quotes stands for: `null`, a truth value, an integer in one of four
bases, a decimal, a number without bounds, and else its own text. Decimal digits after a leading
zero are a text, though they are a number where one is wanted. Decimals are rounded once.
-/
namespace ChartAdvisor
namespace Yaml

def isNullWord (s : String) : Bool := ["", "~", "null", "Null", "NULL"].contains s

def truthValue? (s : String) : Option Bool :=
  if ["true", "True", "TRUE"].contains s then some true
  else if ["false", "False", "FALSE"].contains s then some false
  else none

/-- The value of a digit below 36. -/
def digitValue (c : Char) : Nat :=
  if '0' ≤ c ∧ c ≤ '9' then c.toNat - '0'.toNat
  else if 'a' ≤ c ∧ c ≤ 'z' then c.toNat - 'a'.toNat + 10
  else if 'A' ≤ c ∧ c ≤ 'Z' then c.toNat - 'A'.toNat + 10
  else 36

/-- The natural number that digits of a base write. -/
def readNat? (base : Nat) (cs : List Char) : Option Nat :=
  if cs.isEmpty || cs.any (fun c => base ≤ digitValue c) then none
  else some (cs.foldl (fun n c => n * base + digitValue c) 0)

/-- Digits with a mark for a base other than ten. -/
def readBased? : List Char → Option Nat
  | '0' :: 'x' :: cs => readNat? 16 cs
  | '0' :: 'o' :: cs => readNat? 8 cs
  | '0' :: 'b' :: cs => readNat? 2 cs
  | _ => none

/-- Several decimal digits that start with zero, with or without a sign. -/
def isPadded (cs : List Char) : Bool :=
  let digits := match cs with
    | '-' :: rest | '+' :: rest => rest
    | rest => rest
  1 < digits.length && digits.head? == some '0' && digits.all Char.isDigit

/-- The integer that a scalar writes. -/
def readInt? (cs : List Char) : Option Int :=
  match cs with
  | '-' :: rest =>
    (readBased? rest).or (if isPadded cs then none else readNat? 10 rest) |>.map fun n => -(n : Int)
  | cs =>
    let digits := match cs with
      | '+' :: rest => rest
      | rest => rest
    (readBased? digits).or (if isPadded cs then none else readNat? 10 digits) |>.map Int.ofNat

/-- Digits before and after a point, not both absent, and what follows. -/
def readMantissa? (cs : List Char) : Option (List Char × List Char × List Char) :=
  let whole := cs.takeWhile Char.isDigit
  let (fraction, rest) := match cs.dropWhile Char.isDigit with
    | '.' :: rest => (rest.takeWhile Char.isDigit, rest.dropWhile Char.isDigit)
    | rest => ([], rest)
  if whole.isEmpty && fraction.isEmpty then none else some (whole, fraction, rest)

/-- The decimal that a scalar writes; none if it lies beyond the largest number. -/
def readDecimal? (cs : List Char) : Option Binary64 := do
  let (negative, cs) := match cs with
    | '-' :: rest => (true, rest)
    | '+' :: rest => (false, rest)
    | rest => (false, rest)
  let (whole, fraction, rest) ← readMantissa? cs
  let (exponent, rest) ← Scientific.readExponent? rest
  if rest.isEmpty then
    Binary64.ofDecimal? negative (Scientific.digitsValue (whole ++ fraction))
      (exponent.getD 0 - fraction.length)
  else none

/-- What words for numbers that are not finite stand for. -/
def unbounded? (s : String) : Option Binary64.Extended :=
  if [".inf", ".Inf", ".INF", "+.inf", "+.Inf", "+.INF"].contains s then some (.infinite false)
  else if ["-.inf", "-.Inf", "-.INF"].contains s then some (.infinite true)
  else if [".nan", ".NaN", ".NAN"].contains s then some .notANumber
  else none

/-- The floating point number that a scalar writes. -/
def float? (s : String) : Option Binary64.Extended :=
  (unbounded? s).or ((readDecimal? s.toList).map .finite)

/-- Integers that 128 bits hold. -/
def fitsWide (n : Int) : Bool := -(twoTo 127 : Int) ≤ n && n < twoTo 128

/-- The floating point number that a scalar writes, or its text. -/
def floatOrText (s : String) : Scalar :=
  match float? s with
  | some (.finite x) => .number (.float x)
  | some _ => .unbounded
  | none => .text s

/-- What a scalar without quotes stands for. An integer that takes more than 64 but not more than
128 bits has no value. -/
def plain (s : String) : Scalar :=
  if isNullWord s then .null
  else
    match truthValue? s, readInt? s.toList with
    | some b, _ => .bool b
    | none, some n =>
      if h : WordSized n then .number (.int n h)
      else if fitsWide n then .unreadable
      else floatOrText s
    | none, none => if isPadded s.toList then .text s else floatOrText s

end Yaml
end ChartAdvisor
