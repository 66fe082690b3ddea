import ChartAdvisor.Document.Basic
import ChartAdvisor.Number.Scientific

/-!
# Reading JSON

The syntax is strict: no zeros before a number, no commas at the end, no raw control characters
in a text and nothing but blanks after the value. `readDocument?` checks no more than that.
`read?` asks for the values too: every number has to be in range, the halves of every character
have to stand together, and at most 127 arrays and objects stand inside one another. Numbers that
fit a 64-bit word stay integers, except for a negative zero; all others are floating point
numbers, computed in rounded steps.
-/
namespace ChartAdvisor
namespace Json

/-- How many arrays and objects may stand inside one another. -/
def depthLimit : Nat := 127

def isBlank (c : Char) : Bool := c == ' ' || c == '\n' || c == '\t' || c == '\r'

def skipBlanks (cs : List Char) : List Char := cs.dropWhile isBlank

/-- The value of a hexadecimal digit of either case. -/
def hexValue? (c : Char) : Option Nat :=
  if c.isDigit then some (c.toNat - '0'.toNat)
  else if 'a' ≤ c ∧ c ≤ 'f' then some (c.toNat - 'a'.toNat + 10)
  else if 'A' ≤ c ∧ c ≤ 'F' then some (c.toNat - 'A'.toNat + 10)
  else none

/-- The value of four hexadecimal digits. -/
def hexValue4? (a b c d : Char) : Option Nat := do
  let a ← hexValue? a
  let b ← hexValue? b
  let c ← hexValue? c
  let d ← hexValue? d
  return ((a * 16 + b) * 16 + c) * 16 + d

/-- What a single letter after a backslash stands for. -/
def unescape? (c : Char) : Option Char :=
  match c with
  | '"' => some '"'
  | '\\' => some '\\'
  | '/' => some '/'
  | 'b' => some '\x08'
  | 'f' => some '\x0c'
  | 'n' => some '\n'
  | 'r' => some '\r'
  | 't' => some '\t'
  | _ => none

/-- The rest of a quoted text after its opening quote: the codes of its characters, where an escape
may write one half of a character, and what follows the closing quote. -/
def readCodes? : List Char → Option (List Nat × List Char)
  | [] => none
  | '"' :: rest => some ([], rest)
  | '\\' :: 'u' :: a :: b :: c :: d :: rest => do
    let code ← hexValue4? a b c d
    let (codes, rest) ← readCodes? rest
    return (code :: codes, rest)
  | '\\' :: c :: rest => do
    let c ← unescape? c
    let (codes, rest) ← readCodes? rest
    return (c.toNat :: codes, rest)
  | c :: rest =>
    if c = '\\' ∨ c.toNat < 32 then none
    else do
      let (codes, rest) ← readCodes? rest
      return (c.toNat :: codes, rest)

/-- Codes of the first halves of characters. -/
def isLead (code : Nat) : Bool := 0xD800 ≤ code && code < 0xDC00

/-- Codes of the second halves of characters. -/
def isTrail (code : Nat) : Bool := 0xDC00 ≤ code && code < 0xE000

/-- The characters that codes stand for; a half needs its other half. -/
def ofCodes? : List Nat → Option (List Char)
  | [] => some []
  | [code] => if isLead code || isTrail code then none else some [Char.ofNat code]
  | code :: next :: rest =>
    if isLead code then
      if isTrail next then
        (ofCodes? rest).map (Char.ofNat (0x10000 + (code - 0xD800) * 0x400 + (next - 0xDC00)) :: ·)
      else none
    else if isTrail code then none
    else (ofCodes? (next :: rest)).map (Char.ofNat code :: ·)

/-- The text that codes stand for. -/
def textOfCodes (codes : List Nat) : Scalar :=
  match ofCodes? codes with
  | some cs => .text (String.ofList cs)
  | none => .unreadable

/-- The number of a sign, the digits before and after the point, and an exponent; `none` if it is
out of range. -/
def numberOf? (negative : Bool) (whole fraction : List Char) (exponent : Option Int) :
    Option Number :=
  let float := (Scientific.inSteps? negative whole fraction (exponent.getD 0)).map Number.float
  if fraction.isEmpty ∧ exponent.isNone then
    let n : Int := Scientific.digitsValue whole
    let n := if negative then -n else n
    if negative ∧ n = 0 then float else if h : WordSized n then some (.int n h) else float
  else float

/-- A number and what follows it. -/
def readNumber? (cs : List Char) : Option (Scalar × List Char) := do
  let (negative, cs) := match cs with
    | '-' :: rest => (true, rest)
    | rest => (false, rest)
  let whole := cs.takeWhile Char.isDigit
  if whole.isEmpty ∨ (whole.head? = some '0' ∧ whole.length ≠ 1) then none
  else
    let (fraction, cs) ← Scientific.readFraction? (cs.dropWhile Char.isDigit)
    let (exponent, cs) ← Scientific.readExponent? cs
    match numberOf? negative whole fraction exponent with
    | some n => return (.number n, cs)
    | none => return (.unreadable, cs)

mutual

/-- A value and what follows it. Each step takes one unit of fuel. -/
def readValue? : (fuel : Nat) → List Char → Option (Document × List Char)
  | 0, _ => none
  | fuel + 1, cs =>
    match skipBlanks cs with
    | 'n' :: 'u' :: 'l' :: 'l' :: rest => some (.scalar .null none, rest)
    | 't' :: 'r' :: 'u' :: 'e' :: rest => some (.scalar (.bool true) none, rest)
    | 'f' :: 'a' :: 'l' :: 's' :: 'e' :: rest => some (.scalar (.bool false) none, rest)
    | '"' :: rest => do
      let (codes, rest) ← readCodes? rest
      return (.scalar (textOfCodes codes) none, rest)
    | '[' :: rest =>
      match skipBlanks rest with
      | ']' :: rest => some (.list [], rest)
      | rest => do
        let (items, rest) ← readItems? fuel rest
        return (.list items, rest)
    | '{' :: rest =>
      match skipBlanks rest with
      | '}' :: rest => some (.mapping [], rest)
      | rest => do
        let (entries, rest) ← readEntries? fuel rest
        return (.mapping entries, rest)
    | cs => do
      let (n, rest) ← readNumber? cs
      return (.scalar n none, rest)

/-- The items of an array up to its closing bracket. -/
def readItems? : (fuel : Nat) → List Char → Option (List Document × List Char)
  | 0, _ => none
  | fuel + 1, cs => do
    let (v, cs) ← readValue? fuel cs
    match skipBlanks cs with
    | ',' :: cs => do
      let (items, cs) ← readItems? fuel cs
      return (v :: items, cs)
    | ']' :: cs => return ([v], cs)
    | _ => none

/-- The entries of an object up to its closing bracket. -/
def readEntries? : (fuel : Nat) → List Char → Option (List (Document × Document) × List Char)
  | 0, _ => none
  | fuel + 1, cs =>
    match skipBlanks cs with
    | '"' :: cs => do
      let (codes, cs) ← readCodes? cs
      match skipBlanks cs with
      | ':' :: cs => do
        let (v, cs) ← readValue? fuel cs
        match skipBlanks cs with
        | ',' :: cs => do
          let (entries, cs) ← readEntries? fuel cs
          return ((.scalar (textOfCodes codes) none, v) :: entries, cs)
        | '}' :: cs => return ([(.scalar (textOfCodes codes) none, v)], cs)
        | _ => none
      | _ => none
    | _ => none

end

/-- The document that a whole text writes. -/
def readDocument? (cs : List Char) : Option Document :=
  match readValue? (2 * cs.length + 2) cs with
  | some (d, rest) => if (skipBlanks rest).isEmpty then some d else none
  | none => none

/-- The value that a whole text writes. -/
def read? (cs : List Char) : Option Json :=
  (readDocument? cs).bind (Document.toJson? .byMeaning depthLimit)

end Json
end ChartAdvisor
