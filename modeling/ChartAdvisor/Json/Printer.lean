import ChartAdvisor.Json.Basic

/-!
# JSON text

`Json.compact` writes no blanks. `Json.pretty` puts every item and member on a line of its
own, two blanks deeper than the bracket around it. Objects are written in the order in
which they list their members.
-/
namespace ChartAdvisor

/-- A decimal is written with a point alone while its scientific exponent lies between -5
and 15, and a whole number then ends in `.0`. -/
def Number.layout : DecimalLayout := ⟨-5, 15, true⟩

/-- The text of a number. -/
def Number.chars : Number → List Char
  | .int n _ => (toString n).toList
  | .float x => (Number.layout.render x).toList

namespace Json

/-- The digit of a value below sixteen, in lower case. -/
def hexDigit (n : Nat) : Char :=
  if n < 10 then Char.ofNat ('0'.toNat + n) else Char.ofNat ('a'.toNat + (n - 10))

/-- A character inside a quoted text: the quote, the backslash and control characters are
escaped, all else stands for itself. -/
def escapeChar (c : Char) : List Char :=
  if c = '"' then ['\\', '"']
  else if c = '\\' then ['\\', '\\']
  else if c.toNat < 32 then
    match c.toNat with
    | 8 => ['\\', 'b']
    | 9 => ['\\', 't']
    | 10 => ['\\', 'n']
    | 12 => ['\\', 'f']
    | 13 => ['\\', 'r']
    | n => ['\\', 'u', '0', '0', hexDigit (n / 16), hexDigit (n % 16)]
  else [c]

/-- A text in quotes. -/
def quote (s : String) : List Char := '"' :: (s.toList.flatMap escapeChar ++ ['"'])

mutual

/-- The text of a value without blanks. -/
def chars : Json → List Char
  | .null => ['n', 'u', 'l', 'l']
  | .bool true => ['t', 'r', 'u', 'e']
  | .bool false => ['f', 'a', 'l', 's', 'e']
  | .number n => n.chars
  | .text s => quote s
  | .list [] => ['[', ']']
  | .list (v :: rest) => '[' :: (chars v ++ itemChars rest ++ [']'])
  | .object [] => ['{', '}']
  | .object ((k, v) :: rest) => '{' :: (quote k ++ ':' :: (chars v ++ memberChars rest ++ ['}']))

/-- The items after the first, each behind a comma. -/
def itemChars : List Json → List Char
  | [] => []
  | v :: rest => ',' :: (chars v ++ itemChars rest)

/-- The members after the first, each behind a comma. -/
def memberChars : List (String × Json) → List Char
  | [] => []
  | (k, v) :: rest => ',' :: (quote k ++ ':' :: (chars v ++ memberChars rest))

end

/-- The text of a value without blanks. -/
def compact (v : Json) : String := String.ofList v.chars

/-- A line break and the blanks of a depth. -/
def lineBreak (depth : Nat) : String := "\n" ++ String.ofList (List.replicate (2 * depth) ' ')

mutual

/-- The text of a value that starts at a depth, over several lines. -/
def prettyAt (depth : Nat) : Json → String
  | .list [] => "[]"
  | .list (v :: rest) =>
    "[" ++ lineBreak (depth + 1) ++ prettyAt (depth + 1) v ++ prettyItems (depth + 1) rest ++
      lineBreak depth ++ "]"
  | .object [] => "\x7b\x7d"
  | .object ((k, v) :: rest) =>
    "\x7b" ++ lineBreak (depth + 1) ++ String.ofList (quote k) ++ ": " ++ prettyAt (depth + 1) v ++
      prettyMembers (depth + 1) rest ++ lineBreak depth ++ "\x7d"
  | v => compact v

def prettyItems (depth : Nat) : List Json → String
  | [] => ""
  | v :: rest => "," ++ lineBreak depth ++ prettyAt depth v ++ prettyItems depth rest

def prettyMembers (depth : Nat) : List (String × Json) → String
  | [] => ""
  | (k, v) :: rest =>
    "," ++ lineBreak depth ++ String.ofList (quote k) ++ ": " ++ prettyAt depth v ++
      prettyMembers depth rest

end

/-- The text of a value over several lines. -/
def pretty (v : Json) : String := prettyAt 0 v

end Json
end ChartAdvisor
