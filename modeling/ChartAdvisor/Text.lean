/-!
# Cutting texts

Texts are lists of characters. They are cut at single characters or at the first places
where a delimiter stands.
-/
namespace ChartAdvisor
namespace Text

/-- The pieces of a text between the characters that a test accepts. -/
def splitAt (test : Char → Bool) : List Char → List (List Char)
  | [] => [[]]
  | c :: rest =>
    match splitAt test rest with
    | [] => [[c]]
    | piece :: pieces => if test c then [] :: piece :: pieces else (c :: piece) :: pieces

/-- Characters that Unicode counts as blanks. -/
def isBlank (c : Char) : Bool :=
  let n := c.toNat
  (9 ≤ n && n ≤ 13) || n == 0x20 || n == 0x85 || n == 0xA0 || n == 0x1680 ||
    (0x2000 ≤ n && n ≤ 0x200A) || n == 0x2028 || n == 0x2029 || n == 0x202F || n == 0x205F ||
    n == 0x3000

/-- The text without blanks at its two ends. -/
def trim (cs : List Char) : List Char :=
  ((cs.dropWhile isBlank).reverse.dropWhile isBlank).reverse

/-- The rest of a text after what it starts with. -/
def dropStart? : (start text : List Char) → Option (List Char)
  | [], text => some text
  | _ :: _, [] => none
  | s :: start, c :: text => if s = c then dropStart? start text else none

/-- The parts before and after the first place where a delimiter stands. -/
def cutAt? (delimiter : List Char) : List Char → Option (List Char × List Char)
  | [] => none
  | c :: text =>
    match dropStart? delimiter (c :: text) with
    | some rest => some ([], rest)
    | none => (cutAt? delimiter text).map fun (before, rest) => (c :: before, rest)

/-- Cuts behind each of the first `count` characters. -/
def splitSingles : Nat → List Char → List (List Char)
  | 0, text => [text]
  | count + 1, c :: text => [c] :: splitSingles count text
  | count + 1, [] => List.replicate (count + 2) []

/-- Cuts at the first `count` delimiters; the last part keeps the rest, and missing parts
are empty, so that there are always `count + 1` of them. The empty delimiter stands before
and behind every character. -/
def splitWithTail (delimiter : List Char) : Nat → List Char → List (List Char)
  | 0, text => [text]
  | count + 1, text =>
    if delimiter.isEmpty then [] :: splitSingles count text
    else
      match cutAt? delimiter text with
      | some (before, rest) => before :: splitWithTail delimiter count rest
      | none => text :: List.replicate (count + 1) []

end Text
end ChartAdvisor
