import ChartAdvisor.Query.Chart
import ChartAdvisor.Shorthand.Scanner

/-!
# Reading shorthands

The inverse of writing them: `mark|transform:[…]|channel:function(field,type,key=value)|…`.
What a parameter holds is read as JSON where it is JSON, and as a text where it is not.
-/
namespace ChartAdvisor
namespace Shorthand

/-- What reading a part of a shorthand gives. -/
abbrev Result := Except ShorthandError

def fail {α : Type} (input : List Char) (fault : ShorthandFault) : Result α :=
  .error (.malformed (String.ofList input) fault)

/-- Blames a failed reading on a piece of JSON. -/
def inFragment {α : Type} (fragment : List Char) : Except JsonError α → Result α
  | .ok v => .ok v
  | .error cause => .error (.badJson (String.ofList fragment) cause)

def readJson (α : Type) [Readable α] (fragment : List Char) : Result α :=
  inFragment fragment (JsonError.ofOption (Json.readTextAs? α fragment))

def readWord (α : Type) [Vocabulary α] (word : List Char) : Result α :=
  (Vocabulary.parse (String.ofList word)).mapError .unknownWord

/-- Reads `?`, `?` with a list of candidates behind it, or a fixed value. -/
def readSlot {α : Type} [Readable α] (fixed : List Char → Result α) (token : List Char) :
    Result (Slot α) :=
  match token with
  | ['?'] => .ok (.wild .short)
  | '?' :: candidates => (readJson (List α) candidates).map fun vs => .wild (.ofCandidates vs)
  | token => (fixed token).map .fixed

/-- Reads the value of a parameter. An open one with candidates becomes the object that is
written for it in JSON. -/
def readValue (raw : List Char) : Result Json :=
  match raw with
  | ['?'] => .ok (.text Wildcard.mark)
  | '?' :: candidates => (readJson Json candidates).map fun vs => .object [("enum", vs)]
  | raw => .ok ((Json.read? raw).getD (.text (String.ofList raw)))

/-- Reads a value into a type. -/
def readInto (α : Type) [Coded α] (raw : List Char) : Result α := do
  let v ← readValue raw
  inFragment raw (decode v)

/-- A field with its parameters read so far; the parameters of a bin are kept apart until it
is known whether the field is binned. -/
structure RawField where
  query : FieldEncoding
  bin : Option Bin := none

/-- Adds a parameter to a field. The stack offset of a query is not read back. -/
def RawField.add (input : List Char) (f : RawField) (key raw : List Char) : Result RawField :=
  let name := String.ofList key
  match (Vocabulary.ofName? name : Option BinParameter) with
  | some p => do
    let v ← readValue raw
    let bin ← inFragment raw ((f.bin.getD {}).set p v)
    return { f with bin := some bin }
  | none =>
    match name with
    | "scale" => do return { f with query := { f.query with scale := some (← readInto _ raw) } }
    | "axis" => do return { f with query := { f.query with axis := some (← readInto _ raw) } }
    | "legend" => do return { f with query := { f.query with legend := some (← readInto _ raw) } }
    | "sort" => do return { f with query := { f.query with sort := some (← readInto _ raw) } }
    | "stack" => .ok f
    | name => fail input (.unknownParameter name)

def readType (input letter : List Char) : Result FieldType :=
  match FieldType.ofLetter? letter with
  | some t => .ok t
  | none => fail input (.unknownType (String.ofList letter))

/-- Reads `field,type,key=value,…`. A field without a type leaves its type open. -/
def readRawField (channel : Slot Channel) (input : List Char) : Result RawField := do
  match Text.splitWithTail [','] 2 input with
  | [name, letter, parameters] =>
    let field ← readSlot (fun f => .ok (String.ofList f)) name
    let type ← if letter.isEmpty then .ok (.wild .short) else readSlot (readType input) letter
    match splitParameters parameters with
    | .error fault => fail input fault
    | .ok parameters =>
      parameters.foldlM (fun f (key, raw) => f.add input key raw) { query := { channel, field, type } }
  | _ => fail input (.noChannel (String.ofList input))

/-- The field itself, when no parameters of a bin are left over. -/
def RawField.unbinned (input : List Char) (f : RawField) : Result FieldEncoding :=
  if f.bin.isSome then fail input .strayBinParameters else .ok f.query

/-- Reads what stands for an open function. -/
def readFunctionSlot (α : Type) [Coded α] (fragment : List Char) (v : Json) : Result (Wildcard α) :=
  match v with
  | .list vs => (inFragment fragment (decode (.list vs))).map .ofCandidates
  | v => if v = .text Wildcard.mark then .ok .short else fail fragment (.notWildcard v)

/-- Adds an open function to a field. -/
def RawField.addFunction (input fragment : List Char) (f : RawField) (key : String) (v : Json) :
    Result RawField := do
  match key with
  | "aggregate" =>
    return { f with query := { f.query with aggregate := .wild (← readFunctionSlot _ fragment v) } }
  | "timeUnit" =>
    return { f with query := { f.query with timeUnit := .wild (← readFunctionSlot _ fragment v) } }
  | "bin" =>
    let flag ← readFunctionSlot _ fragment v
    return { f with query := { f.query with bin := some (.wild flag (f.bin.getD {})) }, bin := none }
  | "hasFn" => return { f with query := { f.query with hasFunction := v == .bool true } }
  | key => fail input (.unknownFunctionProperty key)

/-- The text between an opening parenthesis and a closing one at the end. -/
def parenthesised? : List Char → Option (List Char)
  | '(' :: rest =>
    match rest.getLast? with
    | some ')' => some rest.dropLast
    | _ => none
  | _ => none

/-- Reads a field whose functions are open, `?{…}(field,…)`; the members of the object are the
functions. -/
def readOpenFunctions (channel : Slot Channel) (input : List Char) : Result Encoding := do
  match bracketed? 0 .outside (input.drop 1) with
  | none => fail input .unbalancedFunction
  | some (fragment, rest) =>
    match parenthesised? rest with
    | none => fail input .noParenthesis
    | some inner =>
      let members ← readJson Json.Members fragment
      match Json.lookup members "autoCount" with
      | some v => return .autoCount channel (.wild (← readFunctionSlot Bool fragment v))
      | none =>
        let f ← readRawField channel inner
        let f ← members.foldlM (fun f (key, v) => f.addFunction input fragment key v) f
        return .field (← f.unbinned input)

/-- The name and the inner part of `name(…)`: lower case letters, and no line break inside. -/
def functionCall? (input : List Char) : Option (List Char × List Char) :=
  let isLower (c : Char) : Bool := 'a' ≤ c && c ≤ 'z'
  let name := input.takeWhile isLower
  if name.isEmpty then none
  else
    match parenthesised? (input.dropWhile isLower) with
    | some inner => if inner.contains '\n' then none else some (name, inner)
    | none => none

/-- Reads a field with a function applied to it. -/
def readFunction (channel : Slot Channel) (input name inner : List Char) : Result Encoding := do
  let word := String.ofList name
  if word = "autocount" then return .autoCount channel (.fixed true)
  let f ← readRawField channel inner
  if word = "bin" then return .field { f.query with bin := some (.on (f.bin.getD {})) }
  let q ← f.unbinned input
  match (Vocabulary.ofName? word : Option Aggregate), (Vocabulary.ofName? word : Option TimeUnit) with
  | some op, _ => return .field { q with aggregate := .fixed (some op) }
  | none, some unit => return .field { q with timeUnit := .fixed (some unit) }
  | none, none => fail input (.unknownFunction word)

/-- Reads what stands behind a channel: a dash for a count of rows that is switched off, a
constant, a field with open functions, with a function or with none. -/
def readDefinition (channel : Slot Channel) (input : List Char) : Result Encoding := do
  match input with
  | ['-'] => return .autoCount channel (.fixed false)
  | 'v' :: 'a' :: 'l' :: 'u' :: 'e' :: '=' :: raw => return .value channel (← readInto _ raw)
  | '?' :: '{' :: _ => readOpenFunctions channel input
  | input =>
    match functionCall? input with
    | some (name, inner) => readFunction channel input name inner
    | none => return .field (← (← readRawField channel input).unbinned input)

/-- Reads a channel and what stands behind it. -/
def readEncoding (channel definition : List Char) : Result Encoding := do
  readDefinition (← readSlot (readWord Channel) channel) definition

/-- Reads one part behind the mark into a query. -/
def readPart (input : List Char) (q : ChartQuery) (part : List Char) : Result ChartQuery := do
  match Text.dropStart? ['t', 'r', 'a', 'n', 's', 'f', 'o', 'r', 'm', ':'] part with
  | some text => return { q with transform := some (← readJson (List Json) text) }
  | none =>
    match Text.splitWithTail [':'] 1 part with
    | [channel, definition] =>
      if definition.isEmpty then fail input (.noChannel (String.ofList part))
      else
        let e ← readEncoding channel definition
        return { q with encodings := q.encodings ++ [e] }
    | _ => fail input (.noChannel (String.ofList part))

end Shorthand

/-- Reads the shorthand of a query. -/
def ChartQuery.ofShorthand (text : String) : Except ShorthandError ChartQuery := do
  let input := text.toList
  match Shorthand.splitTop '|' 0 .outside input with
  | (c :: mark) :: parts =>
    let mark ← Shorthand.readSlot (Shorthand.readWord Mark) (c :: mark)
    parts.foldlM (Shorthand.readPart input) { mark }
  | _ => Shorthand.fail input .missingMark

end ChartAdvisor
