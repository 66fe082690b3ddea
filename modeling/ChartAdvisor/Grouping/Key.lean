import ChartAdvisor.Shorthand.Printer

/-!
# Keys to group by

A key says which properties of a chart it looks at, and which of their words it takes for the
same. Charts with one shorthand under a key are in one group. A key is known by a name or lists
its properties.
-/
namespace ChartAdvisor

/-- A property that a key looks at, perhaps with words to write in place of others. -/
structure KeyPart where
  property : Property
  words : Option Replacement := none
deriving DecidableEq

/-- What charts are grouped by. -/
inductive GroupKey
  | named (name : String)
  | properties (parts : List KeyPart)
deriving DecidableEq

/-- One level of groups, and the ranking by which groups are put in order. -/
structure GroupLevel where
  groupBy : GroupKey
  orderGroupBy : Option String := none
deriving DecidableEq

namespace KeyPart

/-- Reads the words of a replacement, by ascending word. -/
def decodeWords (v : Json) : Except JsonError Replacement := do
  let members ← (decode v : Except JsonError Json.Members)
  members.mapM fun (word, other) => (decode other).map (word, ·)

instance : Coded KeyPart where
  encode part :=
    match part.words with
    | none => encode part.property
    | some words =>
      .object [("property", encode part.property),
        ("replace", .object (words.map fun (word, other) => (word, .text other)))]
  decode v :=
    match (decode v : Except JsonError Property), v with
    | .ok property, _ => .ok { property }
    | .error _, .object members => do
      let words ← JsonError.ofOption (Json.lookup members "replace")
      return { property := ← (Record.named members).required "property" 0,
               words := some (← decodeWords words) }
    | .error e, _ => .error e

end KeyPart

namespace GroupKey

instance : Coded GroupKey where
  encode
    | named name => .text name
    | properties parts => encode parts
  decode
    | .text name => .ok (named name)
    | v => (decode v).map properties

/-- The names that keys have. -/
def names : List String := ["field", "fieldTransform", "encoding", "transpose", "spec"]

/-- The properties that say which data are shown. -/
def dataProperties : List Property := [.field, .type, .aggregate, .bin, .timeUnit]

/-- Takes the two axes for the same, and the two facets. -/
def foldedPlaces : Replacement := [("column", "facet"), ("row", "facet"), ("x", "xy"), ("y", "xy")]

/-- Takes all channels of style for the same as well. -/
def foldedStyles : Replacement :=
  [("color", "style"), ("column", "facet"), ("opacity", "style"), ("row", "facet"),
    ("shape", "style"), ("size", "style"), ("x", "xy"), ("y", "xy")]

/-- What a key looks at and what it takes for the same; nothing for an unknown name. Of several
replacements for one property in a list the last one counts. -/
def resolve? : GroupKey → Option (Include × Replacers)
  | named "field" => some (.ofList dataProperties, [])
  | named "fieldTransform" => some (.ofList (.stack :: dataProperties), [])
  | named "encoding" =>
    some (.ofList (.stack :: .channel :: dataProperties), [(.channel, foldedStyles)])
  | named "transpose" =>
    some (.ofList (.stack :: .channel :: .mark :: dataProperties), [(.channel, foldedPlaces)])
  | named "spec" => some (.all, [])
  | named _ => none
  | properties parts =>
    some (.ofList (parts.map KeyPart.property),
      parts.foldl (fun found part =>
        match part.words with
        | none => found
        | some words => Table.put part.property words found) [])

end GroupKey

namespace GroupLevel

instance : Coded GroupLevel where
  encode l := .ofPresent [
    ("groupBy", some (encode l.groupBy)), ("orderGroupBy", l.orderGroupBy.map Json.text)]
  decode v := do
    let r ← Record.ofJson 2 v
    return ⟨← r.required "groupBy" 0, ← r.optional "orderGroupBy" 1⟩

end GroupLevel
end ChartAdvisor
