import ChartAdvisor.Query.Basic

/-!
# Charts

A chart is a query with nothing left open: one definition per channel. A query that is
resolved becomes a chart, and a chart, or any unit specification, can be read as a query.
-/
namespace ChartAdvisor

/-- A finished chart. -/
structure Chart where
  data : Option Json
  transform : Option (List Json)
  mark : Mark
  /-- The definitions in the order of the channels, one for each. -/
  encoding : List (Channel × Json.Members)
  config : Option Json.Members
deriving DecidableEq

/-- Definitions in the order of the channels with one added; a channel that has one gets
the new one. -/
def putDefinition (c : Channel) (d : Json.Members) :
    List (Channel × Json.Members) → List (Channel × Json.Members)
  | [] => [(c, d)]
  | (c', d') :: rest =>
    if c = c' then (c, d) :: rest
    else if Vocabulary.index c < Vocabulary.index c' then (c, d) :: (c', d') :: rest
    else (c', d') :: putDefinition c d rest

namespace Chart

/-- The definitions read from the members of an object. -/
def definitions (members : Json.Members) : Except JsonError (List (Channel × Json.Members)) :=
  members.foldlM (fun found (k, v) => do
    let c ← JsonError.ofOption (Vocabulary.ofName? k)
    return putDefinition c (← decode v) found) []

instance : Coded Chart where
  encode c := .ofPresent [
    ("data", c.data), ("transform", c.transform.map Json.list), ("mark", some (encode c.mark)),
    ("encoding", some (.object (c.encoding.map fun (ch, d) => (Vocabulary.name ch, .object d)))),
    ("config", c.config.map Json.object)]
  decode v := do
    let r ← Record.ofJson 5 v
    let members : Json.Members ← r.required "encoding" 3
    return {
      data := ← r.optional "data" 0
      transform := ← r.optional "transform" 1
      mark := ← r.required "mark" 2
      encoding := ← definitions members
      config := ← r.optional "config" 4 }

end Chart

namespace Encoding

/-- A switched part in a definition: `null` when it is off, nothing while it is open. -/
def definitionOf {α : Type} [Settings α] : Toggle α → Option Json
  | .wild .. => none
  | .off => some .null
  | .on t => some (encode (Toggle.on t)).sorted

/-- Adds a switched part under a key, if there is one; fails while it is open. -/
def withPart {α : Type} [Settings α] (key : String) (t : Option (Toggle α)) (d : Json.Members) :
    Option Json.Members :=
  match t with
  | none => some d
  | some t => (definitionOf t).map fun v => Table.insert key v d

/-- The definition of an encoding on its channel; there is none while it is open. -/
def definition? (c : Channel) : Encoding → Option Json.Members
  | .autoCount _ b =>
    if b.isOpen then none
    else some [("aggregate", .text "count"), ("field", .text "*"),
      ("type", encode FieldType.quantitative)]
  | .value _ v => v.value?.map fun v => [("value", v)]
  | .field q =>
    if (Encoding.field q).hasOpen [] then none
    else do
      let name ← q.field.value?
      let type ← q.type.value?
      let fixed : List (String × Option Json) := [
        ("aggregate", q.aggregate?.map encode), ("timeUnit", q.timeUnit?.map encode),
        ("field", some (.text name)), ("type", some (encode type)),
        ("sort", q.sort.map fun s => (encode s).sorted)]
      let d := Json.extend [] (fixed.filterMap fun (k, v) => v.map (k, ·))
      let d ← withPart "bin" (q.bin.filter Toggle.isOn) d
      let d ← withPart "scale" (q.scale.filter fun _ => c.supportsScale) d
      let d ← withPart "axis" (q.axis.filter fun _ => c.supportsAxis) d
      withPart "legend" (q.legend.filter fun _ => c.supportsLegend) d

end Encoding

namespace ChartQuery

/-- Puts one definition after another; fails at the first encoding that is open. -/
def definitions? : List Encoding → List (Channel × Json.Members) →
    Option (List (Channel × Json.Members))
  | [], found => some found
  | e :: rest, found => do
    let c ← e.channel?
    let d ← e.definition? c
    definitions? rest (putDefinition c d found)

/-- The chart of a resolved query, its settings on top of the given ones. There is none as
long as the mark or an encoding that plays a part is open. -/
def toChart? (q : ChartQuery) (defaults : Json.Members) : Option Chart := do
  let mark ← q.mark.value?
  let encoding ← definitions? q.active []
  let config := Json.extend defaults (q.config.getD [])
  return { data := q.data, transform := q.transform, mark, encoding,
           config := if config.isEmpty then none else some config }

/-- Whether a member of a channel definition belongs to an encoding. -/
def isEncodingKey (key : String) : Bool :=
  key == "value" || (Vocabulary.ofName? key).any Property.encodingTop.contains

/-- The members of an encoding for a channel and its definition. A part that is `null` is
switched off. -/
def encodingMembers (channel : String) (definition : Json) : Json.Members :=
  ((definition.object?.getD []).filter fun (k, _) => isEncodingKey k).foldl
    (fun ms (k, v) =>
      let v := if v.isNull && ["bin", "scale", "axis", "legend"].contains k then .bool false else v
      Table.insert k v ms)
    [("channel", .text channel)]

/-- Reads a unit specification, a mark and one definition per channel, as a query. -/
def ofUnit (v : Json) : Except SerialisationError ChartQuery := do
  match v with
  | .object members =>
    let read : Except JsonError ChartQuery := do
      let mark ← decode ((Json.lookup members "mark").getD .null)
      let definitions := ((Json.lookup members "encoding").bind Json.object?).getD []
      let encodings ← definitions.mapM fun (channel, d) =>
        decode (.object (encodingMembers channel d))
      return {
        data := Json.lookup members "data", mark, encodings
        transform := (Json.lookup members "transform").bind Json.list?
        config := (Json.lookup members "config").bind Json.object? }
    read.mapError .json
  | v => .error (.unexpectedShape "a unit specification object" v.compact)

end ChartQuery

/-- The query that a chart reads as. -/
def Chart.toQuery (c : Chart) : Except SerialisationError ChartQuery :=
  ChartQuery.ofUnit (encode c).sorted

end ChartAdvisor
