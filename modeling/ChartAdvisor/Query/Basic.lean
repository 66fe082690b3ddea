import ChartAdvisor.Encoding.Open

/-!
# Chart queries

A chart query is a mark and a list of encodings, any part of which may be open. From a
query with a bar or an area it can be told whether and how its values stack.
-/
namespace ChartAdvisor

/-- A chart with open parts. -/
structure ChartQuery where
  data : Option Json := none
  mark : Slot Mark
  transform : Option (List Json) := none
  encodings : List Encoding := []
  config : Option Json.Members := none
deriving DecidableEq

namespace ChartQuery

instance : Coded ChartQuery where
  encode q := .ofPresent [
    ("data", q.data), ("mark", some (encode q.mark)), ("transform", q.transform.map Json.list),
    ("encodings", some (encode q.encodings)), ("config", q.config.map Json.object)]
  decode v := do
    let r ← Record.ofJson 5 v
    let config ← r.optional "config" 4
    let data ← r.optional "data" 0
    let encodings ← r.orElse "encodings" 3 []
    let mark ← r.required "mark" 1
    let transform ← r.optional "transform" 2
    return { data, mark, transform, encodings, config }

/-- Some encoding has a fixed aggregate or is an enabled auto count. -/
def isAggregate (q : ChartQuery) : Bool := q.encodings.any Encoding.isAggregate

/-- Whether the mark or a property is open that is not excluded. -/
def hasOpen (q : ChartQuery) (excluded : List Property) : Bool :=
  (q.mark.isOpen && !excluded.contains .mark) || q.encodings.any (·.hasOpen excluded)

/-- The encodings that play a part: disabled auto counts are left out. -/
def active (q : ChartQuery) : List Encoding := q.encodings.filter (!·.isDisabledAutoCount)

/-- The offsets at which a stack can start. -/
def stackOffsets : List String := ["zero", "center", "normalize"]

/-- The offset that the settings of the query name: `zero` when they say nothing or `true`,
none when stacking is switched off. A setting of another form is the error. -/
def stackOffset (q : ChartQuery) : Except Json (Option String) :=
  match q.config.bind (Json.lookup · "stack") with
  | none | some (.bool true) => .ok (some "zero")
  | some .null | some (.bool false) => .ok none
  | some (.text s) =>
    if s = "none" then .ok none
    else if stackOffsets.contains s then .ok (some s)
    else .error (.text s)
  | some v => .error v

end ChartQuery

/-- How aggregated values accumulate along one axis. -/
structure Stack where
  groupbyChannel : Option Channel
  fieldChannel : Channel
  stackBy : List Channel
  offset : String
  /-- The number of the encoding whose values accumulate. -/
  fieldIndex : Nat
deriving DecidableEq

namespace ChartQuery

/-- The channel by which an encoding splits a stack: a constant, or a field without an
aggregate, on a channel that groups. -/
def stackGroup? (e : Encoding) : Option Channel :=
  let splits := match e with
    | .value .. => true
    | .field q => !q.mayAggregate
    | .autoCount .. => false
  if splits then e.channel?.filter Channel.isStackGroup else none

/-- The number of the first encoding with a fixed channel. -/
def position? (q : ChartQuery) (c : Channel) : Option Nat := q.encodings.findIdx? (·.channel.is c)

/-- Whether the first encoding on a channel has an aggregate or may still get one. -/
def aggregatesOn (q : ChartQuery) (c : Channel) : Bool :=
  (q.encodings.find? (·.channel.is c)).any Encoding.mayAggregate

/-- The stack of an aggregated bar or area that is split by some channel, when exactly one
of its two axes holds the aggregate. -/
def stack? (q : ChartQuery) : Option Stack :=
  match q.stackOffset with
  | .error _ | .ok none => none
  | .ok (some offset) =>
    if !(q.mark.value?.any Mark.isStackable && q.isAggregate) then none
    else
      let stackBy := q.encodings.filterMap stackGroup?
      let x := q.position? .x
      let y := q.position? .y
      if stackBy.isEmpty || q.aggregatesOn .x == q.aggregatesOn .y then none
      else if q.aggregatesOn .x then
        x.map fun i => ⟨y.map fun _ => .y, .x, stackBy, offset, i⟩
      else y.map fun i => ⟨x.map fun _ => .x, .y, stackBy, offset, i⟩

end ChartQuery

/-- The members of a stack. -/
def Stack.toJson (s : Stack) : Json :=
  .object [
    ("groupbyChannel", encode s.groupbyChannel), ("fieldChannel", encode s.fieldChannel),
    ("stackBy", encode s.stackBy), ("offset", .text s.offset),
    ("fieldIndex", encode s.fieldIndex)]

end ChartAdvisor
