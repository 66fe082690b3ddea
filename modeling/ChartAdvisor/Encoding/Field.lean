import ChartAdvisor.Encoding.Scale

/-!
# Field encodings

A field mapped to a channel, with at most one kind of function applied to it, and the scale
type that results.
-/
namespace ChartAdvisor

/-- A field on a channel, with its function, its scale and its guides. -/
structure FieldEncoding where
  channel : Slot Channel
  aggregate : Slot (Option Aggregate) := .fixed none
  timeUnit : Slot (Option TimeUnit) := .fixed none
  /-- The field must carry an aggregate, a bin or a time unit. -/
  hasFunction : Bool := false
  bin : Option (Toggle Bin) := none
  scale : Option (Toggle Scale) := none
  sort : Option (Slot Sorting) := none
  field : Slot String
  type : Slot FieldType
  axis : Option (Toggle Guide) := none
  legend : Option (Toggle Guide) := none
deriving DecidableEq

namespace FieldEncoding

/-- A slot that stays unwritten while it is fixed at no function. -/
def encodeFunction {α : Type} [Vocabulary α] : Slot (Option α) → Option Json
  | .fixed none => none
  | s => some (encode s)

def toJson (q : FieldEncoding) : Json :=
  .ofPresent [
    ("channel", some (encode q.channel)),
    ("aggregate", encodeFunction q.aggregate),
    ("timeUnit", encodeFunction q.timeUnit),
    ("hasFn", if q.hasFunction then some (.bool true) else none),
    ("bin", q.bin.map encode),
    ("scale", q.scale.map encode),
    ("sort", q.sort.map encode),
    ("field", some (encode q.field)),
    ("type", some (encode q.type)),
    ("axis", q.axis.map encode),
    ("legend", q.legend.map encode)]

/-- Reads the parts by ascending name, so that of several bad parts the first one is
reported, and a missing part last. A field without a type leaves its type open. -/
def ofRecord (r : Record) : Except JsonError FieldEncoding := do
  let aggregate ← r.orElse "aggregate" 1 (.fixed none)
  let axis ← r.optional "axis" 9
  let bin ← r.optional "bin" 4
  let channel ← r.present "channel" 0
  let field ← r.present "field" 7
  let hasFunction ← r.orElse "hasFn" 3 false
  let legend ← r.optional "legend" 10
  let scale ← r.optional "scale" 5
  let sort ← r.optional "sort" 6
  let timeUnit ← r.orElse "timeUnit" 2 (.fixed none)
  let type ← r.orElse "type" 8 (.wild .short)
  let channel ← JsonError.ofOption channel
  let field ← JsonError.ofOption field
  return {
    channel, aggregate, timeUnit, hasFunction, bin, scale, sort, field, type, axis, legend }

/-- The aggregate that is fixed, if there is one. -/
def aggregate? (q : FieldEncoding) : Option Aggregate := q.aggregate.value?.join

/-- The time unit that is fixed, if there is one. -/
def timeUnit? (q : FieldEncoding) : Option TimeUnit := q.timeUnit.value?.join

def isBinned (q : FieldEncoding) : Bool := q.bin.any Toggle.isOn

def binIsOpen (q : FieldEncoding) : Bool := q.bin.any Toggle.isOpen

/-- A bin that is switched on or may still be. -/
def binIsPresent (q : FieldEncoding) : Bool := q.bin.any Toggle.isPresent

/-- Whether an aggregate is set or may still be. -/
def mayAggregate (q : FieldEncoding) : Bool :=
  match q.aggregate with
  | .fixed none => false
  | _ => true

/-- Whether a time unit is set or may still be. -/
def mayHaveTimeUnit (q : FieldEncoding) : Bool :=
  match q.timeUnit with
  | .fixed none => false
  | _ => true

/-- The settings of a scale that is switched on or open. -/
def scale? (q : FieldEncoding) : Option Scale := q.scale.bind Toggle.inner?

/-- The settings of a scale that is switched on. -/
def scaleOn? (q : FieldEncoding) : Option Scale :=
  match q.scale with
  | some (.on s) => some s
  | _ => none

/-- The settings of a bin that is switched on or open. -/
def bin? (q : FieldEncoding) : Option Bin := q.bin.bind Toggle.inner?

/-- The scale type that a channel gives to a field when no scale type is set. -/
def inferredScaleType (q : FieldEncoding) (c : Channel) : FieldType → ScaleType
  | .nominal | .ordinal => steps c
  | .temporal =>
    if q.timeUnit?.any TimeUnit.isDiscrete then steps c
    else
      match c with
      | .color => .sequential
      | .shape => .ordinal
      | _ => .time
  | .quantitative =>
    match c with
    | .color => if q.isBinned then .binOrdinal else .sequential
    | .shape => .ordinal
    | _ => if q.isBinned then .binLinear else .linear
where
  steps : Channel → ScaleType
    | .x | .y | .row | .column => .point
    | _ => .ordinal

/-- The scale type in effect, set or inferred. There is none as long as something that it
depends on is open. -/
def scaleType? (q : FieldEncoding) : Option ScaleType :=
  let explicit := q.scale?.bind Scale.type
  if explicit.any Slot.isOpen || q.type.isOpen || q.channel.isOpen || q.binIsOpen then none
  else
    match explicit, q.channel, q.type with
    | some (.fixed t), _, _ => some t
    | _, .fixed c, .fixed t =>
      if t = .temporal ∧ q.timeUnit.isOpen then none else some (q.inferredScaleType c t)
    | _, _, _ => none

end FieldEncoding
end ChartAdvisor
