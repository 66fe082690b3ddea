import ChartAdvisor.Encoding.Field

/-!
# Encodings

An encoding maps a field, a constant value or the count of rows to a channel. A count of
rows that is added on its own, an auto count, can be switched off, and then plays no part.
-/
namespace ChartAdvisor

/-- What a chart puts on a channel. -/
inductive Encoding
  | field (q : FieldEncoding)
  | value (channel : Slot Channel) (value : Slot Json)
  | autoCount (channel : Slot Channel) (enabled : Slot Bool)
deriving DecidableEq

namespace Encoding

instance : Coded Encoding where
  encode
    | field q => q.toJson
    | value c v => .object [("channel", encode c), ("value", encode v)]
    | autoCount c b => .object [("channel", encode c), ("autoCount", encode b)]
  decode
    | .object members => do
      let r := Record.named members
      if (Json.lookup members "autoCount").isSome then
        return autoCount (← r.required "channel" 0) (← r.required "autoCount" 1)
      else if (Json.lookup members "value").isSome then
        return value (← r.required "channel" 0) (← r.required "value" 1)
      else return field (← FieldEncoding.ofRecord r)
    | v => .error (.notEncoding v)

def channel : Encoding → Slot Channel
  | field q => q.channel
  | value c _ => c
  | autoCount c _ => c

def setChannel (e : Encoding) (c : Slot Channel) : Encoding :=
  match e with
  | field q => field { q with channel := c }
  | value _ v => value c v
  | autoCount _ b => autoCount c b

def channel? (e : Encoding) : Option Channel := e.channel.value?

def field? : Encoding → Option FieldEncoding
  | field q => some q
  | _ => none

def isValue : Encoding → Bool
  | value .. => true
  | _ => false

def isDisabledAutoCount : Encoding → Bool
  | autoCount _ b => b.is false
  | _ => false

def isEnabledAutoCount : Encoding → Bool
  | autoCount _ b => b.is true
  | _ => false

/-- A fixed aggregate or an enabled auto count. -/
def isAggregate : Encoding → Bool
  | field q => q.aggregate?.isSome
  | autoCount _ b => b.is true
  | value .. => false

/-- An aggregate that is set or may still be. -/
def mayAggregate : Encoding → Bool
  | field q => q.mayAggregate
  | autoCount _ b => !b.is false
  | value .. => false

def isDimension : Encoding → Bool
  | field q => q.type.value?.any FieldType.isDiscrete || q.isBinned || q.timeUnit?.isSome
  | _ => false

def isMeasure : Encoding → Bool
  | field q =>
    (q.type.is .quantitative && !q.binIsPresent) || (q.type.is .temporal && q.timeUnit.is none)
  | autoCount .. => true
  | value .. => false

/-- The name of the field, `*` for an auto count. -/
def fieldName? : Encoding → Option String
  | field q => q.field.value?
  | autoCount .. => some "*"
  | value .. => none

/-- The type of the field refined by its function. -/
def extendedType? : Encoding → Option ExtendedType
  | autoCount .. => some .quantitative
  | value .. => none
  | field q =>
    if q.isBinned then some .binned
    else
      match q.timeUnit? with
      | some unit => some (if unit.isDiscrete then .timeUnitDiscrete else .timeUnitContinuous)
      | none =>
        q.type.value?.map fun
          | .quantitative => .quantitative
          | .temporal => .temporal
          | .ordinal => .ordinal
          | .nominal => .nominal

end Encoding
end ChartAdvisor
