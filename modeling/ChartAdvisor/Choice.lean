import ChartAdvisor.Encoding.Settings

/-!
# Choices

A `Choice` is any value that an open slot may be given. A type of slot values is
`Choosable`: its values are choices, and a choice of a fitting form is one of its values.
-/
namespace ChartAdvisor

/-- A value for an open slot, with the form that it was given in. -/
inductive Choice
  | mark (m : Mark)
  | channel (c : Channel)
  | aggregate (op : Option Aggregate)
  | timeUnit (unit : Option TimeUnit)
  | flag (b : Bool)
  | count (n : UInt32)
  | number (n : Number)
  | field (name : String)
  | type (t : FieldType)
  | scaleType (t : ScaleType)
  | sort (s : Sorting)
  | json (v : Json)
deriving DecidableEq

namespace Choice

def toJson : Choice → Json
  | mark m => encode m
  | channel c => encode c
  | aggregate op => encode op
  | timeUnit unit => encode unit
  | flag b => .bool b
  | count n => encode n
  | number n => .number n
  | field name => .text name
  | type t => encode t
  | scaleType t => encode t
  | sort s => encode s
  | json v => v

/-- The text of a choice in messages: words stand as they are, all else is JSON. -/
def text : Choice → String
  | field name => name
  | mark m => Vocabulary.name m
  | channel c => Vocabulary.name c
  | type t => Vocabulary.name t
  | scaleType t => Vocabulary.name t
  | c => c.toJson.compact

end Choice

/-- Types whose values an open slot may be given. -/
class Choosable (α : Type) extends Coded α where
  toChoice : α → Choice
  ofChoice? : Choice → Option α

export Choosable (toChoice ofChoice?)

instance : Choosable Mark where
  toChoice := .mark
  ofChoice?
    | .mark m => some m
    | _ => none

instance : Choosable Channel where
  toChoice := .channel
  ofChoice?
    | .channel c => some c
    | _ => none

/-- The JSON value `null` stands for no function. -/
instance : Choosable (Option Aggregate) where
  toChoice := .aggregate
  ofChoice?
    | .aggregate op => some op
    | .json .null => some none
    | _ => none

instance : Choosable (Option TimeUnit) where
  toChoice := .timeUnit
  ofChoice?
    | .timeUnit unit => some unit
    | .json .null => some none
    | _ => none

instance : Choosable Bool where
  toChoice := .flag
  ofChoice?
    | .flag b => some b
    | _ => none

/-- A number that is a 32-bit count may be chosen for one. -/
instance : Choosable UInt32 where
  toChoice := .count
  ofChoice?
    | .count n => some n
    | .number n => n.toCount?
    | _ => none

instance : Choosable Number where
  toChoice := .number
  ofChoice?
    | .number n => some n
    | .count n => some (.ofCount n)
    | _ => none

instance : Choosable String where
  toChoice := .field
  ofChoice?
    | .field name => some name
    | _ => none

instance : Choosable FieldType where
  toChoice := .type
  ofChoice?
    | .type t => some t
    | _ => none

instance : Choosable ScaleType where
  toChoice := .scaleType
  ofChoice?
    | .scaleType t => some t
    | _ => none

instance : Choosable Sorting where
  toChoice := .sort
  ofChoice?
    | .sort s => some s
    | _ => none

/-- Any choice may be chosen as JSON. -/
instance : Choosable Json where
  toChoice := .json
  ofChoice? c := some c.toJson

/-- The candidates of a wildcard as choices. -/
def Wildcard.choices {α : Type} [Choosable α] (w : Wildcard α) : Wildcard Choice :=
  w.map toChoice

/-- The wildcard of an open slot, its candidates as choices. -/
def Slot.choices? {α : Type} [Choosable α] (s : Slot α) : Option (Wildcard Choice) :=
  s.wildcard?.map Wildcard.choices

end ChartAdvisor
