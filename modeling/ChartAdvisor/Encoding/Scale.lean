import ChartAdvisor.Choice

/-!
# Scales

Each part of a scale has values of a type of its own. `Scale.get` and `Scale.put` reach
every part in one way, so that what holds of one part is said once for all of them.
-/
namespace ChartAdvisor

/-- The type of the values of a part of a scale. -/
def ScaleProperty.Value : ScaleProperty → Type
  | .type => ScaleType
  | .bandSize => UInt32
  | .clamp | .nice | .round | .useRawDomain | .zero => Bool
  | .domain | .range => Json
  | .exponent => Number

instance (p : ScaleProperty) : Choosable p.Value :=
  match p with
  | .type => inferInstanceAs (Choosable ScaleType)
  | .bandSize => inferInstanceAs (Choosable UInt32)
  | .clamp | .nice | .round | .useRawDomain | .zero => inferInstanceAs (Choosable Bool)
  | .domain | .range => inferInstanceAs (Choosable Json)
  | .exponent => inferInstanceAs (Choosable Number)

/-- The parts of a scale that are set, each fixed or open. -/
structure Scale where
  type : Option (Slot ScaleType) := none
  bandSize : Option (Slot UInt32) := none
  clamp : Option (Slot Bool) := none
  domain : Option (Slot Json) := none
  exponent : Option (Slot Number) := none
  nice : Option (Slot Bool) := none
  range : Option (Slot Json) := none
  round : Option (Slot Bool) := none
  useRawDomain : Option (Slot Bool) := none
  zero : Option (Slot Bool) := none
deriving DecidableEq

namespace Scale

def get (s : Scale) : (p : ScaleProperty) → Option (Slot p.Value)
  | .type => s.type
  | .bandSize => s.bandSize
  | .clamp => s.clamp
  | .domain => s.domain
  | .exponent => s.exponent
  | .nice => s.nice
  | .range => s.range
  | .round => s.round
  | .useRawDomain => s.useRawDomain
  | .zero => s.zero

def put (s : Scale) : (p : ScaleProperty) → Option (Slot p.Value) → Scale
  | .type, v => { s with type := v }
  | .bandSize, v => { s with bandSize := v }
  | .clamp, v => { s with clamp := v }
  | .domain, v => { s with domain := v }
  | .exponent, v => { s with exponent := v }
  | .nice, v => { s with nice := v }
  | .range, v => { s with range := v }
  | .round, v => { s with round := v }
  | .useRawDomain, v => { s with useRawDomain := v }
  | .zero, v => { s with zero := v }

/-- A part as JSON with its members by key; a part that is fixed at `null` counts as absent. -/
def json? (s : Scale) (p : ScaleProperty) : Option Json :=
  ((s.get p).map fun v => (encode v).sorted).filter (!·.isNull)

def has (s : Scale) (p : ScaleProperty) : Bool := (s.json? p).isSome

def isOpen (s : Scale) (p : ScaleProperty) : Bool := (s.get p).any Slot.isOpen

def choices? (s : Scale) (p : ScaleProperty) : Option (Wildcard Choice) :=
  (s.get p).bind Slot.choices?

def isEmpty (s : Scale) : Bool := Vocabulary.all.all fun p => !s.has p

/-- A domain or a range that is fixed at `null` is taken out. -/
def dropNulls (s : Scale) : Scale :=
  let s := if s.domain = some (.fixed .null) then { s with domain := none } else s
  if s.range = some (.fixed .null) then { s with range := none } else s

/-- Gives a part a value, if the choice is one of its values; also says whether it was. -/
def assign (s : Scale) (p : ScaleProperty) (c : Choice) : Scale × Bool :=
  match (ofChoice? c : Option p.Value) with
  | some v => ((s.put p (some (.fixed v))).dropNulls, true)
  | none => (s.dropNulls, false)

/-- Takes a part over from another scale. -/
def restore (s origin : Scale) (p : ScaleProperty) : Scale := s.put p (origin.get p)

/-- The parts of a scale in the order in which a record lists them. -/
def recordOrder : List ScaleProperty :=
  [.type, .bandSize, .clamp, .domain, .exponent, .nice, .range, .round, .useRawDomain, .zero]

/-- The parts that are present as members. -/
def members (s : Scale) : Json.Members :=
  recordOrder.filterMap fun p => (s.get p).map fun v => (Vocabulary.name p, encode v)

/-- Reads one part after another into a scale. -/
def decodeParts (r : Record) : List ScaleProperty → Nat → Scale → Except JsonError Scale
  | [], _, s => .ok s
  | p :: rest, position, s => do
    let v : Option (Slot p.Value) ← r.optionalByName (Vocabulary.name p) position
    decodeParts r rest (position + 1) (s.put p v)

instance : Settings Scale where
  encode s := .object s.members
  decode v := do decodeParts (← Record.ofJson 10 v) recordOrder 0 {}
  none := {}
  isEmpty := isEmpty

/-- The parts that are set, by ascending name. -/
def toMembers (s : Scale) : Json.Members :=
  Json.extend [] (Vocabulary.all.filterMap fun p => (s.json? p).map (Vocabulary.name p, ·))

end Scale
end ChartAdvisor
