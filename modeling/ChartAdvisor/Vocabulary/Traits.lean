import ChartAdvisor.Vocabulary.Words

/-!
# What the words allow

Which marks, channels, types and scales go together.
-/
namespace ChartAdvisor

/-- Only these marks accumulate. -/
def Mark.isStackable : Mark → Bool
  | .bar | .area => true
  | _ => false

namespace Channel

def supportsMark (c : Channel) (m : Mark) : Bool :=
  match c with
  | .size =>
    match m with
    | .point | .tick | .rule | .circle | .square | .bar | .text | .line => true
    | _ => false
  | .shape => m == .point
  | .text => m == .text
  | _ => true

/-- Whether a measure may be mapped to the channel; a dimension may be mapped to any. -/
def supportsMeasure : Channel → Bool
  | .row | .column | .shape | .detail => false
  | _ => true

def isPositional : Channel → Bool
  | .x | .y => true
  | _ => false

def isFacet : Channel → Bool
  | .row | .column => true
  | _ => false

/-- The channels whose fields split a bar or an area into pieces. -/
def stackGroups : List Channel := [.color, .opacity, .size, .shape, .detail]

def isStackGroup (c : Channel) : Bool := stackGroups.contains c

/-- The channels that are neither a position nor a facet. -/
def nonspatial : List Channel := [.size, .color, .shape, .detail, .text, .opacity]

def supportsScale : Channel → Bool
  | .row | .column | .detail | .text => false
  | _ => true

def supportsAxis : Channel → Bool
  | .x | .y | .row | .column => true
  | _ => false

def supportsLegend : Channel → Bool
  | .color | .opacity | .size | .shape => true
  | _ => false

def supportsScaleProperty (c : Channel) : ScaleProperty → Bool
  | .range => !c.isPositional
  | .bandSize => c.isPositional
  | .zero => c == .x || c == .y || c == .size
  | _ => true

end Channel

namespace FieldType

def letter : FieldType → Char
  | .nominal => 'n'
  | .ordinal => 'o'
  | .quantitative => 'q'
  | .temporal => 't'

/-- The type with a letter of either case. -/
def ofLetter? : List Char → Option FieldType
  | ['n'] | ['N'] => some .nominal
  | ['o'] | ['O'] => some .ordinal
  | ['q'] | ['Q'] => some .quantitative
  | ['t'] | ['T'] => some .temporal
  | _ => none

def isDiscrete : FieldType → Bool
  | .nominal | .ordinal => true
  | _ => false

end FieldType

/-- Functions whose results may be added up, which stacking needs. -/
def Aggregate.isSummative : Aggregate → Bool
  | .count | .valid | .missing | .distinct | .sum => true
  | _ => false

namespace TimeUnit

/-- Units whose values are read as steps and not as points in time. -/
def isDiscrete : TimeUnit → Bool
  | .quarter | .month | .day | .date | .hours | .minutes | .seconds | .milliseconds => true
  | _ => false

/-- How many values a recurring unit has; other units depend on the data. -/
def cycle? : TimeUnit → Option Nat
  | .seconds | .minutes => some 60
  | .hours => some 24
  | .day => some 7
  | .date => some 31
  | .month => some 12
  | .quarter => some 4
  | .milliseconds => some 1000
  | _ => none

end TimeUnit

namespace ScaleType

def hasDiscreteDomain : ScaleType → Bool
  | .ordinal | .point | .band | .binOrdinal => true
  | _ => false

def isContinuous : ScaleType → Bool
  | .linear | .log | .pow | .sqrt | .time | .utc | .sequential | .binLinear => true
  | _ => false

def supports (t : ScaleType) : ScaleProperty → Bool
  | .type | .domain | .range => true
  | .clamp | .useRawDomain => t.isContinuous
  | .nice => t.isContinuous && t != .binLinear
  | .round => t.isContinuous || t == .point || t == .band
  | .exponent => t == .pow
  | .zero => t == .linear || t == .pow || t == .sqrt || t == .sequential
  | .bandSize => t == .ordinal || t == .point || t == .band

end ScaleType
end ChartAdvisor
