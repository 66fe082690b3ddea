import ChartAdvisor.Text
import ChartAdvisor.Vocabulary.Traits

/-!
# Properties

A property names one thing that a query may leave open. Bins and scales are properties of
an encoding that have properties of their own; such a property is nested in its parent.
-/
namespace ChartAdvisor

/-- What a query may leave open, or a shorthand may leave out. -/
inductive Property
  | mark | transform | stack
  | channel | aggregate | autoCount | hasFunction | bin | maxBins | timeUnit | field | type
  | scale | scaleOf (part : ScaleProperty)
  | sort | axis | legend
deriving DecidableEq

namespace Property

/-- The parts of a scale in the order in which queries list them. -/
def scaleParts : List ScaleProperty :=
  [.type, .bandSize, .clamp, .domain, .exponent, .nice, .range, .round, .useRawDomain, .zero]

instance : Vocabulary Property where
  kind := "property"
  all := [.mark, .transform, .stack, .channel, .aggregate, .autoCount, .hasFunction, .bin,
    .maxBins, .timeUnit, .field, .type, .scale] ++ scaleParts.map .scaleOf ++
    [.sort, .axis, .legend]
  name
    | .mark => "mark"
    | .transform => "transform"
    | .stack => "stack"
    | .channel => "channel"
    | .aggregate => "aggregate"
    | .autoCount => "autoCount"
    | .hasFunction => "hasFn"
    | .bin => "bin"
    | .maxBins => "bin.maxbins"
    | .timeUnit => "timeUnit"
    | .field => "field"
    | .type => "type"
    | .scale => "scale"
    | .scaleOf part => "scale." ++ Vocabulary.name part
    | .sort => "sort"
    | .axis => "axis"
    | .legend => "legend"

theorem mem_all (p : Property) : p ∈ Vocabulary.all := by
  cases p with
  | scaleOf part => cases part <;> decide
  | _ => decide

/-- The text form of a property. -/
def name (p : Property) : String := Vocabulary.name p

/-- The properties that stand directly in an encoding. -/
def encodingTop : List Property :=
  [.channel, .aggregate, .autoCount, .bin, .timeUnit, .field, .type, .scale, .sort, .axis, .legend]

/-- The properties that are nested in a property of an encoding. -/
def encodingNested : List Property := .maxBins :: scaleParts.map .scaleOf

/-- The order in which open properties are resolved: nested ones after their parents. -/
def precedence : List Property :=
  [.type, .field, .bin, .timeUnit, .aggregate, .autoCount, .channel, .mark, .scale, .sort,
    .axis, .legend, .maxBins] ++ scaleParts.map .scaleOf

def parent? : Property → Option Property
  | .maxBins => some .bin
  | .scaleOf _ => some .scale
  | _ => none

def isNested (p : Property) : Bool := p.parent?.isSome

/-- Properties that are switched on and off and hold settings of their own. -/
def holdsSettings : Property → Bool
  | .bin | .scale | .axis | .legend => true
  | _ => false

def ofEncoding (p : Property) : Bool :=
  encodingTop.contains p || p.isNested || p == .hasFunction

/-- The properties nested in a property. -/
def children (p : Property) : List Property := encodingNested.filter (·.parent? == some p)

def scalePart? : Property → Option ScaleProperty
  | .scaleOf part => some part
  | _ => none

/-- How the open slots of a property are called when the query does not name them; the
number of the encoding is put behind. -/
def label : Property → String
  | .mark => "m"
  | .transform => "tf"
  | .stack => "stk"
  | .channel => "c"
  | .aggregate => "a"
  | .autoCount => "#"
  | .hasFunction => "h"
  | .bin => "b"
  | .maxBins => "mb"
  | .timeUnit => "tu"
  | .field => "f"
  | .type => "t"
  | .scale => "s"
  | .scaleOf .type => "st"
  | .scaleOf .bandSize => "sbs"
  | .scaleOf .clamp => "scl"
  | .scaleOf .domain => "sd"
  | .scaleOf .exponent => "se"
  | .scaleOf .nice => "sn"
  | .scaleOf .range => "sra"
  | .scaleOf .round => "sro"
  | .scaleOf .useRawDomain => "su"
  | .scaleOf .zero => "sz"
  | .sort => "so"
  | .axis => "ax"
  | .legend => "l"

/-- Reads a list of property names with commas between; empty entries are skipped. -/
def parseList (text : String) : Except UnknownWord (List Property) :=
  (((Text.splitAt (· == ',') text.toList).map Text.trim).filter (!·.isEmpty)).mapM fun word =>
    Vocabulary.parse (String.ofList word)

end Property
end ChartAdvisor
