import ChartAdvisor.Draft.Basic

/-!
# How well channels show data

A position shows continuous data best, before size and colour; discrete data bears facets and
shapes. Small penalties for the less preferred axis and facet decide between layouts that are
equal otherwise. Numbers are in thousandths.
-/
namespace ChartAdvisor

namespace ExtendedType

/-- How well a channel shows data that form a continuum. -/
def continuousScore : Channel → Int
  | .x | .y => 0
  | .size => -575
  | .color => -725
  | .text => -2000
  | .opacity => -3000
  | .shape | .row | .column => -10000
  | .detail => -20000

/-- How well a channel shows data that come in steps. -/
def orderedScore : Channel → Int
  | .x | .y => 0
  | .size => -575
  | .color => -725
  | .row | .column => -750
  | .opacity => -3000
  | .shape => -3100
  | .text => -3200
  | .detail => -4000

/-- How well a channel shows names. -/
def nominalScore : Channel → Int
  | .x | .y => 0
  | .color => -600
  | .shape => -650
  | .row | .column => -700
  | .text => -800
  | .detail => -2000
  | .size => -3000
  | .opacity => -3100

/-- How well a channel shows data of a type. -/
def channelScore : ExtendedType → Channel → Int
  | .quantitative | .temporal | .timeUnitContinuous => continuousScore
  | .binned | .timeUnitDiscrete | .ordinal => orderedScore
  | .nominal => nominalScore

end ExtendedType

namespace Effectiveness

/-- A reason with its number in thousandths. -/
def feature (kind text : String) (thousandths : Int) : Feature :=
  ⟨kind, text, .ofThousandths thousandths⟩

/-- The penalty for the less preferred of two layouts. -/
def lessPreferred : Int := -10

/-- The encodings that show data on a chosen channel, with their types. -/
def typedChannels (d : Draft) : List (Encoding × ExtendedType × Channel) :=
  d.active.filterMap fun e => do
    let t ← e.extendedType?
    let c ← e.channel?
    return (e, t, c)

def typeAndChannel (t : ExtendedType) (c : Channel) : String :=
  Vocabulary.name t ++ "_" ++ Vocabulary.name c

/-- The best channel of each definition; showing one thing twice adds nothing. -/
def typeChannel (d : Draft) : List Feature :=
  let best := (typedChannels d).foldl (fun best (e, t, c) =>
    let key := Shorthand.definition Include.all [] e none
    let score := t.channelScore c
    match best.lookup key with
    | some (other, _) => if score ≤ other then best else Table.put key (score, typeAndChannel t c) best
    | none => Table.put key (score, typeAndChannel t c) best) ([] : List (String × Int × String))
  best.map fun (_, score, text) => feature "typeChannel" text score

/-- The axis on which the configuration would rather not see a type. -/
def lessPreferredAxis? (config : Config) (t : ExtendedType) : Option Channel :=
  let preferred := match t with
    | .binned => some config.preferredBinAxis
    | .temporal | .timeUnitContinuous | .timeUnitDiscrete => some config.preferredTemporalAxis
    | .ordinal => some config.preferredOrdinalAxis
    | .nominal => some config.preferredNominalAxis
    | .quantitative => none
  match preferred with
  | some .x => some .y
  | some .y => some .x
  | _ => none

def preferredAxis (config : Config) (d : Draft) : List Feature :=
  (typedChannels d).filterMap fun (_, t, c) =>
    if lessPreferredAxis? config t = some c then
      some (feature "preferredAxis" (typeAndChannel t c) lessPreferred)
    else none

def preferredFacet (config : Config) (d : Draft) : List Feature :=
  let penalise (other : Channel) :=
    (d.active.filter (·.channel.is other)).map fun _ =>
      feature "preferredFacet" (Vocabulary.name other) lessPreferred
  match config.preferredFacet with
  | .row => penalise .column
  | .column => penalise .row
  | _ => []

/-- Bars and ticks have no size to vary. -/
def markChannel (d : Draft) : List Feature :=
  let penalise (m : Mark) := (d.active.filterMap Encoding.channel?).filterMap fun c =>
    if c = .size then
      some (feature "markChannel" (Vocabulary.name m ++ "_" ++ Vocabulary.name c) (-2000))
    else none
  match d.query.mark.value? with
  | some .bar => penalise .bar
  | some .tick => penalise .tick
  | _ => []

/-- An aggregated chart needs a dimension, better not on a facet. The first best one counts. -/
def dimension (d : Draft) : List Feature :=
  if !d.isAggregate then []
  else
    let (score, text) := d.active.foldl (fun best e =>
      match e.field?, e.channel? with
      | some q, some c =>
        let score : Int := if c.isFacet then -2000 else 0
        if q.aggregate?.isNone ∧ best.1 < score then (score, Vocabulary.name c) else best
      | _, _ => best) ((-5000 : Int), "No Dimension")
    [feature "dimension" text score]

def features (config : Config) (d : Draft) : List Feature :=
  typeChannel d ++ preferredAxis config d ++ preferredFacet config d ++ markChannel d ++ dimension d

end Effectiveness
end ChartAdvisor
