import ChartAdvisor.Error.Basic

/-!
# Configuration

What the search tries by default, which rules are switched on, and how charts are styled.
A setting that is left out takes its default.
-/
namespace ChartAdvisor

/-- Bands get this size where a discrete axis is faceted or holds more values. -/
structure SmallBands where
  maxCardinality : Nat
  bandSize : UInt32
deriving DecidableEq

/-- A nominal colour with more values gets this palette. -/
structure LargePalette where
  maxCardinality : Nat
  palette : String
deriving DecidableEq

/-- The settings of a search, each with its default. -/
structure Config where
  verbose : Bool := false
  propertyPrecedence : List Property := Property.precedence
  marks : List Mark := [.point, .bar, .line, .area, .tick]
  channels : List Channel := [.x, .y, .row, .column, .size, .color]
  aggregates : List (Option Aggregate) := [none, some .mean]
  timeUnits : List (Option TimeUnit) := [none, some .year, some .month, some .day, some .date]
  types : List FieldType := [.nominal, .ordinal, .quantitative, .temporal]
  maxBinsList : List UInt32 := [5, 10, 20]
  sortOrders : List SortOrder := [.ascending, .descending]
  scaleBandSizes : List UInt32 := [17, 21]
  scaleDomains : List Json := [.null]
  scaleExponents : List Number := [.ofCount 1]
  scaleRanges : List Json := [.null]
  scaleTypes : List ScaleType := [.linear, .log]
  /-- A number between zero and one where the configuration is valid. -/
  numberOrdinalProportion : Binary64.Extended := .finite ((Binary64.ofDecimal? false 5 (-2)).getD default)
  /-- Settings that every finished chart starts from. -/
  defaultSpecConfig : Json.Members :=
    [("overlay", .object [("line", .bool true)]), ("scale", .object [("useRawDomain", .bool true)])]
  autoAddCount : Bool := false
  hasAppropriateGraphicTypeForMark : Bool := true
  omitAggregate : Bool := false
  omitAggregatePlotWithDimensionOnlyOnFacet : Bool := true
  omitAggregatePlotWithoutDimension : Bool := false
  omitBarLineAreaWithOcclusion : Bool := true
  omitBarTickWithSize : Bool := true
  omitFacetOverPositionalChannels : Bool := true
  omitMultipleNonPositionalChannels : Bool := true
  omitNonSumStack : Bool := true
  omitRaw : Bool := false
  omitRawContinuousFieldForAggregatePlot : Bool := true
  omitRepeatedField : Bool := true
  omitNonPositionalOverPositionalChannels : Bool := true
  omitTableWithOcclusionIfAutoAddCount : Bool := true
  omitVerticalDotPlot : Bool := false
  preferredBinAxis : Channel := .x
  preferredTemporalAxis : Channel := .x
  preferredOrdinalAxis : Channel := .y
  preferredNominalAxis : Channel := .y
  preferredFacet : Channel := .row
  minCardinalityForBin : Nat := 15
  /-- Without a ceiling there is no limit. -/
  maxCardinalityForCategoricalColor : Option Nat := some 20
  maxCardinalityForFacet : Option Nat := some 10
  maxCardinalityForShape : Option Nat := some 6
  typeMatchesSchemaType : Bool := true
  /-- Whether values that the query fixes are checked like values that are tried. -/
  constraintManuallySpecifiedValue : Bool := false
  stylize : Bool := true
  smallBandSizeForHighCardinalityOrFacet : Option SmallBands := some ⟨10, 12⟩
  nominalColorScaleForHighCardinality : Option LargePalette := some ⟨10, "category20"⟩
  maxResults : Option Nat := none
deriving DecidableEq

namespace Config

/-- Fewer marks, bins and time units to try, and at most fifty results. -/
def performance : Config :=
  { marks := [.point, .bar, .line], maxBinsList := [10], timeUnits := [none, some .year, some .month],
    scaleTypes := [.linear], maxResults := some 50 }

/-- Counts of rows are added, and texts are tried. -/
def exploration : Config :=
  { autoAddCount := true, marks := [.point, .bar, .line, .area, .tick, .text] }

/-- Lower ceilings and fewer dull plots. -/
def presentation : Config :=
  { maxCardinalityForCategoricalColor := some 10, maxCardinalityForFacet := some 6,
    maxCardinalityForShape := some 5, omitVerticalDotPlot := true,
    omitAggregatePlotWithoutDimension := true }

/-- The configuration with a name. -/
def preset? : String → Option Config
  | "default" => some {}
  | "performance" => some performance
  | "exploration" => some exploration
  | "presentation" => some presentation
  | _ => none

/-- Whether the rule with a name is switched on. -/
def isEnabled (c : Config) : String → Bool
  | "autoAddCount" => c.autoAddCount
  | "hasAppropriateGraphicTypeForMark" => c.hasAppropriateGraphicTypeForMark
  | "omitAggregate" => c.omitAggregate
  | "omitAggregatePlotWithDimensionOnlyOnFacet" => c.omitAggregatePlotWithDimensionOnlyOnFacet
  | "omitAggregatePlotWithoutDimension" => c.omitAggregatePlotWithoutDimension
  | "omitBarLineAreaWithOcclusion" => c.omitBarLineAreaWithOcclusion
  | "omitBarTickWithSize" => c.omitBarTickWithSize
  | "omitFacetOverPositionalChannels" => c.omitFacetOverPositionalChannels
  | "omitMultipleNonPositionalChannels" => c.omitMultipleNonPositionalChannels
  | "omitNonSumStack" => c.omitNonSumStack
  | "omitRaw" => c.omitRaw
  | "omitRawContinuousFieldForAggregatePlot" => c.omitRawContinuousFieldForAggregatePlot
  | "omitRepeatedField" => c.omitRepeatedField
  | "omitNonPositionalOverPositionalChannels" => c.omitNonPositionalOverPositionalChannels
  | "omitTableWithOcclusionIfAutoAddCount" => c.omitTableWithOcclusionIfAutoAddCount
  | "omitVerticalDotPlot" => c.omitVerticalDotPlot
  | "typeMatchesSchemaType" => c.typeMatchesSchemaType
  | "maxCardinalityForCategoricalColor" => c.maxCardinalityForCategoricalColor.isSome
  | "maxCardinalityForFacet" => c.maxCardinalityForFacet.isSome
  | "maxCardinalityForShape" => c.maxCardinalityForShape.isSome
  | _ => false

/-- The first position at which a property comes before its parent or without it. -/
def beforeParent? (precedence : List Property) : (seen rest : List Property) → Option (Property × Property)
  | _, [] => none
  | seen, p :: rest =>
    match p.parent? with
    | some parent => if seen.contains parent then beforeParent? precedence (p :: seen) rest else some (p, parent)
    | none => beforeParent? precedence (p :: seen) rest

/-- The first setting that no search can work with. -/
def fault? (c : Config) : Option ConfigError :=
  let lists : List (String × Bool) := [
    ("propertyPrecedence", c.propertyPrecedence.isEmpty), ("marks", c.marks.isEmpty),
    ("channels", c.channels.isEmpty), ("aggregates", c.aggregates.isEmpty),
    ("timeUnits", c.timeUnits.isEmpty), ("types", c.types.isEmpty),
    ("maxBinsList", c.maxBinsList.isEmpty), ("sortOrders", c.sortOrders.isEmpty),
    ("scaleTypes", c.scaleTypes.isEmpty)]
  let ceilings := [
    ("maxCardinalityForCategoricalColor", c.maxCardinalityForCategoricalColor),
    ("maxCardinalityForFacet", c.maxCardinalityForFacet),
    ("maxCardinalityForShape", c.maxCardinalityForShape)]
  let axes := [
    ("preferredBinAxis", c.preferredBinAxis), ("preferredTemporalAxis", c.preferredTemporalAxis),
    ("preferredOrdinalAxis", c.preferredOrdinalAxis), ("preferredNominalAxis", c.preferredNominalAxis)]
  let faults : List (Option ConfigError) := [
    (lists.find? (·.2)).map fun l => .emptyList l.1,
    if c.maxBinsList.contains 0 then some (.invalid "maxBinsList" .zeroBins) else none,
    if c.numberOrdinalProportion.isProportion then none
      else some (.invalid "numberOrdinalProportion" (.proportion c.numberOrdinalProportion)),
    (ceilings.find? (·.2 == some 0)).map fun l => .invalid l.1 .zeroCeiling,
    (axes.find? (!·.2.isPositional)).map fun l => .invalid l.1 (.notAxis l.2),
    if c.preferredFacet.isFacet then none
      else some (.invalid "preferredFacet" (.notFacet c.preferredFacet)),
    (Property.precedence.find? (!c.propertyPrecedence.contains ·)).map fun p =>
      .invalid "propertyPrecedence" (.missing p),
    (beforeParent? c.propertyPrecedence [] c.propertyPrecedence).map fun (p, parent) =>
      .invalid "propertyPrecedence" (.beforeParent p parent)]
  faults.findSome? id

/-- Accepts a configuration that a search can work with. -/
def validate (c : Config) : Except ConfigError Unit :=
  match c.fault? with
  | some e => .error e
  | none => .ok ()

end Config
end ChartAdvisor
