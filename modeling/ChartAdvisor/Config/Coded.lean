import ChartAdvisor.Config.Basic
import ChartAdvisor.Document.Readable

/-!
# Written configurations

A configuration is a record of all its settings. On reading, a setting that is left out
takes its default, unknown settings are passed over, and a setting may be written once only.
-/
namespace ChartAdvisor

def SmallBands.toJson (s : SmallBands) : Json :=
  .object [("maxCardinality", encode s.maxCardinality), ("bandSize", encode s.bandSize)]

def LargePalette.toJson (s : LargePalette) : Json :=
  .object [("maxCardinality", encode s.maxCardinality), ("palette", .text s.palette)]

instance : Readable SmallBands where
  read? r depth d := do
    let p ← Parts.ofDocument? ["maxCardinality", "bandSize"] r depth d
    return ⟨← p.required "maxCardinality", ← p.required "bandSize"⟩

instance : Readable LargePalette where
  read? r depth d := do
    let p ← Parts.ofDocument? ["maxCardinality", "palette"] r depth d
    return ⟨← p.required "maxCardinality", ← p.required "palette"⟩

namespace Config

/-- The settings in the order of the record. -/
def settings : List String := [
  "verbose", "propertyPrecedence", "marks", "channels", "aggregates", "timeUnits", "types",
  "maxBinsList", "sortOrders", "scaleBandSizes", "scaleDomains", "scaleExponents", "scaleRanges",
  "scaleTypes", "numberOrdinalProportion", "defaultSpecConfig", "autoAddCount",
  "hasAppropriateGraphicTypeForMark", "omitAggregate", "omitAggregatePlotWithDimensionOnlyOnFacet",
  "omitAggregatePlotWithoutDimension", "omitBarLineAreaWithOcclusion", "omitBarTickWithSize",
  "omitFacetOverPositionalChannels", "omitMultipleNonPositionalChannels", "omitNonSumStack",
  "omitRaw", "omitRawContinuousFieldForAggregatePlot", "omitRepeatedField",
  "omitNonPositionalOverPositionalChannels", "omitTableWithOcclusionIfAutoAddCount",
  "omitVerticalDotPlot", "preferredBinAxis", "preferredTemporalAxis", "preferredOrdinalAxis",
  "preferredNominalAxis", "preferredFacet", "minCardinalityForBin",
  "maxCardinalityForCategoricalColor", "maxCardinalityForFacet", "maxCardinalityForShape",
  "typeMatchesSchemaType", "constraintManuallySpecifiedValue", "stylize",
  "smallBandSizeForHighCardinalityOrFacet", "nominalColorScaleForHighCardinality", "maxResults"]

/-- A number that is not finite has no word but `null`. -/
def proportionToJson : Binary64.Extended → Json
  | .finite x => .number (.float x)
  | _ => .null

def toJson (c : Config) : Json :=
  .object [
    ("verbose", encode c.verbose), ("propertyPrecedence", encode c.propertyPrecedence),
    ("marks", encode c.marks), ("channels", encode c.channels),
    ("aggregates", encode c.aggregates), ("timeUnits", encode c.timeUnits),
    ("types", encode c.types), ("maxBinsList", encode c.maxBinsList),
    ("sortOrders", encode c.sortOrders), ("scaleBandSizes", encode c.scaleBandSizes),
    ("scaleDomains", encode c.scaleDomains), ("scaleExponents", encode c.scaleExponents),
    ("scaleRanges", encode c.scaleRanges), ("scaleTypes", encode c.scaleTypes),
    ("numberOrdinalProportion", proportionToJson c.numberOrdinalProportion),
    ("defaultSpecConfig", encode c.defaultSpecConfig), ("autoAddCount", encode c.autoAddCount),
    ("hasAppropriateGraphicTypeForMark", encode c.hasAppropriateGraphicTypeForMark),
    ("omitAggregate", encode c.omitAggregate),
    ("omitAggregatePlotWithDimensionOnlyOnFacet", encode c.omitAggregatePlotWithDimensionOnlyOnFacet),
    ("omitAggregatePlotWithoutDimension", encode c.omitAggregatePlotWithoutDimension),
    ("omitBarLineAreaWithOcclusion", encode c.omitBarLineAreaWithOcclusion),
    ("omitBarTickWithSize", encode c.omitBarTickWithSize),
    ("omitFacetOverPositionalChannels", encode c.omitFacetOverPositionalChannels),
    ("omitMultipleNonPositionalChannels", encode c.omitMultipleNonPositionalChannels),
    ("omitNonSumStack", encode c.omitNonSumStack), ("omitRaw", encode c.omitRaw),
    ("omitRawContinuousFieldForAggregatePlot", encode c.omitRawContinuousFieldForAggregatePlot),
    ("omitRepeatedField", encode c.omitRepeatedField),
    ("omitNonPositionalOverPositionalChannels", encode c.omitNonPositionalOverPositionalChannels),
    ("omitTableWithOcclusionIfAutoAddCount", encode c.omitTableWithOcclusionIfAutoAddCount),
    ("omitVerticalDotPlot", encode c.omitVerticalDotPlot),
    ("preferredBinAxis", encode c.preferredBinAxis),
    ("preferredTemporalAxis", encode c.preferredTemporalAxis),
    ("preferredOrdinalAxis", encode c.preferredOrdinalAxis),
    ("preferredNominalAxis", encode c.preferredNominalAxis),
    ("preferredFacet", encode c.preferredFacet),
    ("minCardinalityForBin", encode c.minCardinalityForBin),
    ("maxCardinalityForCategoricalColor", encode c.maxCardinalityForCategoricalColor),
    ("maxCardinalityForFacet", encode c.maxCardinalityForFacet),
    ("maxCardinalityForShape", encode c.maxCardinalityForShape),
    ("typeMatchesSchemaType", encode c.typeMatchesSchemaType),
    ("constraintManuallySpecifiedValue", encode c.constraintManuallySpecifiedValue),
    ("stylize", encode c.stylize),
    ("smallBandSizeForHighCardinalityOrFacet", .ofOption SmallBands.toJson c.smallBandSizeForHighCardinalityOrFacet),
    ("nominalColorScaleForHighCardinality", .ofOption LargePalette.toJson c.nominalColorScaleForHighCardinality),
    ("maxResults", encode c.maxResults)]

def ofParts? (p : Parts) : Option Config := do
  let d : Config := {}
  return {
    verbose := ← p.orElse "verbose" d.verbose
    propertyPrecedence := ← p.orElse "propertyPrecedence" d.propertyPrecedence
    marks := ← p.orElse "marks" d.marks
    channels := ← p.orElse "channels" d.channels
    aggregates := ← p.orElse "aggregates" d.aggregates
    timeUnits := ← p.orElse "timeUnits" d.timeUnits
    types := ← p.orElse "types" d.types
    maxBinsList := ← p.orElse "maxBinsList" d.maxBinsList
    sortOrders := ← p.orElse "sortOrders" d.sortOrders
    scaleBandSizes := ← p.orElse "scaleBandSizes" d.scaleBandSizes
    scaleDomains := ← p.orElse "scaleDomains" d.scaleDomains
    scaleExponents := ← p.orElse "scaleExponents" d.scaleExponents
    scaleRanges := ← p.orElse "scaleRanges" d.scaleRanges
    scaleTypes := ← p.orElse "scaleTypes" d.scaleTypes
    numberOrdinalProportion := ← p.orElse "numberOrdinalProportion" d.numberOrdinalProportion
    defaultSpecConfig := ← p.orElse "defaultSpecConfig" d.defaultSpecConfig
    autoAddCount := ← p.orElse "autoAddCount" d.autoAddCount
    hasAppropriateGraphicTypeForMark := ← p.orElse "hasAppropriateGraphicTypeForMark" d.hasAppropriateGraphicTypeForMark
    omitAggregate := ← p.orElse "omitAggregate" d.omitAggregate
    omitAggregatePlotWithDimensionOnlyOnFacet := ← p.orElse "omitAggregatePlotWithDimensionOnlyOnFacet" d.omitAggregatePlotWithDimensionOnlyOnFacet
    omitAggregatePlotWithoutDimension := ← p.orElse "omitAggregatePlotWithoutDimension" d.omitAggregatePlotWithoutDimension
    omitBarLineAreaWithOcclusion := ← p.orElse "omitBarLineAreaWithOcclusion" d.omitBarLineAreaWithOcclusion
    omitBarTickWithSize := ← p.orElse "omitBarTickWithSize" d.omitBarTickWithSize
    omitFacetOverPositionalChannels := ← p.orElse "omitFacetOverPositionalChannels" d.omitFacetOverPositionalChannels
    omitMultipleNonPositionalChannels := ← p.orElse "omitMultipleNonPositionalChannels" d.omitMultipleNonPositionalChannels
    omitNonSumStack := ← p.orElse "omitNonSumStack" d.omitNonSumStack
    omitRaw := ← p.orElse "omitRaw" d.omitRaw
    omitRawContinuousFieldForAggregatePlot := ← p.orElse "omitRawContinuousFieldForAggregatePlot" d.omitRawContinuousFieldForAggregatePlot
    omitRepeatedField := ← p.orElse "omitRepeatedField" d.omitRepeatedField
    omitNonPositionalOverPositionalChannels := ← p.orElse "omitNonPositionalOverPositionalChannels" d.omitNonPositionalOverPositionalChannels
    omitTableWithOcclusionIfAutoAddCount := ← p.orElse "omitTableWithOcclusionIfAutoAddCount" d.omitTableWithOcclusionIfAutoAddCount
    omitVerticalDotPlot := ← p.orElse "omitVerticalDotPlot" d.omitVerticalDotPlot
    preferredBinAxis := ← p.orElse "preferredBinAxis" d.preferredBinAxis
    preferredTemporalAxis := ← p.orElse "preferredTemporalAxis" d.preferredTemporalAxis
    preferredOrdinalAxis := ← p.orElse "preferredOrdinalAxis" d.preferredOrdinalAxis
    preferredNominalAxis := ← p.orElse "preferredNominalAxis" d.preferredNominalAxis
    preferredFacet := ← p.orElse "preferredFacet" d.preferredFacet
    minCardinalityForBin := ← p.orElse "minCardinalityForBin" d.minCardinalityForBin
    maxCardinalityForCategoricalColor := ← p.orElse "maxCardinalityForCategoricalColor" d.maxCardinalityForCategoricalColor
    maxCardinalityForFacet := ← p.orElse "maxCardinalityForFacet" d.maxCardinalityForFacet
    maxCardinalityForShape := ← p.orElse "maxCardinalityForShape" d.maxCardinalityForShape
    typeMatchesSchemaType := ← p.orElse "typeMatchesSchemaType" d.typeMatchesSchemaType
    constraintManuallySpecifiedValue := ← p.orElse "constraintManuallySpecifiedValue" d.constraintManuallySpecifiedValue
    stylize := ← p.orElse "stylize" d.stylize
    smallBandSizeForHighCardinalityOrFacet := ← p.orElse "smallBandSizeForHighCardinalityOrFacet" d.smallBandSizeForHighCardinalityOrFacet
    nominalColorScaleForHighCardinality := ← p.orElse "nominalColorScaleForHighCardinality" d.nominalColorScaleForHighCardinality
    maxResults := ← p.orElse "maxResults" d.maxResults }

instance : Readable Config where
  read? r depth d := (Parts.ofDocument? settings r depth d).bind ofParts?

instance : Coded Config where
  encode := toJson
  decode v := JsonError.ofOption (v.readAs? Config)

end Config
end ChartAdvisor
