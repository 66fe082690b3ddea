import ChartAdvisor.Rules.Basic

/-!
# Rules about charts

These rules judge a draft as a whole: which channels its mark needs and allows, what an
aggregated chart may hold, and which charts are too crowded or too dull to show. A count of
rows that is switched off plays no part.
-/
namespace ChartAdvisor
namespace ChartRule

/-- Judges without consulting anything else. -/
def onDraft (test : Draft → Bool) : Context → Draft → Except RuleError Bool :=
  fun _ d => .ok (test d)

/-- The fields of a draft that play a part. -/
def fields (d : Draft) : List FieldEncoding := d.active.filterMap Encoding.field?

/-- The channels of the encodings that play a part, where they are chosen. -/
def channels (d : Draft) : List Channel := d.active.filterMap Encoding.channel?

/-- Whether a field sits on an axis. -/
def onAxis (q : FieldEncoding) : Bool := q.channel.value?.any Channel.isPositional

def usesBothAxes (d : Draft) : Bool := d.channelUsed .x && d.channelUsed .y

def usesAnAxis (d : Draft) : Bool := d.channelUsed .x || d.channelUsed .y

def noRepeatedChannel : ChartRule where
  name := "noRepeatedChannel"
  description := "Each encoding channel should only be used once."
  properties := [.channel]
  allowsOpen := true
  holds := onDraft fun d => decide (channels d).Nodup

def alwaysIncludeZeroInScaleWithBarMark : ChartRule where
  name := "alwaysIncludeZeroInScaleWithBarMark"
  description := "Do not turn off zero in the positional scale of a bar."
  properties := [.mark, .scale, .scaleOf .zero, .channel, .type]
  holds := onDraft fun d =>
    !(d.query.mark.is .bar && (fields d).any fun q =>
      onAxis q && q.type.is .quantitative && (q.scale?.bind Scale.zero).any (·.is false))

/-- Whether a field is discrete or may still become so, which a count of rows asks for. -/
def mayBeDiscrete : Encoding → Bool
  | .field q =>
    match q.type.value? with
    | some .quantitative => q.binIsPresent
    | some .temporal => q.mayHaveTimeUnit
    | _ => true
  | _ => true

/-- Whether an encoding holds a raw continuous field. -/
def isRawContinuous : Encoding → Bool
  | .field q =>
    match q.type.value? with
    | some .quantitative => !q.isBinned
    | some .temporal => q.timeUnit?.isNone
    | _ => false
  | _ => false

/-- A count of rows goes with discrete fields only, and is missing only beside a continuous
one. While some count of rows is open, the second half is not asked. -/
def autoAddCount : ChartRule where
  name := "autoAddCount"
  description := "Add count only for plots whose fields are all ordinal, nominal, binned or time-unit fields."
  properties := [.bin, .timeUnit, .type, .autoCount]
  allowsOpen := true
  strict := false
  holds := onDraft fun d =>
    if d.active.any Encoding.isEnabledAutoCount then d.active.all mayBeDiscrete
    else if (d.slots.indices .autoCount).any fun i => (d.encoding? i).any (·.isOpen .autoCount)
    then true
    else d.active.any isRawContinuous

def channelPermittedByMarkType : ChartRule where
  name := "channelPermittedByMarkType"
  description := "Each encoding channel should be supported by the mark type."
  properties := [.channel, .mark]
  allowsOpen := true
  holds := onDraft fun d => d.query.mark.value?.all fun m => (channels d).all (·.supportsMark m)

/-- The channels that a mark cannot do without. A point whose channels are all fixed needs
none. -/
def hasAllRequiredChannelsForMark : ChartRule where
  name := "hasAllRequiredChannelsForMark"
  description := "All required channels for the specified mark should be specified."
  properties := [.channel, .mark]
  holds _ d :=
    match d.query.mark.value? with
    | none => .ok true
    | some m =>
      match m with
      | .area | .line => .ok (usesBothAxes d)
      | .text => .ok (d.channelUsed .text)
      | .bar | .circle | .square | .tick | .rule => .ok (usesAnAxis d)
      | .point => .ok (!d.slots.has .channel || usesAnAxis d)
      | .rect | .geoshape => .error (.unsupported "hasAllRequiredChannelsForMark" (Vocabulary.name m))

def omitAggregate : ChartRule where
  name := "omitAggregate"
  description := "Omit aggregate plots."
  properties := [.aggregate, .autoCount]
  allowsOpen := true
  strict := false
  holds := onDraft fun d => !d.isAggregate

def omitAggregatePlotWithDimensionOnlyOnFacet : ChartRule where
  name := "omitAggregatePlotWithDimensionOnlyOnFacet"
  description := "Omit aggregate plots whose only dimensions sit on a facet channel."
  properties := [.channel, .aggregate, .autoCount]
  strict := false
  holds := onDraft fun d =>
    let grouping := (fields d).filter fun q => q.aggregate?.isNone
    !d.isAggregate || grouping.isEmpty || grouping.any fun q => !q.channel.value?.any Channel.isFacet

def omitAggregatePlotWithoutDimension : ChartRule where
  name := "omitAggregatePlotWithoutDimension"
  description := "Aggregate plots without a dimension should be omitted."
  properties := [.aggregate, .autoCount, .bin, .timeUnit, .type]
  strict := false
  holds := onDraft fun d => !d.isAggregate || d.active.any Encoding.isDimension

def omitBarLineAreaWithOcclusion : ChartRule where
  name := "omitBarLineAreaWithOcclusion"
  description := "Raw bar, line and area plots occlude each other and should be omitted."
  properties := [.mark, .aggregate, .autoCount]
  strict := false
  holds := onDraft fun d =>
    match d.query.mark.value? with
    | some .bar | some .line | some .area => d.isAggregate
    | _ => true

def omitBarTickWithSize : ChartRule where
  name := "omitBarTickWithSize"
  description := "Bar and tick should not use size."
  properties := [.channel, .mark]
  allowsOpen := true
  strict := false
  holds := onDraft fun d =>
    match d.query.mark.value? with
    | some .bar | some .tick => !d.channelUsed .size
    | _ => true

def omitBarAreaForLogScale : ChartRule where
  name := "omitBarAreaForLogScale"
  description := "Bar and area should not use a log scale on a positional channel."
  properties := [.mark, .channel, .scale, .scaleOf .type, .type]
  holds := onDraft fun d =>
    match d.query.mark.value? with
    | some .bar | some .area =>
      !(fields d).any fun q => onAxis q && q.scale?.isSome && q.scaleType? == some .log
    | _ => true

def omitFacetOverPositionalChannels : ChartRule where
  name := "omitFacetOverPositionalChannels"
  description := "Omit faceted plots unless both x and y are used."
  properties := [.channel]
  strict := false
  holds := onDraft fun d => !(d.channelUsed .row || d.channelUsed .column) || usesBothAxes d

def omitMultipleNonPositionalChannels : ChartRule where
  name := "omitMultipleNonPositionalChannels"
  description := "Use at most one of color, shape and size."
  properties := [.channel]
  allowsOpen := true
  strict := false
  holds := onDraft fun d =>
    decide (((channels d).filter fun c => c == .color || c == .shape || c == .size).length ≤ 1)

def omitNonPositionalOverPositionalChannels : ChartRule where
  name := "omitNonPositionalOverPositionalChannels"
  description := "Do not use non-positional channels unless both x and y are used."
  properties := [.channel]
  strict := false
  holds := onDraft fun d => !Channel.nonspatial.any d.channelUsed || usesBothAxes d

def omitRaw : ChartRule where
  name := "omitRaw"
  description := "Omit raw plots."
  properties := [.aggregate, .autoCount]
  strict := false
  holds := onDraft Draft.isAggregate

def omitRawContinuousFieldForAggregatePlot : ChartRule where
  name := "omitRawContinuousFieldForAggregatePlot"
  description := "Aggregate plots should not use raw continuous fields."
  properties := [.aggregate, .autoCount, .timeUnit, .bin, .type]
  allowsOpen := true
  strict := false
  holds := onDraft fun d =>
    !d.isAggregate || (fields d).all fun q =>
      match q.type.value? with
      | some .temporal => q.mayHaveTimeUnit
      | some .quantitative => q.binIsPresent || q.mayAggregate
      | _ => true

def omitRawDetail : ChartRule where
  name := "omitRawDetail"
  description := "Do not use detail in a raw plot."
  properties := [.channel, .aggregate, .autoCount]
  holds := onDraft fun d => d.isAggregate || !d.channelUsed .detail

def omitRepeatedField : ChartRule where
  name := "omitRepeatedField"
  description := "Each field should be mapped to only one channel."
  properties := [.field]
  allowsOpen := true
  strict := false
  holds := onDraft fun d => decide ((fields d).filterMap fun q => q.field.value?).Nodup

def omitVerticalDotPlot : ChartRule where
  name := "omitVerticalDotPlot"
  description := "Omit a plot with a single encoding on y."
  properties := [.channel]
  allowsOpen := true
  strict := false
  holds := onDraft fun d =>
    match d.active with
    | [e] => !e.channel.is .y
    | _ => true

/-- Whether an encoding groups by names, which have no order to connect points along. -/
def isNominalDimension (e : Encoding) : Bool :=
  !e.isMeasure && e.field?.any (·.type.is .nominal)

/-- Lines and areas connect a measure along an ordered dimension; bars and ticks show one
measure. -/
def hasAppropriateGraphicTypeForMark : ChartRule where
  name := "hasAppropriateGraphicTypeForMark"
  description := "Each mark should encode the kind of data it is good at showing."
  properties := [.channel, .mark, .type, .timeUnit, .bin, .aggregate, .autoCount]
  strict := false
  holds _ d :=
    match d.query.mark.value? with
    | none => .ok true
    | some m =>
      match m with
      | .area | .line =>
        if !d.isAggregate then .ok true
        else
          match d.onChannel? .x, d.onChannel? .y with
          | some x, some y =>
            .ok (x.isMeasure != y.isMeasure && !isNominalDimension x && !isNominalDimension y)
          | _, _ => .ok false
      | .bar | .tick => .ok (!d.channelUsed .size && d.isMeasure .x != d.isMeasure .y)
      | .text | .circle | .point | .square | .rule => .ok true
      | .rect | .geoshape =>
        .error (.unsupported "hasAppropriateGraphicTypeForMark" (Vocabulary.name m))

def omitNonLinearScaleTypeWithStack : ChartRule where
  name := "omitNonLinearScaleTypeWithStack"
  description := "A stacked measure should use a linear scale."
  properties := [.channel, .mark, .aggregate, .autoCount, .scale, .scaleOf .type, .type]
  holds := onDraft fun d =>
    d.query.stack?.isNone || !(fields d).any fun q =>
      q.aggregate?.isSome && q.type.is .quantitative && onAxis q && q.scaleType?.any (· != .linear)

def omitNonSumStack : ChartRule where
  name := "omitNonSumStack"
  description := "Stacked plots should use a summative aggregate such as sum or count."
  properties := [.channel, .mark, .aggregate, .autoCount]
  strict := false
  holds := onDraft fun d =>
    d.query.stack?.all fun stack =>
      match d.encoding? stack.fieldIndex with
      | some (.field q) => q.aggregate?.any Aggregate.isSummative
      | some (.autoCount _ b) => b.is true
      | _ => false

def omitTableWithOcclusionIfAutoAddCount : ChartRule where
  name := "omitTableWithOcclusionIfAutoAddCount"
  description := "Raw plots with dimensions on both x and y occlude when count can be added instead."
  properties := [.channel, .type, .timeUnit, .bin, .aggregate, .autoCount]
  strict := false
  holds ctx d :=
    .ok (!(ctx.config.autoAddCount && d.isDimension .x && d.isDimension .y && !d.isAggregate))

/-- Every rule about charts, in the order in which they are run. -/
def all : List ChartRule := [
  noRepeatedChannel, alwaysIncludeZeroInScaleWithBarMark, autoAddCount,
  channelPermittedByMarkType, hasAllRequiredChannelsForMark, omitAggregate,
  omitAggregatePlotWithDimensionOnlyOnFacet, omitAggregatePlotWithoutDimension,
  omitBarLineAreaWithOcclusion, omitBarTickWithSize, omitBarAreaForLogScale,
  omitFacetOverPositionalChannels, omitMultipleNonPositionalChannels,
  omitNonPositionalOverPositionalChannels, omitRaw, omitRawContinuousFieldForAggregatePlot,
  omitRawDetail, omitRepeatedField, omitVerticalDotPlot, hasAppropriateGraphicTypeForMark,
  omitNonLinearScaleTypeWithStack, omitNonSumStack, omitTableWithOcclusionIfAutoAddCount]

end ChartRule

/-- The first active rule about a property that a draft violates. -/
def Draft.violated? (ctx : Context) (d : Draft) (p : Property) :
    Except RuleError (Option ChartRule) :=
  Rule.firstViolated? ctx d (Rule.about ChartRule.all p ctx.config)

end ChartAdvisor
