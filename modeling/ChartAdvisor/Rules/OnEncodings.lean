import ChartAdvisor.Rules.Basic

/-!
# Rules about encodings

Each of these rules judges one encoding: its function, its type, its channel and its scale.
Constants and counts of rows keep most of them.
-/
namespace ChartAdvisor
namespace EncodingRule

/-- Judges the field of an encoding; an encoding without one keeps the rule. -/
def onField (test : FieldEncoding → Bool) : Context → Place → Except RuleError Bool :=
  fun _ s => .ok (s.encoding.field?.all test)

/-- How many values a field takes. -/
def cardinality (ctx : Context) (q : FieldEncoding) : Except RuleError Nat :=
  (ctx.schema.cardinality q).mapError .schema

/-- At most as many values as a ceiling allows, if there is one. -/
def withinCeiling (ctx : Context) (s : Place) (ceiling : Option Nat) : Except RuleError Bool :=
  match s.encoding.field?, ceiling with
  | some q, some ceiling => (cardinality ctx q).map fun n => decide (n ≤ ceiling)
  | _, _ => .ok true

/-- The parts of a scale that are set, its type apart. -/
def setParts (s : Scale) : List ScaleProperty :=
  Vocabulary.all.filter fun p => p != .type && s.has p

/-- Whether the field or the type was open, or fixed values are checked as well. -/
def checksChoice (ctx : Context) (s : Place) : Bool :=
  s.slots.any (·.1 == .field) || s.slots.any (·.1 == .type) ||
    ctx.config.constraintManuallySpecifiedValue

def scaleProperties : List Property :=
  [.scale] ++ Property.scaleParts.map .scaleOf

/-- Discrete fields are not aggregated. -/
def aggregateOpSupportedByType : EncodingRule where
  name := "aggregateOpSupportedByType"
  description := "Aggregate function should be supported by the data type."
  properties := [.aggregate, .type]
  holds := onField fun q => q.aggregate?.isNone || !q.type.value?.any FieldType.isDiscrete

def asteriskFieldWithCountOnly : EncodingRule where
  name := "asteriskFieldWithCountOnly"
  description := "Field=\"*\" should be used with count and count only."
  properties := [.field, .aggregate]
  holds := onField fun q => q.field.is "*" == (q.aggregate? == some .count)

/-- The values are counted as they stand, without the function of the field. -/
def minCardinalityForBin : EncodingRule where
  name := "minCardinalityForBin"
  description := "Binned quantitative fields should have at least a minimum number of distinct values."
  properties := [.bin, .field, .type]
  holds ctx s :=
    match s.encoding.field? with
    | none => .ok true
    | some q =>
      if q.isBinned && q.type.is .quantitative then
        let raw := { q with bin := none, aggregate := .fixed none, timeUnit := .fixed none }
        (cardinality ctx raw).map fun n => decide (ctx.config.minCardinalityForBin ≤ n)
      else .ok true

def binAppliedForQuantitative : EncodingRule where
  name := "binAppliedForQuantitative"
  description := "Bin should be applied to quantitative fields only."
  properties := [.type, .bin]
  holds := onField fun q => !q.isBinned || q.type.is .quantitative

/-- Whether the role of a field may still turn out to be that of a dimension. -/
def roleIsOpen (q : FieldEncoding) : Bool :=
  match q.type.value? with
  | none => true
  | some .quantitative => q.binIsOpen
  | some .temporal => q.timeUnit.isOpen
  | some _ => false

/-- A measure does not go where only dimensions do. -/
def channelSupportsRole : EncodingRule where
  name := "channelSupportsRole"
  description := "The encoding's role (dimension or measure) should be supported by its channel."
  properties := [.channel, .type, .bin, .timeUnit]
  allowsOpen := true
  holds _ s := .ok <|
    match s.encoding.channel?, s.encoding with
    | none, _ | _, .value .. => true
    | some c, .autoCount .. => c.supportsMeasure
    | some c, .field q => roleIsOpen q || (Encoding.field q).isDimension || c.supportsMeasure

def hasFn : EncodingRule where
  name := "hasFn"
  description := "A field with hasFn must carry an aggregate, a bin or a time unit."
  properties := [.aggregate, .bin, .timeUnit]
  allowsOpen := true
  holds := onField fun q =>
    !q.hasFunction || q.mayAggregate || q.binIsPresent || q.mayHaveTimeUnit

def omitScaleZeroWithBinnedField : EncodingRule where
  name := "omitScaleZeroWithBinnedField"
  description := "Do not use scale zero with a binned field."
  properties := [.scale, .scaleOf .zero, .bin]
  holds := onField fun q => !(q.isBinned && (q.scaleOn?.bind Scale.zero).any (·.is true))

def onlyOneTypeOfFunction : EncodingRule where
  name := "onlyOneTypeOfFunction"
  description := "Only one of aggregate, auto count, time unit or bin should be applied at once."
  properties := [.aggregate, .autoCount, .timeUnit, .bin]
  allowsOpen := true
  holds := onField fun q =>
    decide ([q.aggregate?.isSome, q.isBinned, q.timeUnit?.isSome].count true ≤ 1)

def timeUnitAppliedForTemporal : EncodingRule where
  name := "timeUnitAppliedForTemporal"
  description := "Time unit should be applied to temporal fields only."
  properties := [.timeUnit, .type]
  holds := onField fun q => q.timeUnit?.isNone || q.type.is .temporal

/-- On a point scale also what a band scale supports is allowed. -/
def scalePropertiesSupportedByScaleType : EncodingRule where
  name := "scalePropertiesSupportedByScaleType"
  description := "Scale properties must be supported by the scale type in effect."
  properties := .type :: scaleProperties
  allowsOpen := true
  holds := onField fun q =>
    match q.scaleOn?, q.scaleType? with
    | some s, some t =>
      (setParts s).all fun p => t.supports p || (t == .point && ScaleType.band.supports p)
    | _, _ => true

def scalePropertiesSupportedByChannel : EncodingRule where
  name := "scalePropertiesSupportedByChannel"
  description := "Scale properties must be supported by the channel."
  properties := .channel :: scaleProperties
  allowsOpen := true
  holds := onField fun q =>
    match q.channel.value?, q.scaleOn? with
    | some c, some s => c.supportsScale && (setParts s).all c.supportsScaleProperty
    | _, _ => true

/-- Whether values of a storage type can be read as a type. -/
def suits : PrimitiveType → FieldType → Bool
  | .string, t | .boolean, t => t != .quantitative && t != .temporal
  | .number, t | .integer, t => t != .temporal
  | .date, t => t == .temporal

def typeMatchesPrimitiveType : EncodingRule where
  name := "typeMatchesPrimitiveType"
  description := "The encoding type should suit the field's storage type."
  properties := [.field, .type]
  holds ctx s := onField (fun q =>
    match q.field.value?, q.type.value? with
    | some name, some t =>
      name == "*" || !checksChoice ctx s || (ctx.schema.primitive? name).any (suits · t)
    | _, _ => true) ctx s

def typeMatchesSchemaType : EncodingRule where
  name := "typeMatchesSchemaType"
  description := "The encoding type should match the type reported by the schema."
  properties := [.field, .type]
  strict := false
  holds ctx s := onField (fun q =>
    match q.field.value?, q.type.value? with
    | some name, some t =>
      !checksChoice ctx s ||
        (if name = "*" then t == .quantitative else ctx.schema.type? name == some t)
    | _, _ => true) ctx s

def maxCardinalityForCategoricalColor : EncodingRule where
  name := "maxCardinalityForCategoricalColor"
  description := "Categorical color should not be used with too many distinct values."
  properties := [.channel, .field]
  strict := false
  holds ctx s :=
    if s.encoding.channel.is .color && s.encoding.field?.any (·.type.is .nominal) then
      withinCeiling ctx s ctx.config.maxCardinalityForCategoricalColor
    else .ok true

def maxCardinalityForFacet : EncodingRule where
  name := "maxCardinalityForFacet"
  description := "Row and column should not be used with too many distinct values."
  properties := [.channel, .field, .bin, .timeUnit]
  strict := false
  holds ctx s :=
    if s.encoding.channel?.any Channel.isFacet then
      withinCeiling ctx s ctx.config.maxCardinalityForFacet
    else .ok true

def maxCardinalityForShape : EncodingRule where
  name := "maxCardinalityForShape"
  description := "Shape should not be used with too many distinct values."
  properties := [.channel, .field, .bin, .timeUnit]
  strict := false
  holds ctx s :=
    if s.encoding.channel.is .shape then withinCeiling ctx s ctx.config.maxCardinalityForShape
    else .ok true

/-- Whether a scale type suits a field of a type with its function. -/
def scaleSuits (q : FieldEncoding) (t : ScaleType) : FieldType → Bool
  | .nominal | .ordinal => t.hasDiscreteDomain
  | .temporal =>
    let continuous := t == .time || t == .utc || t == .sequential
    continuous || (q.timeUnit?.isSome && t.hasDiscreteDomain)
  | .quantitative =>
    if q.isBinned then t == .linear || t == .binLinear || t == .binOrdinal
    else
      match t with
      | .log | .pow | .sqrt | .quantile | .quantize | .linear | .sequential | .ordinal => true
      | _ => false

def dataTypeAndFunctionMatchScaleType : EncodingRule where
  name := "dataTypeAndFunctionMatchScaleType"
  description := "The scale type should suit the data type and the function applied."
  properties := [.scale, .scaleOf .type, .type, .timeUnit, .bin]
  holds := onField fun q =>
    match q.scaleOn?, q.type.value?, q.scaleType? with
    | some _, some type, some t => scaleSuits q t type
    | _, _, _ => true

def omitBinWithLogScale : EncodingRule where
  name := "omitBinWithLogScale"
  description := "Do not use a log scale with a binned field."
  properties := [.scale, .scaleOf .type, .bin]
  holds := onField fun q => !(q.isBinned && (q.scaleOn?.bind Scale.type).any (·.is .log))

/-- Every rule about encodings, in the order in which they are run. -/
def all : List EncodingRule := [
  aggregateOpSupportedByType, asteriskFieldWithCountOnly, minCardinalityForBin,
  binAppliedForQuantitative, channelSupportsRole, hasFn, omitScaleZeroWithBinnedField,
  onlyOneTypeOfFunction, timeUnitAppliedForTemporal, scalePropertiesSupportedByScaleType,
  scalePropertiesSupportedByChannel, typeMatchesPrimitiveType, typeMatchesSchemaType,
  maxCardinalityForCategoricalColor, maxCardinalityForFacet, maxCardinalityForShape,
  dataTypeAndFunctionMatchScaleType, omitBinWithLogScale]

end EncodingRule

/-- The first active rule about a property that an encoding of a draft violates. That the
encoding exists matters only if there are rules about the property at all. -/
def Draft.violatedByEncoding? (ctx : Context) (d : Draft) (index : Nat) (p : Property) :
    Except RuleError (Option EncodingRule) :=
  if EncodingRule.all.any (·.reads p) then
    match d.encoding? index with
    | none => .error (.unresolved p index)
    | some e => Rule.firstViolated? ctx (d.place index e) (Rule.about EncodingRule.all p ctx.config)
  else .ok none

end ChartAdvisor
