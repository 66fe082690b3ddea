import ChartAdvisor.Proofs.Rules.Dependence

/-!
# The footprint of a rule

All rules together: what a rule says, waiting included, is a function of its footprint, the
slots that it is about and a few more. Some rules look further than what they are about; the
narrow footprint leaves them out.
-/
namespace ChartAdvisor

namespace ChartRule

/-- Every rule about charts with the properties it reads. -/
def readings : List (ChartRule × List Property) := [
  (noRepeatedChannel, [.autoCount, .channel]),
  (alwaysIncludeZeroInScaleWithBarMark, [.mark, .scaleOf .zero, .channel, .type]),
  (autoAddCount, [.autoCount, .bin, .timeUnit, .type]),
  (channelPermittedByMarkType, [.autoCount, .channel, .mark]),
  (hasAllRequiredChannelsForMark, [.autoCount, .channel, .mark]),
  (omitAggregate, [.aggregate, .autoCount]),
  (omitAggregatePlotWithDimensionOnlyOnFacet, [.channel, .aggregate, .autoCount]),
  (omitAggregatePlotWithoutDimension, [.aggregate, .autoCount, .bin, .timeUnit, .type]),
  (omitBarLineAreaWithOcclusion, [.mark, .aggregate, .autoCount]),
  (omitBarTickWithSize, [.autoCount, .channel, .mark]),
  (omitBarAreaForLogScale, [.mark, .channel, .scale, .scaleOf .type, .type, .bin, .timeUnit]),
  (omitFacetOverPositionalChannels, [.autoCount, .channel]),
  (omitMultipleNonPositionalChannels, [.autoCount, .channel]),
  (omitNonPositionalOverPositionalChannels, [.autoCount, .channel]),
  (omitRaw, [.aggregate, .autoCount]),
  (omitRawContinuousFieldForAggregatePlot, [.aggregate, .autoCount, .timeUnit, .bin, .type]),
  (omitRawDetail, [.channel, .aggregate, .autoCount]),
  (omitRepeatedField, [.field]),
  (omitVerticalDotPlot, [.autoCount, .channel]),
  (hasAppropriateGraphicTypeForMark,
    [.channel, .mark, .type, .timeUnit, .bin, .aggregate, .autoCount]),
  (omitNonLinearScaleTypeWithStack,
    [.channel, .mark, .aggregate, .autoCount, .scaleOf .type, .type, .bin, .timeUnit]),
  (omitNonSumStack, [.channel, .mark, .aggregate, .autoCount]),
  (omitTableWithOcclusionIfAutoAddCount,
    [.channel, .type, .timeUnit, .bin, .aggregate, .autoCount])]

theorem readings_fst : readings.map Prod.fst = all := rfl

theorem dependsOn_of_mem {r : ChartRule} {ps : List Property} (h : (r, ps) ∈ readings) :
    r.DependsOn ps := by
  simp only [readings, List.mem_cons, Prod.mk.injEq, List.not_mem_nil, or_false] at h
  rcases h with ⟨rfl, rfl⟩ | ⟨rfl, rfl⟩ | ⟨rfl, rfl⟩ | ⟨rfl, rfl⟩ | ⟨rfl, rfl⟩ | ⟨rfl, rfl⟩ |
    ⟨rfl, rfl⟩ | ⟨rfl, rfl⟩ | ⟨rfl, rfl⟩ | ⟨rfl, rfl⟩ | ⟨rfl, rfl⟩ | ⟨rfl, rfl⟩ | ⟨rfl, rfl⟩ |
    ⟨rfl, rfl⟩ | ⟨rfl, rfl⟩ | ⟨rfl, rfl⟩ | ⟨rfl, rfl⟩ | ⟨rfl, rfl⟩ | ⟨rfl, rfl⟩ | ⟨rfl, rfl⟩ |
    ⟨rfl, rfl⟩ | ⟨rfl, rfl⟩ | ⟨rfl, rfl⟩
  · exact noRepeatedChannel_dependsOn
  · exact alwaysIncludeZeroInScaleWithBarMark_dependsOn
  · exact autoAddCount_dependsOn
  · exact channelPermittedByMarkType_dependsOn
  · exact hasAllRequiredChannelsForMark_dependsOn
  · exact omitAggregate_dependsOn
  · exact omitAggregatePlotWithDimensionOnlyOnFacet_dependsOn
  · exact omitAggregatePlotWithoutDimension_dependsOn
  · exact omitBarLineAreaWithOcclusion_dependsOn
  · exact omitBarTickWithSize_dependsOn
  · exact omitBarAreaForLogScale_dependsOn
  · exact omitFacetOverPositionalChannels_dependsOn
  · exact omitMultipleNonPositionalChannels_dependsOn
  · exact omitNonPositionalOverPositionalChannels_dependsOn
  · exact omitRaw_dependsOn
  · exact omitRawContinuousFieldForAggregatePlot_dependsOn
  · exact omitRawDetail_dependsOn
  · exact omitRepeatedField_dependsOn
  · exact omitVerticalDotPlot_dependsOn
  · exact hasAppropriateGraphicTypeForMark_dependsOn
  · exact omitNonLinearScaleTypeWithStack_dependsOn
  · exact omitNonSumStack_dependsOn
  · exact omitTableWithOcclusionIfAutoAddCount_dependsOn

/-- What any rule about charts reads. -/
def reach (r : ChartRule) : List Property := .autoCount :: .bin :: .timeUnit :: r.properties

/-- The properties that a rule is about, and whether a count of rows plays a part if it is
about channels. -/
def footprint (r : ChartRule) : List Property :=
  if r.properties.contains .channel then .autoCount :: r.properties else r.properties

/-- The rules about charts that judge the settings of scales. -/
def aboutScales : List String :=
  ["alwaysIncludeZeroInScaleWithBarMark", "omitBarAreaForLogScale",
    "omitNonLinearScaleTypeWithStack"]

theorem dependsOn_reach {r : ChartRule} (h : r ∈ all) : r.DependsOn r.reach := by
  rw [← readings_fst] at h
  obtain ⟨⟨r, ps⟩, hm, rfl⟩ := List.mem_map.mp h
  have hall : ∀ e ∈ readings, ∀ p ∈ e.2, p ∈ e.1.reach := by decide
  exact (dependsOn_of_mem hm).mono (hall _ hm)

theorem dependsOn_footprint {r : ChartRule} (h : r ∈ all) (hr : r.name ∉ aboutScales) :
    r.DependsOn r.footprint := by
  rw [← readings_fst] at h
  obtain ⟨⟨r, ps⟩, hm, rfl⟩ := List.mem_map.mp h
  have hall : ∀ e ∈ readings, e.1.name ∉ aboutScales → ∀ p ∈ e.2, p ∈ e.1.footprint := by decide
  exact (dependsOn_of_mem hm).mono (hall _ hm hr)

/-- Drafts that agree on what a rule reads get the same verdict, or wait alike. -/
theorem check_congr {r : ChartRule} {ps : List Property} (hr : r.DependsOn ps)
    (hps : ∀ p ∈ r.properties, p ∈ ps) (hb : r.allowsOpen = true ∨ .autoCount ∈ ps)
    {d d' : Draft} (hd : d.Agree ps d') (ctx : Context) : r.check ctx d = r.check ctx d' := by
  have hwaits : r.waits d = r.waits d' := by
    unfold Rule.waits
    rcases hb with hb | hb
    · rw [hb]; rfl
    · have hany : r.properties.any (Judged.isOpen d) = r.properties.any (Judged.isOpen d') := by
        rw [Bool.eq_iff_iff, List.any_eq_true, List.any_eq_true]
        exact exists_congr fun p => and_congr_right fun hp => by rw [hd.isOpen hb (hps p hp)]
      rw [hany]
  unfold Rule.check
  rw [hwaits, hr ctx d d' hd]

theorem check_congr_reach {r : ChartRule} (h : r ∈ all) {d d' : Draft} (hd : d.Agree r.reach d')
    (ctx : Context) : r.check ctx d = r.check ctx d' :=
  check_congr (dependsOn_reach h)
    (fun _ hp => List.mem_cons_of_mem _ (List.mem_cons_of_mem _ (List.mem_cons_of_mem _ hp)))
    (.inr (List.mem_cons_self ..)) hd ctx

theorem check_congr_footprint {r : ChartRule} (h : r ∈ all) (hr : r.name ∉ aboutScales)
    {d d' : Draft} (hd : d.Agree r.footprint d') (ctx : Context) :
    r.check ctx d = r.check ctx d' := by
  have hall : ∀ r ∈ all, r.allowsOpen = true ∨ .autoCount ∈ r.footprint := by decide
  refine check_congr (dependsOn_footprint h hr) (fun p hp => ?_) (hall r h) hd ctx
  unfold footprint
  split
  · exact List.mem_cons_of_mem _ hp
  · exact hp

end ChartRule

namespace EncodingRule

/-- Every rule about encodings with the properties it reads. -/
def readings : List (EncodingRule × List Property) := [
  (aggregateOpSupportedByType, [.aggregate, .type]),
  (asteriskFieldWithCountOnly, [.field, .aggregate]),
  (minCardinalityForBin, [.bin, .field, .type]),
  (binAppliedForQuantitative, [.type, .bin]),
  (channelSupportsRole, [.channel, .type, .bin, .timeUnit]),
  (hasFn, [.hasFunction, .aggregate, .bin, .timeUnit]),
  (omitScaleZeroWithBinnedField, [.scale, .scaleOf .zero, .bin]),
  (onlyOneTypeOfFunction, [.aggregate, .timeUnit, .bin]),
  (timeUnitAppliedForTemporal, [.timeUnit, .type]),
  (scalePropertiesSupportedByScaleType, [.type, .channel, .bin, .timeUnit] ++ scaleProperties),
  (scalePropertiesSupportedByChannel, .channel :: scaleProperties),
  (typeMatchesPrimitiveType, [.field, .type]),
  (typeMatchesSchemaType, [.field, .type]),
  (maxCardinalityForCategoricalColor, [.channel, .field, .type, .bin, .maxBins, .timeUnit]),
  (maxCardinalityForFacet, [.channel, .field, .bin, .maxBins, .timeUnit]),
  (maxCardinalityForShape, [.channel, .field, .bin, .maxBins, .timeUnit]),
  (dataTypeAndFunctionMatchScaleType,
    [.scale, .scaleOf .type, .type, .timeUnit, .bin, .channel]),
  (omitBinWithLogScale, [.scale, .scaleOf .type, .bin])]

theorem readings_fst : readings.map Prod.fst = all := rfl

theorem dependsOn_of_mem {r : EncodingRule} {ps : List Property} (h : (r, ps) ∈ readings) :
    r.DependsOn ps := by
  simp only [readings, List.mem_cons, Prod.mk.injEq, List.not_mem_nil, or_false] at h
  rcases h with ⟨rfl, rfl⟩ | ⟨rfl, rfl⟩ | ⟨rfl, rfl⟩ | ⟨rfl, rfl⟩ | ⟨rfl, rfl⟩ | ⟨rfl, rfl⟩ |
    ⟨rfl, rfl⟩ | ⟨rfl, rfl⟩ | ⟨rfl, rfl⟩ | ⟨rfl, rfl⟩ | ⟨rfl, rfl⟩ | ⟨rfl, rfl⟩ | ⟨rfl, rfl⟩ |
    ⟨rfl, rfl⟩ | ⟨rfl, rfl⟩ | ⟨rfl, rfl⟩ | ⟨rfl, rfl⟩ | ⟨rfl, rfl⟩
  · exact aggregateOpSupportedByType_dependsOn
  · exact asteriskFieldWithCountOnly_dependsOn
  · exact minCardinalityForBin_dependsOn
  · exact binAppliedForQuantitative_dependsOn
  · exact channelSupportsRole_dependsOn
  · exact hasFn_dependsOn
  · exact omitScaleZeroWithBinnedField_dependsOn
  · exact onlyOneTypeOfFunction_dependsOn
  · exact timeUnitAppliedForTemporal_dependsOn
  · exact scalePropertiesSupportedByScaleType_dependsOn
  · exact scalePropertiesSupportedByChannel_dependsOn
  · exact typeMatchesPrimitiveType_dependsOn
  · exact typeMatchesSchemaType_dependsOn
  · exact maxCardinalityForCategoricalColor_dependsOn
  · exact maxCardinalityForFacet_dependsOn
  · exact maxCardinalityForShape_dependsOn
  · exact dataTypeAndFunctionMatchScaleType_dependsOn
  · exact omitBinWithLogScale_dependsOn

/-- What any rule about encodings reads. -/
def reach (r : EncodingRule) : List Property :=
  [.hasFunction, .channel, .type, .bin, .timeUnit, .maxBins] ++ r.properties

/-- The properties that a rule is about, and whether a field has to have a function. -/
def footprint (r : EncodingRule) : List Property := .hasFunction :: r.properties

/-- The rules about encodings that judge the scale type in effect or the number of values. -/
def derived : List String :=
  ["scalePropertiesSupportedByScaleType", "maxCardinalityForCategoricalColor",
    "maxCardinalityForFacet", "maxCardinalityForShape", "dataTypeAndFunctionMatchScaleType"]

theorem dependsOn_reach {r : EncodingRule} (h : r ∈ all) : r.DependsOn r.reach := by
  rw [← readings_fst] at h
  obtain ⟨⟨r, ps⟩, hm, rfl⟩ := List.mem_map.mp h
  have hall : ∀ e ∈ readings, ∀ p ∈ e.2, p ∈ e.1.reach := by decide
  exact (dependsOn_of_mem hm).mono (hall _ hm)

theorem dependsOn_footprint {r : EncodingRule} (h : r ∈ all) (hr : r.name ∉ derived) :
    r.DependsOn r.footprint := by
  rw [← readings_fst] at h
  obtain ⟨⟨r, ps⟩, hm, rfl⟩ := List.mem_map.mp h
  have hall : ∀ e ∈ readings, e.1.name ∉ derived → ∀ p ∈ e.2, p ∈ e.1.footprint := by decide
  exact (dependsOn_of_mem hm).mono (hall _ hm hr)

theorem waits_congr {r : EncodingRule} {s s' : Place}
    (hs : s.encoding.Agree r.properties s'.encoding) : r.waits s = r.waits s' := by
  have hany : r.properties.any (Judged.isOpen s) = r.properties.any (Judged.isOpen s') := by
    rw [Bool.eq_iff_iff, List.any_eq_true, List.any_eq_true]
    refine exists_congr fun p => and_congr_right fun hp => ?_
    rw [show Judged.isOpen s p = s.encoding.isOpen p from rfl, hs.isOpen hp]
    rfl
  unfold Rule.waits
  rw [hany]

/-- Encodings that agree on what a rule reads get the same verdict, or wait alike. -/
theorem check_congr {r : EncodingRule} {ps : List Property} (hr : r.DependsOn ps)
    (hps : ∀ p ∈ r.properties, p ∈ ps) {s s' : Place} (hs : s.encoding.Agree ps s'.encoding)
    (hslots : s.slots.map Prod.fst = s'.slots.map Prod.fst) (ctx : Context) :
    r.check ctx s = r.check ctx s' := by
  unfold Rule.check
  rw [waits_congr (hs.mono hps), hr ctx s s' hs hslots]

theorem check_congr_reach {r : EncodingRule} (h : r ∈ all) {s s' : Place}
    (hs : s.encoding.Agree r.reach s'.encoding)
    (hslots : s.slots.map Prod.fst = s'.slots.map Prod.fst) (ctx : Context) :
    r.check ctx s = r.check ctx s' :=
  check_congr (dependsOn_reach h) (fun _ hp => List.mem_append_right _ hp) hs hslots ctx

theorem check_congr_footprint {r : EncodingRule} (h : r ∈ all) (hr : r.name ∉ derived)
    {s s' : Place} (hs : s.encoding.Agree r.footprint s'.encoding) (hslots : s.slots = s'.slots)
    (ctx : Context) : r.check ctx s = r.check ctx s' :=
  check_congr (dependsOn_footprint h hr) (fun _ hp => List.mem_cons_of_mem _ hp) hs
    (congrArg _ hslots) ctx

end EncodingRule
end ChartAdvisor
