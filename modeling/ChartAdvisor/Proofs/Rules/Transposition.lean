import ChartAdvisor.Proofs.Query.Relabelling
import ChartAdvisor.Proofs.Rules.Footprint

/-!
# Charts lying on their side

The two axes are alike to the rules, and so are the two facets: a draft and the draft with its axes or
its facets swapped get the same verdicts, whatever in them is open. Only the rule about vertical dot
plots goes by the axis. A stack of the one draft is a stack along the other axis of the other one.
-/
namespace ChartAdvisor

/-! ## Rules about charts -/

namespace ChartRule

/-- The verdict of a rule does not tell channels from their images. -/
def BlindTo (r : ChartRule) (σ : Channel → Channel) : Prop :=
  ∀ (ctx : Context) (d : Draft), r.holds ctx (d.relabelled σ) = r.holds ctx d

theorem agree_relabelled (σ : Channel → Channel) (d : Draft) {ps : List Property} (hps : .channel ∉ ps) :
    (d.relabelled σ).Agree ps d where
  outline := rfl
  config := rfl
  mark _ := rfl
  encodings :=
    List.forall₂_map_left_iff.mpr (List.forall₂_same.mpr fun e _ => e.agree_relabelled σ hps)
  used hc := absurd hc hps

/-- A rule that does not read channels cannot tell them apart. -/
theorem DependsOn.blindTo {r : ChartRule} {ps : List Property} (h : r.DependsOn ps)
    (hps : .channel ∉ ps) (σ : Channel → Channel) : r.BlindTo σ :=
  fun ctx d => h ctx _ _ (agree_relabelled σ d hps)

/-- What is open stays open, so a rule waits as before. -/
theorem waits_relabelled (r : ChartRule) (σ : Channel → Channel) (d : Draft) :
    r.waits (d.relabelled σ) = r.waits d := by
  have hopen (p : Property) : Judged.isOpen (d.relabelled σ) p = Judged.isOpen d p := by
    simp [Judged.isOpen, Function.comp_def]
  unfold Rule.waits
  rw [funext hopen]

theorem BlindTo.check_eq {r : ChartRule} {σ : Channel → Channel} (h : r.BlindTo σ) (ctx : Context)
    (d : Draft) : r.check ctx (d.relabelled σ) = r.check ctx d := by
  unfold Rule.check
  rw [waits_relabelled, h ctx d]

theorem isNominalDimension_relabelled (σ : Channel → Channel) (e : Encoding) :
    isNominalDimension (e.relabelled σ) = isNominalDimension e := by
  cases e <;> rfl

section KeepsPlaces

variable {σ : Equiv.Perm Channel} (hσ : Channel.KeepsPlaces σ)
include hσ

theorem onAxis_relabelled (q : FieldEncoding) : onAxis (q.relabelled σ) = onAxis q := by
  simp [onAxis, Option.any_map, hσ.axes]

/-- Both axes are used, or one of them, if so are their images. -/
theorem usesAxes_relabelled (d : Draft) :
    usesBothAxes (d.relabelled σ) = usesBothAxes d ∧ usesAnAxis (d.relabelled σ) = usesAnAxis d := by
  have hx := d.channelUsed_relabelled σ.injective .x
  have hy := d.channelUsed_relabelled σ.injective .y
  unfold usesBothAxes usesAnAxis
  rcases hσ.axes_cases with ⟨hsx, hsy⟩ | ⟨hsx, hsy⟩ <;> rw [hsx] at hx <;> rw [hsy] at hy <;> rw [hx, hy]
  · exact ⟨rfl, rfl⟩
  · exact ⟨Bool.and_comm .., Bool.or_comm ..⟩

theorem usesAFacet_relabelled (d : Draft) :
    ((d.relabelled σ).channelUsed .row || (d.relabelled σ).channelUsed .column) =
      (d.channelUsed .row || d.channelUsed .column) := by
  have hr := d.channelUsed_relabelled σ.injective .row
  have hc := d.channelUsed_relabelled σ.injective .column
  rcases hσ.facets_cases with ⟨hsr, hsc⟩ | ⟨hsr, hsc⟩ <;> rw [hsr] at hr <;> rw [hsc] at hc <;> rw [hr, hc]
  exact Bool.or_comm ..

theorem channelUsed_relabelled_of_other (d : Draft) {c : Channel} (ha : c.isPositional = false)
    (hf : c.isFacet = false) : (d.relabelled σ).channelUsed c = d.channelUsed c := by
  have hc := d.channelUsed_relabelled σ.injective c
  rwa [hσ.others c ha hf] at hc

omit hσ in
theorem noRepeatedChannel_blindTo : noRepeatedChannel.BlindTo σ := by
  intro ctx d
  simp only [noRepeatedChannel, onDraft, d.channels_relabelled, List.nodup_map_iff σ.injective]

theorem alwaysIncludeZeroInScaleWithBarMark_blindTo : alwaysIncludeZeroInScaleWithBarMark.BlindTo σ := by
  intro ctx d
  simp [alwaysIncludeZeroInScaleWithBarMark, onDraft, d.fields_relabelled, Function.comp_def,
    onAxis_relabelled hσ]

theorem channelPermittedByMarkType_blindTo : channelPermittedByMarkType.BlindTo σ := by
  intro ctx d
  have hsupports (m : Mark) (c : Channel) : (σ c).supportsMark m = c.supportsMark m :=
    hσ.apply_eq (f := (·.supportsMark m)) rfl rfl c
  simp [channelPermittedByMarkType, onDraft, d.channels_relabelled, Function.comp_def, hsupports]

theorem hasAllRequiredChannelsForMark_blindTo : hasAllRequiredChannelsForMark.BlindTo σ := by
  intro ctx d
  simp [hasAllRequiredChannelsForMark, usesAxes_relabelled hσ,
    channelUsed_relabelled_of_other hσ d (c := .text) rfl rfl]

theorem omitAggregatePlotWithDimensionOnlyOnFacet_blindTo :
    omitAggregatePlotWithDimensionOnlyOnFacet.BlindTo σ := by
  intro ctx d
  simp [omitAggregatePlotWithDimensionOnlyOnFacet, onDraft, d.fields_relabelled, List.filter_map,
    Function.comp_def, Option.any_map, hσ.facets]

theorem omitBarTickWithSize_blindTo : omitBarTickWithSize.BlindTo σ := by
  intro ctx d
  simp [omitBarTickWithSize, onDraft, channelUsed_relabelled_of_other hσ d (c := .size) rfl rfl]

theorem omitBarAreaForLogScale_blindTo : omitBarAreaForLogScale.BlindTo σ := by
  intro ctx d
  simp [omitBarAreaForLogScale, onDraft, d.fields_relabelled, Function.comp_def,
    onAxis_relabelled hσ, FieldEncoding.scaleType?_relabelled hσ]

theorem omitFacetOverPositionalChannels_blindTo : omitFacetOverPositionalChannels.BlindTo σ := by
  intro ctx d
  simp only [omitFacetOverPositionalChannels, onDraft, usesAFacet_relabelled hσ,
    (usesAxes_relabelled hσ d).1]

theorem omitMultipleNonPositionalChannels_blindTo : omitMultipleNonPositionalChannels.BlindTo σ := by
  intro ctx d
  have hsame (c : Channel) : (σ c == .color || σ c == .shape || σ c == .size) =
      (c == .color || c == .shape || c == .size) :=
    hσ.apply_eq (f := fun c => c == .color || c == .shape || c == .size) rfl rfl c
  simp only [omitMultipleNonPositionalChannels, onDraft, d.channels_relabelled, List.filter_map,
    Function.comp_def, hsame, List.length_map]

theorem omitNonPositionalOverPositionalChannels_blindTo :
    omitNonPositionalOverPositionalChannels.BlindTo σ := by
  intro ctx d
  have hany : Channel.nonspatial.any (d.relabelled σ).channelUsed = Channel.nonspatial.any d.channelUsed := by
    have hoff : ∀ c ∈ Channel.nonspatial, c.isPositional = false ∧ c.isFacet = false := by decide
    refine Bool.eq_iff_iff.mpr ?_
    simp only [List.any_eq_true]
    exact exists_congr fun c => and_congr_right fun hc => by
      rw [channelUsed_relabelled_of_other hσ d (hoff c hc).1 (hoff c hc).2]
  simp only [omitNonPositionalOverPositionalChannels, onDraft, hany, (usesAxes_relabelled hσ d).1]

theorem omitRawDetail_blindTo : omitRawDetail.BlindTo σ := by
  intro ctx d
  simp [omitRawDetail, onDraft, channelUsed_relabelled_of_other hσ d (c := .detail) rfl rfl]

omit hσ in
/-- The one rule that goes by an axis is blind where the axis stays. -/
theorem omitVerticalDotPlot_blindTo (hy : σ .y = .y) : omitVerticalDotPlot.BlindTo σ := by
  intro ctx d
  simp only [omitVerticalDotPlot, onDraft, d.active_relabelled]
  rcases d.active with _ | ⟨e, _ | ⟨e', rest⟩⟩
  · rfl
  · have he := e.channel_is_relabelled σ.injective .y
    rw [hy] at he
    simp only [List.map_cons, List.map_nil, he]
  · rfl

theorem hasAppropriateGraphicTypeForMark_blindTo : hasAppropriateGraphicTypeForMark.BlindTo σ := by
  intro ctx d
  have hx := d.onChannel?_relabelled σ.injective .x
  have hy := d.onChannel?_relabelled σ.injective .y
  have hmx := d.isMeasure_relabelled σ.injective .x
  have hmy := d.isMeasure_relabelled σ.injective .y
  simp only [hasAppropriateGraphicTypeForMark, d.query_relabelled, ChartQuery.mark_relabelled,
    d.isAggregate_relabelled, channelUsed_relabelled_of_other hσ d (c := .size) rfl rfl]
  rcases hσ.axes_cases with ⟨hsx, hsy⟩ | ⟨hsx, hsy⟩ <;> rw [hsx] at hx hmx <;> rw [hsy] at hy hmy <;>
    rw [hx, hy, hmx, hmy]
  · cases d.onChannel? .x <;> cases d.onChannel? .y <;>
      simp [isNominalDimension_relabelled]
  · rw [bne_comm (a := d.isMeasure .y)]
    cases d.onChannel? .x <;> cases d.onChannel? .y <;>
      simp [isNominalDimension_relabelled, bne_comm, Bool.and_comm, Bool.and_left_comm]

theorem omitNonLinearScaleTypeWithStack_blindTo : omitNonLinearScaleTypeWithStack.BlindTo σ := by
  intro ctx d
  simp [omitNonLinearScaleTypeWithStack, onDraft, d.fields_relabelled, Function.comp_def,
    onAxis_relabelled hσ, FieldEncoding.scaleType?_relabelled hσ, ChartQuery.stack?_relabelled hσ]

theorem omitNonSumStack_blindTo : omitNonSumStack.BlindTo σ := by
  intro ctx d
  simp only [omitNonSumStack, onDraft, d.query_relabelled, ChartQuery.stack?_relabelled hσ,
    Option.all_map, d.encoding?_relabelled]
  refine congrArg (fun f => Except.ok (d.query.stack?.all f)) (funext fun stack => ?_)
  have hindex : (stack.relabelled σ).fieldIndex = stack.fieldIndex := rfl
  simp only [hindex]
  rcases d.encoding? stack.fieldIndex with _ | _ | _ | _ <;> rfl

theorem omitTableWithOcclusionIfAutoAddCount_blindTo :
    omitTableWithOcclusionIfAutoAddCount.BlindTo σ := by
  intro ctx d
  have hx := d.isDimension_relabelled σ.injective .x
  have hy := d.isDimension_relabelled σ.injective .y
  simp only [omitTableWithOcclusionIfAutoAddCount, d.isAggregate_relabelled]
  rcases hσ.axes_cases with ⟨hsx, hsy⟩ | ⟨hsx, hsy⟩ <;> rw [hsx] at hx <;> rw [hsy] at hy <;> rw [hx, hy]
  rw [Bool.and_assoc ctx.config.autoAddCount, Bool.and_comm (d.isDimension .y), ← Bool.and_assoc]

/-- The rules about charts are blind to a permutation of the axes and of the facets. -/
theorem blindTo_of_mem {r : ChartRule} (h : r ∈ all)
    (hy : r.name = omitVerticalDotPlot.name → σ .y = .y) : r.BlindTo σ := by
  simp only [all, List.mem_cons, List.not_mem_nil, or_false] at h
  rcases h with rfl | rfl | rfl | rfl | rfl | rfl | rfl | rfl | rfl | rfl | rfl | rfl | rfl | rfl | rfl |
    rfl | rfl | rfl | rfl | rfl | rfl | rfl | rfl
  · exact noRepeatedChannel_blindTo
  · exact alwaysIncludeZeroInScaleWithBarMark_blindTo hσ
  · exact autoAddCount_dependsOn.blindTo (by decide) σ
  · exact channelPermittedByMarkType_blindTo hσ
  · exact hasAllRequiredChannelsForMark_blindTo hσ
  · exact omitAggregate_dependsOn.blindTo (by decide) σ
  · exact omitAggregatePlotWithDimensionOnlyOnFacet_blindTo hσ
  · exact omitAggregatePlotWithoutDimension_dependsOn.blindTo (by decide) σ
  · exact omitBarLineAreaWithOcclusion_dependsOn.blindTo (by decide) σ
  · exact omitBarTickWithSize_blindTo hσ
  · exact omitBarAreaForLogScale_blindTo hσ
  · exact omitFacetOverPositionalChannels_blindTo hσ
  · exact omitMultipleNonPositionalChannels_blindTo hσ
  · exact omitNonPositionalOverPositionalChannels_blindTo hσ
  · exact omitRaw_dependsOn.blindTo (by decide) σ
  · exact omitRawContinuousFieldForAggregatePlot_dependsOn.blindTo (by decide) σ
  · exact omitRawDetail_blindTo hσ
  · exact omitRepeatedField_dependsOn.blindTo (by decide) σ
  · exact omitVerticalDotPlot_blindTo (hy rfl)
  · exact hasAppropriateGraphicTypeForMark_blindTo hσ
  · exact omitNonLinearScaleTypeWithStack_blindTo hσ
  · exact omitNonSumStack_blindTo hσ
  · exact omitTableWithOcclusionIfAutoAddCount_blindTo hσ

end KeepsPlaces

end ChartRule

/-! ## Rules about encodings -/

/-- The place on the image of its channel. -/
def Place.relabelled (σ : Channel → Channel) (s : Place) : Place := { s with encoding := s.encoding.relabelled σ }

namespace EncodingRule

/-- The verdict of a rule does not tell channels from their images. -/
def BlindTo (r : EncodingRule) (σ : Channel → Channel) : Prop :=
  ∀ (ctx : Context) (s : Place), r.holds ctx (s.relabelled σ) = r.holds ctx s

/-- A rule that does not read channels cannot tell them apart. -/
theorem DependsOn.blindTo {r : EncodingRule} {ps : List Property} (h : r.DependsOn ps)
    (hps : .channel ∉ ps) (σ : Channel → Channel) : r.BlindTo σ :=
  fun ctx s => h ctx _ _ (s.encoding.agree_relabelled σ hps) rfl

theorem BlindTo.check_eq {r : EncodingRule} {σ : Channel → Channel} (h : r.BlindTo σ) (ctx : Context)
    (s : Place) : r.check ctx (s.relabelled σ) = r.check ctx s := by
  have hopen : Judged.isOpen (s.relabelled σ) = Judged.isOpen s :=
    funext (s.encoding.isOpen_relabelled σ)
  unfold Rule.check Rule.waits
  rw [hopen, h ctx s]

/-- A rule that tests fields is blind if its test is. -/
theorem onField_blindTo {σ : Channel → Channel} {test : FieldEncoding → Bool}
    (h : ∀ q, test (q.relabelled σ) = test q) (ctx : Context) (s : Place) :
    onField test ctx (s.relabelled σ) = onField test ctx s := by
  simp [onField, Place.relabelled, Option.all_map, h]

theorem withinCeiling_relabelled (σ : Channel → Channel) (ctx : Context) (s : Place)
    (ceiling : Option Nat) : withinCeiling ctx (s.relabelled σ) ceiling = withinCeiling ctx s ceiling := by
  have h : (s.relabelled σ).encoding.Agree [.field, .bin, .maxBins, .timeUnit] s.encoding :=
    s.encoding.agree_relabelled σ (by decide)
  exact withinCeiling_congr h (by decide) (by decide) (by decide) (by decide) ctx ceiling

variable {σ : Equiv.Perm Channel} (hσ : Channel.KeepsPlaces σ)
include hσ

theorem channelSupportsRole_blindTo : channelSupportsRole.BlindTo σ := by
  intro ctx s
  have hsupports (c : Channel) : (σ c).supportsMeasure = c.supportsMeasure :=
    hσ.apply_eq (f := Channel.supportsMeasure) rfl rfl c
  simp only [channelSupportsRole, Place.relabelled, Encoding.channel?_relabelled]
  cases s.encoding.channel? with
  | none => rfl
  | some c =>
    cases s.encoding with
    | value => rfl
    | autoCount => simp only [Option.map_some, Encoding.relabelled, hsupports]
    | field =>
      simp only [Option.map_some, Encoding.relabelled, hsupports]
      rfl

theorem scalePropertiesSupportedByScaleType_blindTo : scalePropertiesSupportedByScaleType.BlindTo σ :=
  onField_blindTo fun q => by
    rw [FieldEncoding.scaleOn?_relabelled, FieldEncoding.scaleType?_relabelled hσ]

theorem scalePropertiesSupportedByChannel_blindTo : scalePropertiesSupportedByChannel.BlindTo σ := by
  have hscale (c : Channel) : (σ c).supportsScale = c.supportsScale :=
    hσ.apply_eq (f := Channel.supportsScale) rfl rfl c
  have hpart (c : Channel) : (σ c).supportsScaleProperty = c.supportsScaleProperty :=
    hσ.apply_eq (f := Channel.supportsScaleProperty) (funext fun p => by cases p <;> rfl)
      (funext fun p => by cases p <;> rfl) c
  refine onField_blindTo fun q => ?_
  rw [FieldEncoding.channel_relabelled, Slot.value?_mapFixed, FieldEncoding.scaleOn?_relabelled]
  cases q.channel.value? <;> cases q.scaleOn? <;> simp only [Option.map_some, Option.map_none, hscale, hpart]

theorem maxCardinalityForCategoricalColor_blindTo : maxCardinalityForCategoricalColor.BlindTo σ := by
  intro ctx s
  have hcolor := s.encoding.channel_is_relabelled σ.injective .color
  rw [hσ.others .color rfl rfl] at hcolor
  simp only [maxCardinalityForCategoricalColor, withinCeiling_relabelled]
  simp only [Place.relabelled, hcolor, Encoding.field?_relabelled, Option.any_map,
    FieldEncoding.type_relabelled]

theorem maxCardinalityForFacet_blindTo : maxCardinalityForFacet.BlindTo σ := by
  intro ctx s
  simp only [maxCardinalityForFacet, withinCeiling_relabelled]
  simp only [Place.relabelled, Encoding.channel?_relabelled, Option.any_map, hσ.facets]

theorem maxCardinalityForShape_blindTo : maxCardinalityForShape.BlindTo σ := by
  intro ctx s
  have hshape := s.encoding.channel_is_relabelled σ.injective .shape
  rw [hσ.others .shape rfl rfl] at hshape
  simp only [maxCardinalityForShape, withinCeiling_relabelled]
  simp only [Place.relabelled, hshape]

theorem dataTypeAndFunctionMatchScaleType_blindTo : dataTypeAndFunctionMatchScaleType.BlindTo σ :=
  onField_blindTo fun q => by
    rw [FieldEncoding.scaleOn?_relabelled, FieldEncoding.scaleType?_relabelled hσ]
    rfl

/-- The rules about encodings are blind to a permutation of the axes and of the facets. -/
theorem blindTo_of_mem {r : EncodingRule} (h : r ∈ all) : r.BlindTo σ := by
  simp only [all, List.mem_cons, List.not_mem_nil, or_false] at h
  rcases h with rfl | rfl | rfl | rfl | rfl | rfl | rfl | rfl | rfl | rfl | rfl | rfl | rfl | rfl | rfl |
    rfl | rfl | rfl
  · exact aggregateOpSupportedByType_dependsOn.blindTo (by decide) σ
  · exact asteriskFieldWithCountOnly_dependsOn.blindTo (by decide) σ
  · exact minCardinalityForBin_dependsOn.blindTo (by decide) σ
  · exact binAppliedForQuantitative_dependsOn.blindTo (by decide) σ
  · exact channelSupportsRole_blindTo hσ
  · exact hasFn_dependsOn.blindTo (by decide) σ
  · exact omitScaleZeroWithBinnedField_dependsOn.blindTo (by decide) σ
  · exact onlyOneTypeOfFunction_dependsOn.blindTo (by decide) σ
  · exact timeUnitAppliedForTemporal_dependsOn.blindTo (by decide) σ
  · exact scalePropertiesSupportedByScaleType_blindTo hσ
  · exact scalePropertiesSupportedByChannel_blindTo hσ
  · exact typeMatchesPrimitiveType_dependsOn.blindTo (by decide) σ
  · exact typeMatchesSchemaType_dependsOn.blindTo (by decide) σ
  · exact maxCardinalityForCategoricalColor_blindTo hσ
  · exact maxCardinalityForFacet_blindTo hσ
  · exact maxCardinalityForShape_blindTo hσ
  · exact dataTypeAndFunctionMatchScaleType_blindTo hσ
  · exact omitBinWithLogScale_dependsOn.blindTo (by decide) σ

end EncodingRule

/-! ## The two swaps -/

/-- What a chart is turned about: its axes trade places, or its facets do. -/
inductive Transposition
  | axes | facets

namespace Transposition

/-- Where the channels go. -/
def perm : Transposition → Equiv.Perm Channel
  | axes => Equiv.swap .x .y
  | facets => Equiv.swap .row .column

theorem keepsPlaces (t : Transposition) : Channel.KeepsPlaces t.perm := by
  constructor <;> intro c <;> cases t <;> cases c <;> decide

end Transposition

/-- The stack of the transposed chart: it lies along the other axis if the axes trade places. -/
def Stack.transposed (t : Transposition) (s : Stack) : Stack :=
  match t with
  | .axes =>
    { s with
      groupbyChannel := s.groupbyChannel.map (Equiv.swap .x .y)
      fieldChannel := Equiv.swap .x .y s.fieldChannel }
  | .facets => s

/-- The draft with its fixed channels, and its counter, transposed. -/
def Draft.transposed (t : Transposition) (d : Draft) : Draft := d.relabelled t.perm

namespace ChartQuery

/-- Values accumulate along an axis, in groups along the other one if there is one. -/
theorem isPositional_of_stack? {q : ChartQuery} {s : Stack} (h : q.stack? = some s) :
    (∀ c, s.groupbyChannel = some c → c.isPositional = true) ∧ s.fieldChannel.isPositional = true := by
  rw [stack?_eq] at h
  split at h
  · split at h
    · obtain ⟨i, -, rfl⟩ := Option.map_eq_some_iff.mp h
      refine ⟨fun c hc => ?_, q.isPositional_stackAxis⟩
      simp only at hc
      split at hc <;> obtain ⟨-, -, rfl⟩ := Option.map_eq_some_iff.mp hc <;> rfl
    · contradiction
  · contradiction

/-- A transposed query stacks along the other axis; where the axes stay, the stack stays. -/
theorem stack?_transposed (t : Transposition) (q : ChartQuery) :
    (q.relabelled t.perm).stack? = q.stack?.map (Stack.transposed t) := by
  rw [stack?_relabelled t.keepsPlaces]
  cases t with
  | axes => rfl
  | facets =>
    have hkeep (c : Channel) (hc : c.isPositional = true) : Transposition.facets.perm c = c := by
      cases c <;> first | contradiction | decide
    refine Option.map_congr fun s hs => ?_
    obtain ⟨hgroup, hfield⟩ := isPositional_of_stack? hs
    have hmap : s.groupbyChannel.map Transposition.facets.perm = s.groupbyChannel := by
      cases hg : s.groupbyChannel with
      | none => rfl
      | some c => exact congrArg some (hkeep c (hgroup c hg))
    simp only [Stack.relabelled, Stack.transposed, hmap, hkeep _ hfield]

end ChartQuery

namespace Draft

/-- The rule that goes by an axis omits a transposed plot for an encoding that was on x. -/
theorem omitVerticalDotPlot_transposed (ctx : Context) (d : Draft) :
    ChartRule.omitVerticalDotPlot.check ctx (d.transposed .axes) =
      .ok (match d.active with
        | [e] => !e.channel.is .x
        | _ => true) := by
  show Except.ok (match (d.transposed .axes).active with
    | [e] => !e.channel.is .y
    | _ => true) = _
  rw [transposed, active_relabelled]
  rcases d.active with _ | ⟨e, _ | ⟨e', rest⟩⟩
  · rfl
  · have he := e.channel_is_relabelled Transposition.axes.perm.injective .x
    simp only [List.map_cons, List.map_nil, ← he]
    rfl
  · rfl

/-- Whatever is open in a draft, the draft transposed gets the same verdict of every rule about
encodings, on each encoding, and of every rule about charts but one when the axes trade places; and it
stacks as the draft does, along the other axis when the axes trade places. Its counters are those of its own
encodings if the draft's are. -/
theorem verdicts_transposed (t : Transposition) (ctx : Context) (d : Draft) :
    (∀ r ∈ EncodingRule.all, ∀ i,
      ((d.transposed t).encoding? i).map (fun e => r.check ctx ((d.transposed t).place i e)) =
        (d.encoding? i).map fun e => r.check ctx (d.place i e)) ∧
    (∀ r ∈ ChartRule.all, (t = .axes → r.name ≠ "omitVerticalDotPlot") →
      r.check ctx (d.transposed t) = r.check ctx d) ∧
    (d.transposed t).query.stack? = d.query.stack?.map (Stack.transposed t) ∧
    ((∀ c, d.channelCount.get c = occupancy d.query.encodings c) →
      ∀ c, (d.transposed t).channelCount.get c = occupancy (d.transposed t).query.encodings c) := by
  refine ⟨fun r hr i => ?_, fun r hr hname => ?_, ChartQuery.stack?_transposed t d.query,
    fun counts => counts_relabelled counts t.perm⟩
  · rw [transposed, encoding?_relabelled, Option.map_map]
    refine congrArg (Option.map · _) (funext fun e => ?_)
    exact (EncodingRule.blindTo_of_mem t.keepsPlaces hr).check_eq ctx (d.place i e)
  · refine (ChartRule.blindTo_of_mem t.keepsPlaces hr fun hdot => ?_).check_eq ctx d
    cases t with
    | axes => exact absurd hdot (hname rfl)
    | facets => decide

end Draft
end ChartAdvisor
