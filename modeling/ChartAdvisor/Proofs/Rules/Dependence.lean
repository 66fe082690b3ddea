import ChartAdvisor.Proofs.Draft.Outline
import ChartAdvisor.Proofs.Rules.Agreement

/-!
# What each rule depends on

A rule gives the same verdict on drafts that agree on the properties it reads. Most rules read
no more than the properties they are about. Rules about channels also ask whether a count of
rows plays a part, and a few rules read the scale type in effect or how many values a field
takes, which further slots have a say in.
-/
namespace ChartAdvisor

/-! ## Drafts -/

/-- Two drafts in whose encodings the slots of some properties stand alike. -/
structure Draft.Agree (ps : List Property) (d d' : Draft) : Prop where
  outline : d.slots.outline = d'.slots.outline
  config : d.query.config = d'.query.config
  mark : .mark ∈ ps → Standing.ofSlot d.query.mark = Standing.ofSlot d'.query.mark
  encodings : List.Forall₂ (Encoding.Agree ps) d.query.encodings d'.query.encodings
  used : .channel ∈ ps → .autoCount ∈ ps → ∀ c, d.channelUsed c = d'.channelUsed c

namespace Draft.Agree

variable {ps : List Property} {d d' : Draft}

theorem refl (ps : List Property) (d : Draft) : d.Agree ps d where
  outline := rfl
  config := rfl
  mark _ := rfl
  encodings := List.forall₂_same.mpr fun e _ => .refl ps e
  used _ _ _ := rfl

theorem mono {qs : List Property} (h : d.Agree ps d') (hqs : ∀ p ∈ qs, p ∈ ps) :
    d.Agree qs d' where
  outline := h.outline
  config := h.config
  mark hm := h.mark (hqs _ hm)
  encodings := h.encodings.imp fun _ _ he => he.mono hqs
  used hc hb := h.used (hqs _ hc) (hqs _ hb)

theorem symm (h : d.Agree ps d') : d'.Agree ps d where
  outline := h.outline.symm
  config := h.config.symm
  mark hm := (h.mark hm).symm
  encodings := h.encodings.flip.imp fun _ _ he => ⟨he.kind.symm, fun p hp => (he.standing p hp).symm⟩
  used hc hb c := (h.used hc hb c).symm

theorem trans {d'' : Draft} (h : d.Agree ps d') (h' : d'.Agree ps d'') : d.Agree ps d'' where
  outline := h.outline.trans h'.outline
  config := h.config.trans h'.config
  mark hm := (h.mark hm).trans (h'.mark hm)
  encodings := forall₂_trans (R := Encoding.Agree ps)
    (fun h h' => ⟨h.kind.trans h'.kind, fun p hp => (h.standing p hp).trans (h'.standing p hp)⟩)
    h.encodings h'.encodings
  used hc hb c := (h.used hc hb c).trans (h'.used hc hb c)

/-- Coherent drafts with encodings that agree use the same channels. -/
theorem of_encodings (hd : d.Coherent) (hd' : d'.Coherent)
    (houtline : d.slots.outline = d'.slots.outline)
    (hconfig : d.query.config = d'.query.config)
    (hmark : .mark ∈ ps → Standing.ofSlot d.query.mark = Standing.ofSlot d'.query.mark)
    (hes : List.Forall₂ (Encoding.Agree ps) d.query.encodings d'.query.encodings) :
    d.Agree ps d' where
  outline := houtline
  config := hconfig
  mark := hmark
  encodings := hes
  used hc hb c := by
    have hmap : d.query.encodings.filterMap Encoding.countedChannel? =
        d'.query.encodings.filterMap Encoding.countedChannel? :=
      filterMap_eq_of_forall₂ hes fun _ _ he => he.countedChannel? hc hb
    have hcount : d.channelCount.get c = d'.channelCount.get c := by
      rw [hd.counts, hd'.counts, occupancy_eq_count, occupancy_eq_count, hmap]
    unfold channelUsed
    rw [hcount]

theorem mark_value? (h : d.Agree ps d') (hm : .mark ∈ ps) :
    d.query.mark.value? = d'.query.mark.value? := by
  rw [Slot.value?_eq, Slot.value?_eq, h.mark hm]

theorem mark_is (h : d.Agree ps d') (hm : .mark ∈ ps) (m : Mark) :
    d.query.mark.is m = d'.query.mark.is m := by
  rw [Slot.is_eq, Slot.is_eq, h.mark hm]

theorem active (h : d.Agree ps d') (hb : .autoCount ∈ ps) :
    List.Forall₂ (Encoding.Agree ps) d.active d'.active :=
  filter_rel_of_forall₂ h.encodings fun _ _ he => by rw [he.isDisabledAutoCount hb]

/-- A count of rows that is switched off is no field, so it does not matter for the fields. -/
theorem filterMap_field?_active (d : Draft) :
    d.active.filterMap Encoding.field? = d.query.encodings.filterMap Encoding.field? := by
  unfold Draft.active ChartQuery.active
  rw [List.filterMap_filter]
  refine congrArg (List.filterMap · _) (funext fun e => ?_)
  cases e with
  | field q => rfl
  | value c v => rfl
  | autoCount c b => split <;> rfl

theorem fields (h : d.Agree ps d') :
    List.Forall₂ (FieldEncoding.Agree ps) (ChartRule.fields d) (ChartRule.fields d') := by
  unfold ChartRule.fields
  rw [filterMap_field?_active, filterMap_field?_active]
  have he := h.encodings
  generalize d.query.encodings = es, d'.query.encodings = fs at he
  induction he with
  | nil => exact .nil
  | cons hab _ ih =>
    rcases hab.field_cases with ⟨q, r, rfl, rfl, hqr⟩ | ⟨ha, hb⟩
    · exact .cons hqr ih
    · rwa [List.filterMap_cons, List.filterMap_cons, ha, hb]

/-- A test of fields that says the same of fields that agree. -/
theorem fields_any (h : d.Agree ps d') {test test' : FieldEncoding → Bool}
    (ht : ∀ q r, q.Agree ps r → test q = test' r) :
    (ChartRule.fields d).any test = (ChartRule.fields d').any test' :=
  any_eq_of_forall₂ h.fields ht

theorem fields_all (h : d.Agree ps d') {test test' : FieldEncoding → Bool}
    (ht : ∀ q r, q.Agree ps r → test q = test' r) :
    (ChartRule.fields d).all test = (ChartRule.fields d').all test' :=
  all_eq_of_forall₂ h.fields ht

theorem channels (h : d.Agree ps d') (hc : .channel ∈ ps) (hb : .autoCount ∈ ps) :
    ChartRule.channels d = ChartRule.channels d' :=
  filterMap_eq_of_forall₂ (h.active hb) fun _ _ he => he.channel? hc

theorem isAggregate (h : d.Agree ps d') (ha : .aggregate ∈ ps) (hb : .autoCount ∈ ps) :
    d.isAggregate = d'.isAggregate :=
  any_eq_of_forall₂ h.encodings fun _ _ he => he.isAggregate ha hb

theorem onChannel? (h : d.Agree ps d') (hc : .channel ∈ ps) (hb : .autoCount ∈ ps) (c : Channel) :
    Option.Rel (Encoding.Agree ps) (d.onChannel? c) (d'.onChannel? c) :=
  find?_rel_of_forall₂ (h.active hb) fun _ _ he => he.channel_is hc c

theorem encoding? (h : d.Agree ps d') (i : Nat) :
    Option.Rel (Encoding.Agree ps) (d.encoding? i) (d'.encoding? i) :=
  getElem?_rel_of_forall₂ h.encodings i

theorem isOpen (h : d.Agree ps d') (hb : .autoCount ∈ ps) {p : Property} (hp : p ∈ ps) :
    Judged.isOpen d p = Judged.isOpen d' p := by
  show (if p = .mark then d.query.mark.isOpen else d.active.any (·.isOpen p)) =
    (if p = .mark then d'.query.mark.isOpen else d'.active.any (·.isOpen p))
  split
  · next hm =>
    have hs := h.mark (hm ▸ hp)
    rw [Bool.eq_iff_iff, ← Slot.standing_eq_undecided_iff, ← Slot.standing_eq_undecided_iff, hs]
  · exact any_eq_of_forall₂ (h.active hb) fun _ _ he => he.isOpen hp

theorem isDimension (h : d.Agree ps d') (hc : .channel ∈ ps) (ht : .type ∈ ps) (hb : .bin ∈ ps)
    (hu : .timeUnit ∈ ps) (hn : .autoCount ∈ ps) (c : Channel) :
    d.isDimension c = d'.isDimension c :=
  any_eq_of_rel (h.onChannel? hc hn c) fun _ _ he => he.isDimension ht hb hu

theorem isMeasure (h : d.Agree ps d') (hc : .channel ∈ ps) (ht : .type ∈ ps) (hb : .bin ∈ ps)
    (hu : .timeUnit ∈ ps) (hn : .autoCount ∈ ps) (c : Channel) : d.isMeasure c = d'.isMeasure c :=
  any_eq_of_rel (h.onChannel? hc hn c) fun _ _ he => he.isMeasure ht hb hu

theorem stack? (h : d.Agree ps d') (hm : .mark ∈ ps) (hc : .channel ∈ ps) (ha : .aggregate ∈ ps)
    (hb : .autoCount ∈ ps) : d.query.stack? = d'.query.stack? := by
  have hpos (c : Channel) : d.query.position? c = d'.query.position? c :=
    findIdx?_eq_of_forall₂ h.encodings fun _ _ he => he.channel_is hc c
  have hagg (c : Channel) : d.query.aggregatesOn c = d'.query.aggregatesOn c :=
    any_eq_of_rel (find?_rel_of_forall₂ h.encodings fun _ _ he => he.channel_is hc c)
      fun _ _ he => he.mayAggregate ha hb
  have hby : d.query.encodings.filterMap ChartQuery.stackGroup? =
      d'.query.encodings.filterMap ChartQuery.stackGroup? :=
    filterMap_eq_of_forall₂ h.encodings fun _ _ he => he.stackGroup? hc ha
  have hoff : d.query.stackOffset = d'.query.stackOffset := by
    unfold ChartQuery.stackOffset
    rw [h.config]
  have his : d.query.isAggregate = d'.query.isAggregate := h.isAggregate ha hb
  simp only [ChartQuery.stack?, hoff, h.mark_value? hm, his, hby, hpos, hagg]

end Draft.Agree
/-! ## Rules about charts -/

namespace ChartRule

/-- The verdict of a rule depends on nothing but the slots of some properties. -/
def DependsOn (r : ChartRule) (ps : List Property) : Prop :=
  ∀ (ctx : Context) (d d' : Draft), d.Agree ps d' → r.holds ctx d = r.holds ctx d'

theorem DependsOn.mono {r : ChartRule} {ps qs : List Property} (h : r.DependsOn ps)
    (hps : ∀ p ∈ ps, p ∈ qs) : r.DependsOn qs := fun ctx d d' hd => h ctx d d' (hd.mono hps)

theorem onAxis_congr {ps : List Property} {q r : FieldEncoding} (h : q.Agree ps r)
    (hc : .channel ∈ ps) : onAxis q = onAxis r := by
  rw [onAxis, onAxis, FieldEncoding.channel_congr h hc]

theorem noRepeatedChannel_dependsOn : noRepeatedChannel.DependsOn [.autoCount, .channel] := by
  intro ctx d d' h
  simp only [noRepeatedChannel, onDraft, h.channels (by decide) (by decide)]

theorem alwaysIncludeZeroInScaleWithBarMark_dependsOn :
    alwaysIncludeZeroInScaleWithBarMark.DependsOn [.mark, .scaleOf .zero, .channel, .type] := by
  intro ctx d d' h
  have hf : ((fields d).any fun q => onAxis q && q.type.is .quantitative &&
      (q.scale?.bind Scale.zero).any (·.is false)) = (fields d').any fun q => onAxis q &&
      q.type.is .quantitative && (q.scale?.bind Scale.zero).any (·.is false) := by
    refine h.fields_any fun q r hqr => ?_
    rw [onAxis_congr hqr (by decide), FieldEncoding.type_is_congr hqr (by decide),
      FieldEncoding.zero_is_eq, FieldEncoding.zero_is_eq, hqr _ (by decide)]
  simp only [alwaysIncludeZeroInScaleWithBarMark, onDraft, h.mark_is (by decide), hf]

theorem autoAddCount_dependsOn :
    autoAddCount.DependsOn [.autoCount, .bin, .timeUnit, .type] := by
  intro ctx d d' h
  have ha := h.active (by decide)
  have hen := any_eq_of_forall₂ ha fun _ _ he => he.isEnabledAutoCount (by decide)
  have hmay := all_eq_of_forall₂ ha fun _ _ he =>
    he.mayBeDiscrete (by decide) (by decide) (by decide)
  have hraw := any_eq_of_forall₂ ha fun _ _ he =>
    he.isRawContinuous (by decide) (by decide) (by decide)
  have hopen (i : Nat) : (d.encoding? i).any (·.isOpen .autoCount) =
      (d'.encoding? i).any (·.isOpen .autoCount) :=
    any_eq_of_rel (h.encoding? i) fun _ _ he => he.isOpen (by decide)
  simp only [autoAddCount, onDraft, hen, hmay, hraw, hopen, SlotIndex.indices_congr h.outline]

theorem channelPermittedByMarkType_dependsOn :
    channelPermittedByMarkType.DependsOn [.autoCount, .channel, .mark] := by
  intro ctx d d' h
  simp only [channelPermittedByMarkType, onDraft, h.mark_value? (by decide),
    h.channels (by decide) (by decide)]

theorem usesBothAxes_congr {ps : List Property} {d d' : Draft} (h : d.Agree ps d')
    (hc : .channel ∈ ps) (hb : .autoCount ∈ ps) : usesBothAxes d = usesBothAxes d' := by
  rw [usesBothAxes, usesBothAxes, h.used hc hb, h.used hc hb]

theorem usesAnAxis_congr {ps : List Property} {d d' : Draft} (h : d.Agree ps d')
    (hc : .channel ∈ ps) (hb : .autoCount ∈ ps) : usesAnAxis d = usesAnAxis d' := by
  rw [usesAnAxis, usesAnAxis, h.used hc hb, h.used hc hb]

theorem hasAllRequiredChannelsForMark_dependsOn :
    hasAllRequiredChannelsForMark.DependsOn [.autoCount, .channel, .mark] := by
  intro ctx d d' h
  simp only [hasAllRequiredChannelsForMark, h.mark_value? (by decide), SlotIndex.has_congr h.outline,
    usesBothAxes_congr h (by decide) (by decide), usesAnAxis_congr h (by decide) (by decide),
    h.used (by decide) (by decide)]

theorem omitAggregate_dependsOn : omitAggregate.DependsOn [.aggregate, .autoCount] := by
  intro ctx d d' h
  simp only [omitAggregate, onDraft, h.isAggregate (by decide) (by decide)]

theorem omitAggregatePlotWithDimensionOnlyOnFacet_dependsOn :
    omitAggregatePlotWithDimensionOnlyOnFacet.DependsOn [.channel, .aggregate, .autoCount] := by
  intro ctx d d' h
  have hg : List.Forall₂ (FieldEncoding.Agree [.channel, .aggregate, .autoCount])
      ((fields d).filter fun q => q.aggregate?.isNone)
      ((fields d').filter fun q => q.aggregate?.isNone) :=
    filter_rel_of_forall₂ h.fields fun q r hqr => by
      rw [FieldEncoding.aggregate?_congr hqr (by decide)]
  have hempty : ((fields d).filter fun q => q.aggregate?.isNone).isEmpty =
      ((fields d').filter fun q => q.aggregate?.isNone).isEmpty := by
    rw [Bool.eq_iff_iff, List.isEmpty_iff_length_eq_zero, List.isEmpty_iff_length_eq_zero,
      hg.length_eq]
  have hany : (((fields d).filter fun q => q.aggregate?.isNone).any fun q =>
      !q.channel.value?.any Channel.isFacet) =
      ((fields d').filter fun q => q.aggregate?.isNone).any fun q =>
      !q.channel.value?.any Channel.isFacet :=
    any_eq_of_forall₂ hg fun q r hqr => by rw [FieldEncoding.channel_congr hqr (by decide)]
  simp only [omitAggregatePlotWithDimensionOnlyOnFacet, onDraft,
    h.isAggregate (by decide) (by decide), hempty, hany]

theorem omitAggregatePlotWithoutDimension_dependsOn :
    omitAggregatePlotWithoutDimension.DependsOn
      [.aggregate, .autoCount, .bin, .timeUnit, .type] := by
  intro ctx d d' h
  have hdim := any_eq_of_forall₂ (h.active (by decide)) fun _ _ he =>
    he.isDimension (by decide) (by decide) (by decide)
  simp only [omitAggregatePlotWithoutDimension, onDraft, h.isAggregate (by decide) (by decide),
    hdim]

theorem omitBarLineAreaWithOcclusion_dependsOn :
    omitBarLineAreaWithOcclusion.DependsOn [.mark, .aggregate, .autoCount] := by
  intro ctx d d' h
  simp only [omitBarLineAreaWithOcclusion, onDraft, h.mark_value? (by decide),
    h.isAggregate (by decide) (by decide)]

theorem omitBarTickWithSize_dependsOn :
    omitBarTickWithSize.DependsOn [.autoCount, .channel, .mark] := by
  intro ctx d d' h
  simp only [omitBarTickWithSize, onDraft, h.mark_value? (by decide),
    h.used (by decide) (by decide)]

theorem omitBarAreaForLogScale_dependsOn : omitBarAreaForLogScale.DependsOn
    [.mark, .channel, .scale, .scaleOf .type, .type, .bin, .timeUnit] := by
  intro ctx d d' h
  have hf : ((fields d).any fun q => onAxis q && q.scale?.isSome && q.scaleType? == some .log) =
      (fields d').any fun q => onAxis q && q.scale?.isSome && q.scaleType? == some .log := by
    refine h.fields_any fun q r hqr => ?_
    rw [onAxis_congr hqr (by decide), FieldEncoding.scale?_isSome_eq,
      FieldEncoding.scale?_isSome_eq, hqr _ (by decide),
      FieldEncoding.scaleType?_agree hqr (by decide)]
  simp only [omitBarAreaForLogScale, onDraft, h.mark_value? (by decide), hf]

theorem omitFacetOverPositionalChannels_dependsOn :
    omitFacetOverPositionalChannels.DependsOn [.autoCount, .channel] := by
  intro ctx d d' h
  simp only [omitFacetOverPositionalChannels, onDraft, h.used (by decide) (by decide),
    usesBothAxes_congr h (by decide) (by decide)]

theorem omitMultipleNonPositionalChannels_dependsOn :
    omitMultipleNonPositionalChannels.DependsOn [.autoCount, .channel] := by
  intro ctx d d' h
  simp only [omitMultipleNonPositionalChannels, onDraft, h.channels (by decide) (by decide)]

theorem omitNonPositionalOverPositionalChannels_dependsOn :
    omitNonPositionalOverPositionalChannels.DependsOn [.autoCount, .channel] := by
  intro ctx d d' h
  have hused : d.channelUsed = d'.channelUsed := funext (h.used (by decide) (by decide))
  simp only [omitNonPositionalOverPositionalChannels, onDraft, hused,
    usesBothAxes_congr h (by decide) (by decide)]

theorem omitRaw_dependsOn : omitRaw.DependsOn [.aggregate, .autoCount] := by
  intro ctx d d' h
  simp only [omitRaw, onDraft, h.isAggregate (by decide) (by decide)]

theorem omitRawContinuousFieldForAggregatePlot_dependsOn :
    omitRawContinuousFieldForAggregatePlot.DependsOn
      [.aggregate, .autoCount, .timeUnit, .bin, .type] := by
  intro ctx d d' h
  simp only [omitRawContinuousFieldForAggregatePlot, onDraft,
    h.isAggregate (by decide) (by decide)]
  refine congrArg (fun b => Except.ok (!d'.isAggregate || b)) (h.fields_all fun q r hqr => ?_)
  simp only [FieldEncoding.type_congr hqr (by decide),
    FieldEncoding.mayHaveTimeUnit_congr hqr (by decide),
    FieldEncoding.binIsPresent_congr hqr (by decide),
    FieldEncoding.mayAggregate_congr hqr (by decide)]

theorem omitRawDetail_dependsOn : omitRawDetail.DependsOn [.channel, .aggregate, .autoCount] := by
  intro ctx d d' h
  simp only [omitRawDetail, onDraft, h.isAggregate (by decide) (by decide),
    h.used (by decide) (by decide)]

theorem omitRepeatedField_dependsOn : omitRepeatedField.DependsOn [.field] := by
  intro ctx d d' h
  have hf : ((fields d).filterMap fun q => q.field.value?) =
      (fields d').filterMap fun q => q.field.value? :=
    filterMap_eq_of_forall₂ h.fields fun q r hqr => FieldEncoding.field_congr hqr (by decide)
  simp only [omitRepeatedField, onDraft, hf]

theorem omitVerticalDotPlot_dependsOn : omitVerticalDotPlot.DependsOn [.autoCount, .channel] := by
  intro ctx d d' h
  have ha := h.active (by decide)
  simp only [omitVerticalDotPlot, onDraft]
  generalize d.active = es, d'.active = fs at ha
  cases ha with
  | nil => rfl
  | cons he hrest =>
    cases hrest with
    | nil => simp only [he.channel_is (by decide)]
    | cons _ _ => rfl

theorem hasAppropriateGraphicTypeForMark_dependsOn :
    hasAppropriateGraphicTypeForMark.DependsOn
      [.channel, .mark, .type, .timeUnit, .bin, .aggregate, .autoCount] := by
  intro ctx d d' h
  have hx := h.onChannel? (by decide) (by decide) .x
  have hy := h.onChannel? (by decide) (by decide) .y
  simp only [hasAppropriateGraphicTypeForMark, h.mark_value? (by decide),
    h.isAggregate (by decide) (by decide), h.used (by decide) (by decide),
    h.isMeasure (by decide) (by decide) (by decide) (by decide) (by decide)]
  generalize d.onChannel? .x = x, d'.onChannel? .x = x' at hx
  generalize d.onChannel? .y = y, d'.onChannel? .y = y' at hy
  cases hx with
  | none => cases hy <;> rfl
  | some hex =>
    cases hy with
    | none => rfl
    | some hey =>
      simp only [hex.isMeasure (by decide) (by decide) (by decide),
        hey.isMeasure (by decide) (by decide) (by decide),
        hex.isNominalDimension (by decide) (by decide) (by decide),
        hey.isNominalDimension (by decide) (by decide) (by decide)]

theorem omitNonLinearScaleTypeWithStack_dependsOn :
    omitNonLinearScaleTypeWithStack.DependsOn
      [.channel, .mark, .aggregate, .autoCount, .scaleOf .type, .type, .bin, .timeUnit] := by
  intro ctx d d' h
  have hf : ((fields d).any fun q => q.aggregate?.isSome && q.type.is .quantitative &&
      onAxis q && q.scaleType?.any (· != .linear)) = (fields d').any fun q =>
      q.aggregate?.isSome && q.type.is .quantitative && onAxis q &&
      q.scaleType?.any (· != .linear) := by
    refine h.fields_any fun q r hqr => ?_
    rw [FieldEncoding.aggregate?_congr hqr (by decide), FieldEncoding.type_is_congr hqr (by decide),
      onAxis_congr hqr (by decide), FieldEncoding.scaleType?_agree hqr (by decide)]
  simp only [omitNonLinearScaleTypeWithStack, onDraft, hf,
    h.stack? (by decide) (by decide) (by decide) (by decide)]

theorem omitNonSumStack_dependsOn :
    omitNonSumStack.DependsOn [.channel, .mark, .aggregate, .autoCount] := by
  intro ctx d d' h
  simp only [omitNonSumStack, onDraft, h.stack? (by decide) (by decide) (by decide) (by decide)]
  refine congrArg (fun f => Except.ok (d'.query.stack?.all f)) (funext fun stack => ?_)
  have hi := h.encoding? stack.fieldIndex
  generalize d.encoding? stack.fieldIndex = a, d'.encoding? stack.fieldIndex = b at hi
  cases hi with
  | none => rfl
  | @some e f he =>
    have hen := he.isEnabledAutoCount (by decide)
    obtain ⟨hk, hs⟩ := he
    cases e <;> cases f <;> first | contradiction | skip
    · simp only [FieldEncoding.aggregate?_congr hs (by decide)]
    · rfl
    · exact hen

theorem omitTableWithOcclusionIfAutoAddCount_dependsOn :
    omitTableWithOcclusionIfAutoAddCount.DependsOn
      [.channel, .type, .timeUnit, .bin, .aggregate, .autoCount] := by
  intro ctx d d' h
  simp only [omitTableWithOcclusionIfAutoAddCount, h.isAggregate (by decide) (by decide),
    h.isDimension (by decide) (by decide) (by decide) (by decide) (by decide)]

end ChartRule
/-! ## Rules about encodings -/

namespace EncodingRule

/-- The verdict of a rule depends on nothing but the slots of some properties. -/
def DependsOn (r : EncodingRule) (ps : List Property) : Prop :=
  ∀ (ctx : Context) (s s' : Place), s.encoding.Agree ps s'.encoding →
    s.slots.map Prod.fst = s'.slots.map Prod.fst → r.holds ctx s = r.holds ctx s'

theorem DependsOn.mono {r : EncodingRule} {ps qs : List Property} (h : r.DependsOn ps)
    (hps : ∀ p ∈ ps, p ∈ qs) : r.DependsOn qs :=
  fun ctx s s' hs hslots => h ctx s s' (hs.mono hps) hslots

/-- A rule that tests the field of an encoding depends on what the test depends on. -/
theorem onField_congr {ps : List Property} (ctx : Context) {s s' : Place}
    (h : s.encoding.Agree ps s'.encoding) {test test' : FieldEncoding → Bool}
    (ht : ∀ q r, q.Agree ps r → test q = test' r) : onField test ctx s = onField test' ctx s' :=
  congrArg Except.ok (h.field?_all ht)

/-- What the number of values of a field depends on. -/
theorem cardinality_congr {ps : List Property} {q r : FieldEncoding} (h : q.Agree ps r)
    (hf : .field ∈ ps) (hb : .bin ∈ ps) (hm : .maxBins ∈ ps) (hu : .timeUnit ∈ ps)
    (ctx : Context) : cardinality ctx q = cardinality ctx r := by
  rw [cardinality, cardinality, h.cardinality_eq hf hb hm hu ctx.schema]

theorem withinCeiling_congr {ps : List Property} {s s' : Place}
    (h : s.encoding.Agree ps s'.encoding) (hf : .field ∈ ps) (hb : .bin ∈ ps) (hm : .maxBins ∈ ps)
    (hu : .timeUnit ∈ ps) (ctx : Context) (ceiling : Option Nat) :
    withinCeiling ctx s ceiling = withinCeiling ctx s' ceiling := by
  unfold withinCeiling
  rcases h.field_cases with ⟨q, r, hq, hr, hqr⟩ | ⟨hq, hr⟩
  · rw [hq, hr]
    cases ceiling with
    | none => rfl
    | some n => simp only [Encoding.field?, cardinality_congr hqr hf hb hm hu ctx]
  · rw [hq, hr]

theorem setParts_congr {ps : List Property} {q r : FieldEncoding} (h : q.Agree ps r)
    (hp : ∀ part, .scaleOf part ∈ ps) {s t : Scale} (hs : q.scale? = some s)
    (ht : r.scale? = some t) : setParts s = setParts t := by
  unfold setParts
  refine congrArg (List.filter · _) (funext fun part => ?_)
  rw [q.has_part_eq hs, r.has_part_eq ht, h _ (hp part)]

theorem aggregateOpSupportedByType_dependsOn :
    aggregateOpSupportedByType.DependsOn [.aggregate, .type] := by
  intro ctx s s' h hs
  exact onField_congr ctx h fun q r hqr => by
    rw [FieldEncoding.aggregate?_congr hqr (by decide), FieldEncoding.type_congr hqr (by decide)]

theorem asteriskFieldWithCountOnly_dependsOn :
    asteriskFieldWithCountOnly.DependsOn [.field, .aggregate] := by
  intro ctx s s' h hs
  exact onField_congr ctx h fun q r hqr => by
    rw [FieldEncoding.aggregate?_congr hqr (by decide), FieldEncoding.field_is_eq,
      FieldEncoding.field_is_eq, hqr _ (by decide)]

theorem minCardinalityForBin_dependsOn :
    minCardinalityForBin.DependsOn [.bin, .field, .type] := by
  intro ctx s s' h hs
  simp only [minCardinalityForBin]
  rcases h.field_cases with ⟨q, r, hq, hr, hqr⟩ | ⟨hq, hr⟩
  · rw [hq, hr]
    -- Without its function a field is counted by its name alone.
    have hbare : FieldEncoding.Agree [.field, .bin, .maxBins, .timeUnit]
        { q with bin := none, aggregate := .fixed none, timeUnit := .fixed none }
        { r with bin := none, aggregate := .fixed none, timeUnit := .fixed none } := by
      intro p hp
      simp only [List.mem_cons, List.not_mem_nil, or_false] at hp
      rcases hp with rfl | rfl | rfl | rfl
      · exact hqr .field (by decide)
      · rfl
      · rfl
      · rfl
    have hraw := cardinality_congr hbare (by decide) (by decide) (by decide) (by decide) ctx
    simp only [Encoding.field?, FieldEncoding.isBinned_congr hqr (by decide),
      FieldEncoding.type_is_congr hqr (by decide), hraw]
  · rw [hq, hr]

theorem binAppliedForQuantitative_dependsOn :
    binAppliedForQuantitative.DependsOn [.type, .bin] := by
  intro ctx s s' h hs
  exact onField_congr ctx h fun q r hqr => by
    rw [FieldEncoding.isBinned_congr hqr (by decide), FieldEncoding.type_is_congr hqr (by decide)]

theorem roleIsOpen_congr {ps : List Property} {q r : FieldEncoding} (h : q.Agree ps r)
    (ht : .type ∈ ps) (hb : .bin ∈ ps) (hu : .timeUnit ∈ ps) : roleIsOpen q = roleIsOpen r := by
  simp only [roleIsOpen, FieldEncoding.type_congr h ht, FieldEncoding.binIsOpen_congr h hb,
    FieldEncoding.timeUnit_isOpen_congr h hu]

theorem channelSupportsRole_dependsOn :
    channelSupportsRole.DependsOn [.channel, .type, .bin, .timeUnit] := by
  intro ctx s s' h hs
  simp only [channelSupportsRole]
  have hc := h.channel? (by decide)
  have hd := h.isDimension (by decide) (by decide) (by decide)
  rw [hc]
  generalize s'.encoding.channel? = c
  generalize s.encoding = e, s'.encoding = f at h hd
  obtain ⟨hk, hst⟩ := h
  cases c with
  | none => rfl
  | some c =>
    cases e <;> cases f <;> first | contradiction | rfl | skip
    simp only [roleIsOpen_congr hst (by decide) (by decide) (by decide), hd]

theorem hasFn_dependsOn : hasFn.DependsOn [.hasFunction, .aggregate, .bin, .timeUnit] := by
  intro ctx s s' h hs
  exact onField_congr ctx h fun q r hqr => by
    rw [FieldEncoding.hasFunction_eq, FieldEncoding.hasFunction_eq, hqr _ (by decide),
      FieldEncoding.mayAggregate_congr hqr (by decide),
      FieldEncoding.binIsPresent_congr hqr (by decide),
      FieldEncoding.mayHaveTimeUnit_congr hqr (by decide)]

theorem omitScaleZeroWithBinnedField_dependsOn :
    omitScaleZeroWithBinnedField.DependsOn [.scale, .scaleOf .zero, .bin] := by
  intro ctx s s' h hs
  exact onField_congr ctx h fun q r hqr => by
    rw [FieldEncoding.isBinned_congr hqr (by decide), FieldEncoding.zeroOn_is_eq,
      FieldEncoding.zeroOn_is_eq, hqr .scale (by decide), hqr (.scaleOf .zero) (by decide)]

theorem onlyOneTypeOfFunction_dependsOn :
    onlyOneTypeOfFunction.DependsOn [.aggregate, .timeUnit, .bin] := by
  intro ctx s s' h hs
  exact onField_congr ctx h fun q r hqr => by
    rw [FieldEncoding.aggregate?_congr hqr (by decide), FieldEncoding.isBinned_congr hqr (by decide),
      FieldEncoding.timeUnit?_congr hqr (by decide)]

theorem timeUnitAppliedForTemporal_dependsOn :
    timeUnitAppliedForTemporal.DependsOn [.timeUnit, .type] := by
  intro ctx s s' h hs
  exact onField_congr ctx h fun q r hqr => by
    rw [FieldEncoding.timeUnit?_congr hqr (by decide), FieldEncoding.type_is_congr hqr (by decide)]

/-- Scales that are switched on in one of two fields that agree are so in both. -/
theorem scaleOn?_cases {ps : List Property} {q r : FieldEncoding} (h : q.Agree ps r)
    (hp : .scale ∈ ps) : (q.scaleOn? = none ∧ r.scaleOn? = none) ∨
      ∃ s t, q.scaleOn? = some s ∧ r.scaleOn? = some t := by
  have hs : q.scaleOn?.isSome = r.scaleOn?.isSome := by
    rw [FieldEncoding.scaleOn?_isSome_eq, FieldEncoding.scaleOn?_isSome_eq, h _ hp]
  cases hq : q.scaleOn? with
  | none => rw [hq] at hs; exact .inl ⟨rfl, by simpa using hs.symm⟩
  | some s =>
    rw [hq] at hs
    obtain ⟨t, ht⟩ := Option.isSome_iff_exists.mp hs.symm
    exact .inr ⟨s, t, rfl, ht⟩

theorem scalePropertiesSupportedByScaleType_dependsOn :
    scalePropertiesSupportedByScaleType.DependsOn
      ([.type, .channel, .bin, .timeUnit] ++ scaleProperties) := by
  intro ctx s s' h hs
  refine onField_congr ctx h fun q r hqr => ?_
  rw [FieldEncoding.scaleType?_agree hqr (by decide)]
  rcases scaleOn?_cases hqr (by decide) with ⟨hq, hr⟩ | ⟨sq, sr, hq, hr⟩
  · rw [hq, hr]
  · rw [hq, hr]
    cases r.scaleType? with
    | none => rfl
    | some t =>
      simp only [setParts_congr hqr (fun part => by cases part <;> decide)
        (q.scale?_of_scaleOn? hq) (r.scale?_of_scaleOn? hr)]

theorem scalePropertiesSupportedByChannel_dependsOn :
    scalePropertiesSupportedByChannel.DependsOn (.channel :: scaleProperties) := by
  intro ctx s s' h hs
  refine onField_congr ctx h fun q r hqr => ?_
  rw [FieldEncoding.channel_congr hqr (by decide)]
  rcases scaleOn?_cases hqr (by decide) with ⟨hq, hr⟩ | ⟨sq, sr, hq, hr⟩
  · rw [hq, hr]
  · rw [hq, hr]
    cases r.channel.value? with
    | none => rfl
    | some c =>
      simp only [setParts_congr hqr (fun part => by cases part <;> decide)
        (q.scale?_of_scaleOn? hq) (r.scale?_of_scaleOn? hr)]

theorem checksChoice_congr {ctx : Context} {s s' : Place}
    (h : s.slots.map Prod.fst = s'.slots.map Prod.fst) :
    checksChoice ctx s = checksChoice ctx s' := by
  have hany (p : Property) : s.slots.any (·.1 == p) = s'.slots.any (·.1 == p) := by
    have h' := congrArg (List.any · (· == p)) h
    simpa only [List.any_map, Function.comp_def] using h'
  rw [checksChoice, checksChoice, hany, hany]

theorem typeMatchesPrimitiveType_dependsOn :
    typeMatchesPrimitiveType.DependsOn [.field, .type] := by
  intro ctx s s' h hs
  refine onField_congr ctx h fun q r hqr => ?_
  rw [FieldEncoding.field_congr hqr (by decide), FieldEncoding.type_congr hqr (by decide),
    checksChoice_congr hs]

theorem typeMatchesSchemaType_dependsOn : typeMatchesSchemaType.DependsOn [.field, .type] := by
  intro ctx s s' h hs
  refine onField_congr ctx h fun q r hqr => ?_
  rw [FieldEncoding.field_congr hqr (by decide), FieldEncoding.type_congr hqr (by decide),
    checksChoice_congr hs]

theorem maxCardinalityForCategoricalColor_dependsOn :
    maxCardinalityForCategoricalColor.DependsOn
      [.channel, .field, .type, .bin, .maxBins, .timeUnit] := by
  intro ctx s s' h hs
  simp only [maxCardinalityForCategoricalColor, h.channel_is (by decide),
    h.field?_any fun q r hqr => FieldEncoding.type_is_congr hqr (by decide) .nominal,
    withinCeiling_congr h (by decide) (by decide) (by decide) (by decide)]

theorem maxCardinalityForFacet_dependsOn :
    maxCardinalityForFacet.DependsOn [.channel, .field, .bin, .maxBins, .timeUnit] := by
  intro ctx s s' h hs
  simp only [maxCardinalityForFacet, h.channel? (by decide),
    withinCeiling_congr h (by decide) (by decide) (by decide) (by decide)]

theorem maxCardinalityForShape_dependsOn :
    maxCardinalityForShape.DependsOn [.channel, .field, .bin, .maxBins, .timeUnit] := by
  intro ctx s s' h hs
  simp only [maxCardinalityForShape, h.channel_is (by decide),
    withinCeiling_congr h (by decide) (by decide) (by decide) (by decide)]

theorem scaleSuits_congr {ps : List Property} {q r : FieldEncoding} (h : q.Agree ps r)
    (hb : .bin ∈ ps) (hu : .timeUnit ∈ ps) (t : ScaleType) (type : FieldType) :
    scaleSuits q t type = scaleSuits r t type := by
  simp only [scaleSuits, FieldEncoding.isBinned_congr h hb, FieldEncoding.timeUnit?_congr h hu]

theorem dataTypeAndFunctionMatchScaleType_dependsOn :
    dataTypeAndFunctionMatchScaleType.DependsOn
      [.scale, .scaleOf .type, .type, .timeUnit, .bin, .channel] := by
  intro ctx s s' h hs
  refine onField_congr ctx h fun q r hqr => ?_
  rw [FieldEncoding.type_congr hqr (by decide), FieldEncoding.scaleType?_agree hqr (by decide)]
  rcases scaleOn?_cases hqr (by decide) with ⟨hq, hr⟩ | ⟨sq, sr, hq, hr⟩
  · rw [hq, hr]
  · rw [hq, hr]
    cases r.type.value? with
    | none => rfl
    | some type =>
      cases r.scaleType? with
      | none => rfl
      | some t => exact scaleSuits_congr hqr (by decide) (by decide) t type

theorem omitBinWithLogScale_dependsOn :
    omitBinWithLogScale.DependsOn [.scale, .scaleOf .type, .bin] := by
  intro ctx s s' h hs
  exact onField_congr ctx h fun q r hqr => by
    rw [FieldEncoding.isBinned_congr hqr (by decide), FieldEncoding.scaleTypeOn_is_eq,
      FieldEncoding.scaleTypeOn_is_eq, hqr .scale (by decide), hqr (.scaleOf .type) (by decide)]

end EncodingRule
end ChartAdvisor
