import ChartAdvisor.Proofs.Draft.Resolving
import ChartAdvisor.Proofs.Outcome
import ChartAdvisor.Proofs.Search.Oversight
import ChartAdvisor.Proofs.Search.Pending

/-!
# Final verdicts

A rule that waits for its properties is run once none of them is open. Its verdict is final if nothing is
open either that it reads besides: further choices do not change it. Where a rule reads what it does
not declare, a slot that it does not wait for may still decide against it.
-/
namespace ChartAdvisor

namespace ChartRule

/-- The rules about charts that ask for the stack. Counts of rows that are switched off come into that. -/
def aboutStacks : List String := ["omitNonLinearScaleTypeWithStack", "omitNonSumStack"]

/-- Nothing is open any more that a rule reads. -/
structure Informed (r : ChartRule) (reading : List Property) (d : Draft) : Prop where
  closed : ∀ p ∈ reading ++ r.properties, Judged.isOpen d p = false
  /-- Counts of rows that are switched off included. -/
  channels : r.name ∈ aboutStacks → ∀ e ∈ d.query.encodings, e.isOpen .channel = false

/-- What a property is a part of is read with it. -/
theorem parent_read : ∀ e ∈ readings, ∀ p ∈ e.2 ++ e.1.properties, ∀ r ∈ p.parent?,
    r ∈ e.2 ++ e.1.properties := by
  decide

end ChartRule

theorem EncodingRule.parent_read : ∀ e ∈ readings, ∀ p ∈ e.2 ++ e.1.properties, ∀ r ∈ p.parent?,
    r ∈ e.2 ++ e.1.properties := by
  decide

namespace Draft

variable {d d' : Draft} {s : Spot} {c : Choice}

/-! ## Counts of rows that are switched off -/

/-- Two drafts that differ at most in where counts of rows stand that are switched off. -/
structure SameShown (d d' : Draft) : Prop where
  slots : d.slots = d'.slots
  mark : d.query.mark = d'.query.mark
  active : d.active = d'.active
  used : d.channelUsed = d'.channelUsed

namespace SameShown

theorem fields_eq (h : SameShown d d') : ChartRule.fields d = ChartRule.fields d' := by
  unfold ChartRule.fields
  rw [h.active]

theorem onChannel?_eq (h : SameShown d d') (c : Channel) : d.onChannel? c = d'.onChannel? c := by
  unfold Draft.onChannel?
  rw [h.active]

/-- A count of rows that is switched off aggregates nothing. -/
theorem isAggregate_eq (h : SameShown d d') : d.isAggregate = d'.isAggregate := by
  have hshown (d : Draft) : d.isAggregate = d.active.any Encoding.isAggregate := by
    unfold Draft.isAggregate ChartQuery.isAggregate Draft.active ChartQuery.active
    rw [List.any_filter]
    refine congrArg d.query.encodings.any (funext fun e => ?_)
    cases e with
    | field | value => rfl
    | autoCount c b => rcases b with (_ | _) | w <;> rfl
  rw [hshown, hshown, h.active]

/-- The rules that wait see only what plays a part, those about stacks apart. -/
theorem holds_eq (h : SameShown d d') {r : ChartRule} (hr : r ∈ ChartRule.all)
    (gated : r.allowsOpen = false) (stack : r.name ∉ ChartRule.aboutStacks) (ctx : Context) :
    r.holds ctx d = r.holds ctx d' := by
  simp only [ChartRule.all, List.mem_cons, List.not_mem_nil, or_false] at hr
  rcases hr with rfl | rfl | rfl | rfl | rfl | rfl | rfl | rfl | rfl | rfl | rfl | rfl | rfl | rfl | rfl |
    rfl | rfl | rfl | rfl | rfl | rfl | rfl | rfl
  all_goals first | exact absurd gated (by decide) | exact absurd (by decide) stack | skip
  · simp only [ChartRule.alwaysIncludeZeroInScaleWithBarMark, ChartRule.onDraft, h.mark, h.fields_eq]
  · simp only [ChartRule.hasAllRequiredChannelsForMark, ChartRule.usesBothAxes, ChartRule.usesAnAxis,
      h.mark, h.slots, h.used]
  · simp only [ChartRule.omitAggregatePlotWithDimensionOnlyOnFacet, ChartRule.onDraft, h.fields_eq,
      h.isAggregate_eq]
  · simp only [ChartRule.omitAggregatePlotWithoutDimension, ChartRule.onDraft, h.isAggregate_eq, h.active]
  · simp only [ChartRule.omitBarLineAreaWithOcclusion, ChartRule.onDraft, h.mark, h.isAggregate_eq]
  · simp only [ChartRule.omitBarAreaForLogScale, ChartRule.onDraft, h.mark, h.fields_eq]
  · simp only [ChartRule.omitFacetOverPositionalChannels, ChartRule.onDraft, ChartRule.usesBothAxes, h.used]
  · simp only [ChartRule.omitNonPositionalOverPositionalChannels, ChartRule.onDraft,
      ChartRule.usesBothAxes, h.used]
  · simp only [ChartRule.omitRaw, ChartRule.onDraft, h.isAggregate_eq]
  · simp only [ChartRule.omitRawDetail, ChartRule.onDraft, h.isAggregate_eq, h.used]
  · simp only [ChartRule.hasAppropriateGraphicTypeForMark, Draft.isMeasure, h.mark, h.isAggregate_eq,
      h.onChannel?_eq, h.used]
  · simp only [ChartRule.omitTableWithOcclusionIfAutoAddCount, Draft.isDimension, h.isAggregate_eq,
      h.onChannel?_eq]

end SameShown

/-- A count of rows that is switched off has but its channel left to choose, and that does not show. -/
theorem sameShown_resolve? (hd : d.Coherent) {i : Nat} {p : Property} {e : Encoding}
    (h : d.resolve? (.slot i p) c = some d') (he : d.encoding? i = some e)
    (off : e.isDisabledAutoCount = true) : SameShown d d' ∧ e.isOpen .channel = true := by
  obtain ⟨hs, hn, rfl⟩ := resolve?_eq_some h
  obtain ⟨k, e', o, after, -, he', ho, hc, ha⟩ := assign_eq_none hd hn
  obtain rfl := Option.some.inj (he.symm.trans he')
  obtain ⟨e', he', hopen⟩ := isOpenAt_slot hs
  obtain rfl := Option.some.inj (he.symm.trans he')
  have hafter : after.isDisabledAutoCount = true :=
    (Encoding.moreResolved_choose (hd.kind_eq he ho) hc hopen).isDisabledAutoCount off
  refine ⟨?_, ?_⟩
  · rw [chooseAt_slot, ha]
    refine ⟨rfl, rfl, ?_, ?_⟩
    · exact (filter_set_of_not he (by simp [off]) (by simp [hafter])).symm
    · have hmove : d.channelCount.move e.countedChannel? after.countedChannel? = d.channelCount := by
        rw [Encoding.countedChannel?, Encoding.countedChannel?, off, hafter]
        rfl
      funext c
      show _ = decide (0 < (d.channelCount.move e.countedChannel? after.countedChannel?).get c)
      rw [hmove]
      rfl
  · cases e with
    | field | value => contradiction
    | autoCount ch b =>
      have hclosed : b.isOpen = false := by cases b <;> first | rfl | contradiction
      have hchannel : p = .channel ∧ ch.isOpen = true := by
        simpa [Encoding.isOpen, hclosed] using hopen
      simp [Encoding.isOpen, hchannel.2]

/-! ## One choice -/

variable {ps : List Property}

/-- A mark that is settled is not chosen again. -/
theorem ne_mark_of_resolve? (h : d.resolve? s c = some d') (hmark : Judged.isOpen d .mark = false) :
    .mark ≠ s := by
  rintro rfl
  have hopen : Judged.isOpen d .mark = true := (resolve?_eq_some h).1
  rw [hmark] at hopen
  contradiction

/-- What is open in no encoding that plays a part is open in none of them later on. -/
theorem isOpen_resolve? (hd : d.Coherent) (h : d.resolve? s c = some d')
    (hparents : ∀ p ∈ ps, ∀ r ∈ p.parent?, r ∈ ps)
    (closed : ∀ p ∈ ps, Judged.isOpen d p = false) : ∀ p ∈ ps, Judged.isOpen d' p = false := by
  intro p hp
  rw [← Bool.not_eq_true]
  intro hopen
  by_cases hmark : p = .mark
  · subst hmark
    have hsame := (agreeOff_resolve? hd h).mark (ne_mark_of_resolve? h (closed _ hp))
    have hmark : d.query.mark.isOpen = false := closed _ hp
    have hopen : d'.query.mark.isOpen = true := hopen
    rw [← Slot.standing_eq_undecided_iff, ← hsame, Slot.standing_eq_undecided_iff, hmark] at hopen
    contradiction
  · obtain ⟨e', he', hopen⟩ := List.any_eq_true.mp ((if_neg hmark).symm.trans hopen)
    obtain ⟨hmem', hon'⟩ := List.mem_filter.mp he'
    obtain ⟨e, hmem, hmore⟩ := exists_of_forall₂ (encodings_resolve? hd h).flip hmem'
    have hon : e.isDisabledAutoCount = false := by
      cases hoff : e.isDisabledAutoCount with
      | false => rfl
      | true => rw [hmore.isDisabledAutoCount hoff] at hon'; contradiction
    have hactive : e ∈ d.active := List.mem_filter.mpr ⟨hmem, by rw [hon]; rfl⟩
    have hclosed : ∀ q ∈ ps, e.isOpen q = false := fun q hq => by
      rw [← Bool.not_eq_true]
      intro hq'
      exact absurd (isOpen_of_mem_active hactive hq') (by simp [closed q hq])
    rw [← (hmore.agree hclosed hparents).isOpen hp, hclosed p hp] at hopen
    contradiction

/-- If nothing is open of some properties, a further choice leaves them as they are, or settles where a
count of rows stands that is switched off. -/
theorem agree_or_sameShown (hd : d.Coherent) (h : d.resolve? s c = some d')
    (hparents : ∀ p ∈ ps, ∀ r ∈ p.parent?, r ∈ ps)
    (closed : ∀ p ∈ ps, Judged.isOpen d p = false) :
    d.Agree ps d' ∨ SameShown d d' ∧ ∃ e ∈ d.query.encodings, e.isOpen .channel = true := by
  have hs := (resolve?_eq_some h).1
  by_cases hoff : ∃ i p e, s = .slot i p ∧ d.encoding? i = some e ∧ e.isDisabledAutoCount = true
  · obtain ⟨i, p, e, rfl, he, hoff⟩ := hoff
    obtain ⟨hshown, hopen⟩ := sameShown_resolve? hd h he hoff
    exact .inr ⟨hshown, e, List.mem_of_getElem? he, hopen⟩
  · have hagree := agreeOff_resolve? hd h
    have hout : ∀ j, ∀ p ∈ ps, ¬Within (· = s) j p := by
      intro j p hp hwithin
      obtain ⟨r, hr, rfl⟩ : ∃ r ∈ ps, .slot j r = s := by
        rcases hwithin with hs | ⟨r, hr, hs⟩
        · exact ⟨p, hp, hs⟩
        · exact ⟨r, hparents p hp r hr, hs⟩
      obtain ⟨e, he, hopen⟩ := isOpenAt_slot hs
      have hactive : e ∈ d.active := by
        refine List.mem_filter.mpr ⟨List.mem_of_getElem? he, ?_⟩
        cases hdis : e.isDisabledAutoCount with
        | false => rfl
        | true => exact absurd ⟨j, r, e, rfl, he, hdis⟩ hoff
      have hjudged := isOpen_of_mem_active hactive hopen
      rw [closed r hr] at hjudged
      contradiction
    refine .inl (.of_encodings hd (hd.resolve? h) hagree.outline hagree.config
      (fun hmark => hagree.mark (ne_mark_of_resolve? h (closed _ hmark))) ?_)
    refine forall₂_of_getElem?_rel fun j => ?_
    have hj := hagree.encodings j
    unfold Draft.encoding? at hj
    generalize d.query.encodings[j]? = a, d'.query.encodings[j]? = b at hj
    cases hj with
    | none => exact .none
    | some hj => exact .some (hj.agree (hout j))

end Draft

/-! ## Verdicts -/

namespace ChartRule.Informed

open Draft

variable {d d' : Draft} {s : Spot} {c : Choice} {r : ChartRule} {reading : List Property}

/-- A rule that does not wait is run. -/
theorem check_eq (h : r.Informed reading d) (ctx : Context) : r.check ctx d = r.holds ctx d := by
  have hwaits : r.waits d = false := by
    have hany : r.properties.any (Judged.isOpen d) = false :=
      List.any_eq_false.mpr fun p hp => by simp [h.closed p (List.mem_append_right _ hp)]
    rw [Rule.waits, hany, Bool.and_false]
  rw [Rule.check, hwaits, if_neg Bool.false_ne_true]

/-- A choice takes nothing back that a rule reads. -/
theorem resolve? (h : r.Informed reading d) (hr : (r, reading) ∈ readings) (hd : d.Coherent)
    (hstep : d.resolve? s c = some d') : r.Informed reading d' where
  closed := isOpen_resolve? hd hstep (parent_read _ hr) h.closed
  channels hstack e he := by
    obtain ⟨before, hbefore, hmore⟩ := exists_of_forall₂ (encodings_resolve? hd hstep).flip he
    exact hmore.isOpen_eq_false rfl (h.channels hstack before hbefore)

/-- A choice does not change what a rule says that knows all that it reads. -/
theorem holds_resolve? (h : r.Informed reading d) (hr : (r, reading) ∈ readings)
    (gated : r.allowsOpen = false) (hd : d.Coherent) (hstep : d.resolve? s c = some d') (ctx : Context) :
    r.holds ctx d = r.holds ctx d' := by
  rcases agree_or_sameShown hd hstep (parent_read _ hr) h.closed with hagree | ⟨hshown, e, he, hopen⟩
  · exact (dependsOn_of_mem hr) ctx d d' (hagree.mono fun _ hp => List.mem_append_left _ hp)
  · refine hshown.holds_eq (readings_fst ▸ List.mem_map_of_mem hr) gated (fun hstack => ?_) ctx
    rw [h.channels hstack e he] at hopen
    contradiction

/-- Nor does any number of choices. -/
theorem moreResolved (h : r.Informed reading d) (hr : (r, reading) ∈ readings)
    (gated : r.allowsOpen = false) (hd : d.Coherent) (further : d.MoreResolved d') (ctx : Context) :
    r.Informed reading d' ∧ r.holds ctx d = r.holds ctx d' := by
  induction further with
  | refl => exact ⟨h, rfl⟩
  | tail hrun hstep ih =>
    obtain ⟨hinformed, heq⟩ := ih
    obtain ⟨s, c, hstep⟩ := hstep
    have hmid := MoreResolved.coherent hrun hd
    exact ⟨hinformed.resolve? hr hmid hstep, heq.trans (hinformed.holds_resolve? hr gated hmid hstep ctx)⟩

end ChartRule.Informed

/-- The verdict on an encoding of which nothing is open that the rule reads does not change by further
choices. -/
theorem EncodingRule.check_moreResolved {r : EncodingRule} {reading : List Property}
    (hr : (r, reading) ∈ readings) {d d' : Draft} (hd : d.Coherent) (further : d.MoreResolved d') {i : Nat}
    {e : Encoding} (he : d.encoding? i = some e)
    (closed : ∀ p ∈ reading ++ r.properties, e.isOpen p = false) (ctx : Context) :
    ∃ e', d'.encoding? i = some e' ∧ r.check ctx (d'.place i e') = r.check ctx (d.place i e) := by
  obtain ⟨e', he', hmore⟩ := further.encoding hd he
  refine ⟨e', he', (check_congr_reading hr (hmore.agree closed (parent_read _ hr)) ?_ ctx).symm⟩
  unfold Draft.place
  rw [(further.keptBy hd).slots]

namespace Draft

/-- What a rule says that waits is its last word once its properties are settled, and whatever it reads
besides: further choices change nothing. The two rules about stacks see the channels of counts of rows that
are switched off too. -/
theorem verdicts_final {q : ChartQuery} {ctx : Context} {d₀ d d' : Draft}
    (built : build q ctx.schema ctx.config = .ok d₀) (reached : d₀.MoreResolved d)
    (further : d.MoreResolved d') :
    (∀ r reading, (r, reading) ∈ ChartRule.readings → r.allowsOpen = false → r.waits d = false →
      (∀ p ∈ reading, p ∉ r.properties → Judged.isOpen d p = false) →
      (r.name ∈ ChartRule.aboutStacks → ∀ e ∈ d.query.encodings, e.isOpen .channel = false) →
      r.check ctx d' = r.check ctx d) ∧
    (∀ r reading, (r, reading) ∈ EncodingRule.readings → r.allowsOpen = false →
      ∀ i e, d.encoding? i = some e → r.waits (d.place i e) = false →
        (∀ p ∈ reading, p ∉ r.properties → e.isOpen p = false) →
        ∃ e', d'.encoding? i = some e' ∧ r.check ctx (d'.place i e') = r.check ctx (d.place i e)) := by
  have hd := reached.coherent (isBuilt_of_build built).coherent
  constructor
  · intro r reading hr gated runs hidden channels
    have hclosed := Rule.closed_of_runs gated runs
    have hinformed : r.Informed reading d := by
      refine ⟨fun p hp => ?_, channels⟩
      by_cases hdeclared : p ∈ r.properties
      · exact hclosed p hdeclared
      · exact hidden p ((List.mem_append.mp hp).resolve_right hdeclared) hdeclared
    obtain ⟨hinformed', heq⟩ := hinformed.moreResolved hr gated hd further ctx
    rw [hinformed'.check_eq, hinformed.check_eq, heq]
  · intro r reading hr gated i e he runs hidden
    have hclosed := Rule.closed_of_runs gated runs
    refine EncodingRule.check_moreResolved hr hd further he (fun p hp => ?_) ctx
    by_cases hdeclared : p ∈ r.properties
    · exact hclosed p hdeclared
    · exact hidden p ((List.mem_append.mp hp).resolve_right hdeclared) hdeclared

/-- What is computed along some choices tells of drafts to which they lead. -/
theorem exists_of_resolveEach? {q : ChartQuery} {ctx : Context} {before after : List (Spot × Choice)}
    {f : Draft → Draft → Bool}
    (h : ((build q ctx.schema ctx.config).toOption.bind fun d₀ =>
      (d₀.resolveEach? before).bind fun d => (d.resolveEach? after).map (f d)) = some true) :
    ∃ d₀ d d', build q ctx.schema ctx.config = .ok d₀ ∧ d₀.MoreResolved d ∧ d.MoreResolved d' ∧
      f d d' = true := by
  obtain ⟨d₀, hbuilt, h⟩ := Option.bind_eq_some_iff.mp h
  obtain ⟨d, hd, h⟩ := Option.bind_eq_some_iff.mp h
  obtain ⟨d', hd', h⟩ := Option.map_eq_some_iff.mp h
  exact ⟨d₀, d, d', eq_ok_of_toOption hbuilt, moreResolved_of_resolveEach? hd,
    moreResolved_of_resolveEach? hd', h⟩

/-- Once the five bins are chosen the rows are few enough for good, whatever mark is chosen then. -/
theorem verdicts_final_fiveBins :
    ∃ d d' : Draft, d.query.mark.isOpen = true ∧ d'.query.mark = .fixed .bar ∧ d.MoreResolved d' ∧
      ChartRule.omitFacetOverPositionalChannels.check ⟨threeFields, {}⟩ d' = .ok true ∧
      ∃ e', d'.encoding? 2 = some e' ∧
        EncodingRule.maxCardinalityForFacet.check ⟨threeFields, {}⟩ (d'.place 2 e') = .ok true := by
  let ctx : Context := ⟨threeFields, {}⟩
  let q : ChartQuery :=
    { binnedRows (.wild (.ofCandidates [5, 20])) with mark := .wild (.ofCandidates [.point, .bar]) }
  obtain ⟨d₀, d, d', built, reached, further, h⟩ := @exists_of_resolveEach? q ctx
    [(.slot 2 .channel, .channel .row), (.slot 2 .maxBins, .count 5)] [(.mark, .mark .bar)]
    (fun d d' => d.query.mark.isOpen && d'.query.mark == .fixed .bar &&
      !ChartRule.omitFacetOverPositionalChannels.waits d &&
      [.autoCount, .channel].all (!Judged.isOpen d ·) &&
      (ChartRule.omitFacetOverPositionalChannels.check ctx d).toOption == some true &&
      (d.encoding? 2).any fun e => !EncodingRule.maxCardinalityForFacet.waits (d.place 2 e) &&
        [.channel, .field, .bin, .maxBins, .timeUnit].all (!e.isOpen ·) &&
        (EncodingRule.maxCardinalityForFacet.check ctx (d.place 2 e)).toOption == some true)
    (by decide)
  simp only [Bool.and_eq_true, beq_iff_eq, List.all_eq_true, Bool.not_eq_true'] at h
  obtain ⟨⟨⟨⟨⟨hopen, hmark⟩, hruns⟩, hread⟩, hkept⟩, h⟩ := h
  obtain ⟨e, he, h⟩ := (Option.any_eq_true _ _).mp h
  simp only [Bool.and_eq_true, beq_iff_eq, List.all_eq_true, Bool.not_eq_true'] at h
  obtain ⟨⟨hruns', hread'⟩, hkept'⟩ := h
  obtain ⟨hcharts, hencodings⟩ := verdicts_final built reached further
  have hchart := hcharts ChartRule.omitFacetOverPositionalChannels [.autoCount, .channel]
    (by simp [ChartRule.readings]) rfl hruns (fun p hp _ => hread p hp) (fun h => absurd h (by decide))
  obtain ⟨e', he', hencoding⟩ := hencodings EncodingRule.maxCardinalityForFacet
    [.channel, .field, .bin, .maxBins, .timeUnit] (by simp [EncodingRule.readings]) rfl 2 e he hruns'
    fun p hp _ => hread' p hp
  refine ⟨d, d', hopen, hmark, further, ?_, e', he', ?_⟩
  · rw [hchart]
    exact eq_ok_of_toOption hkept
  · rw [hencoding]
    exact eq_ok_of_toOption hkept'

/-- The ceiling on rows is asked for once the channel is chosen, with the number of bins still open. Ten
rows are taken for granted then, and twenty bins chosen in the end: the verdict was not final. -/
theorem verdicts_not_final :
    ¬ ∀ (q : ChartQuery) (ctx : Context) (d₀ d d' : Draft),
      build q ctx.schema ctx.config = .ok d₀ → d₀.MoreResolved d → d.MoreResolved d' →
      (∀ r ∈ ChartRule.all, r.allowsOpen = false → r.waits d = false → r.check ctx d' = r.check ctx d) ∧
      (∀ r ∈ EncodingRule.all, r.allowsOpen = false → ∀ i e e', d.encoding? i = some e →
        d'.encoding? i = some e' → r.waits (d.place i e) = false →
        r.check ctx (d'.place i e') = r.check ctx (d.place i e)) := by
  intro final
  let ctx : Context := ⟨threeFields, {}⟩
  obtain ⟨d₀, d, d', built, reached, further, h⟩ := @exists_of_resolveEach?
    (binnedRows (.wild (.ofCandidates [5, 20]))) ctx
    [(.slot 2 .channel, .channel .row)] [(.slot 2 .maxBins, .count 20)]
    (fun d d' => (d.encoding? 2).any fun e => (d'.encoding? 2).any fun e' =>
      !EncodingRule.maxCardinalityForFacet.waits (d.place 2 e) &&
      (EncodingRule.maxCardinalityForFacet.check ctx (d.place 2 e)).toOption == some true &&
      (EncodingRule.maxCardinalityForFacet.check ctx (d'.place 2 e')).toOption == some false)
    (by decide)
  obtain ⟨e, he, h⟩ := (Option.any_eq_true _ _).mp h
  obtain ⟨e', he', h⟩ := (Option.any_eq_true _ _).mp h
  simp only [Bool.and_eq_true, beq_iff_eq] at h
  obtain ⟨⟨hruns, hkept⟩, hviolated⟩ := h
  have hsame := (final _ ctx d₀ d d' built reached further).2 EncodingRule.maxCardinalityForFacet
    (by simp [EncodingRule.all]) rfl 2 e e' he he' (by simpa using hruns)
  rw [hsame, hkept] at hviolated
  contradiction

end Draft
end ChartAdvisor
