import ChartAdvisor.Proofs.Rules.Persistence
import ChartAdvisor.Proofs.Search.Finality

/-!
# Final objections

A rule that does not wait may object to a draft of which much is still open. Its objection is final: it
stands whatever is chosen after it. Some rules object too early, for they take an open slot for a settled
one: a count of rows that has a channel counts as being there while it may be switched off, an open type
as discrete, an open range as set, and a field of numbers as a measure while a time unit may be chosen.
-/
namespace ChartAdvisor

/-- The rules that do not wait and ask which channels are in use. -/
def ChartRule.aboutChannelsInUse : List String := [
  "noRepeatedChannel", "channelPermittedByMarkType", "omitBarTickWithSize",
  "omitMultipleNonPositionalChannels", "omitVerticalDotPlot"]

/-- A rule that does not wait can judge every draft. -/
theorem ChartRule.exists_holds {r : ChartRule} (hr : r ∈ all) (judges : r.allowsOpen = true) (ctx : Context)
    (d : Draft) : ∃ v, r.holds ctx d = .ok v := by
  simp only [all, List.mem_cons, List.not_mem_nil, or_false] at hr
  rcases hr with rfl | rfl | rfl | rfl | rfl | rfl | rfl | rfl | rfl | rfl | rfl | rfl | rfl | rfl | rfl |
    rfl | rfl | rfl | rfl | rfl | rfl | rfl | rfl
  all_goals first | exact absurd judges (by decide) | exact ⟨_, rfl⟩

/-- A rule that does not wait can judge every encoding. -/
theorem EncodingRule.exists_holds {r : EncodingRule} (hr : r ∈ all) (judges : r.allowsOpen = true)
    (ctx : Context) (a : Place) : ∃ v, r.holds ctx a = .ok v := by
  simp only [all, List.mem_cons, List.not_mem_nil, or_false] at hr
  rcases hr with rfl | rfl | rfl | rfl | rfl | rfl | rfl | rfl | rfl | rfl | rfl | rfl | rfl | rfl | rfl |
    rfl | rfl | rfl
  all_goals first | exact absurd judges (by decide) | exact ⟨_, rfl⟩

/-- The objection of a rule to a draft stands in every draft that keeps what is settled, unless the rule
takes an open slot for a settled one and that slot is settled on the way. -/
theorem ChartRule.objection_stands {r : ChartRule} (hr : r ∈ all) (judges : r.allowsOpen = true)
    {ctx : Context} {d d' : Draft} (h : d.KeptBy d') (hd : d.Coherent) (hd' : d'.Coherent)
    (built : d.OpenAsBuilt) (violated : r.check ctx d = .ok false)
    (counts : r.name ∈ aboutChannelsInUse → d.KeepsCounts d')
    (types : r.name = "autoAddCount" → d.active.any Encoding.isEnabledAutoCount = false →
      ∀ i e e', d.encoding? i = some e → d'.encoding? i = some e' → e.field?.isSome = true →
        e.isOpen .type = true → e'.isOpen .type = true) : r.check ctx d' = .ok false := by
  refine Rule.check_eq_false judges (exists_holds hr judges ctx d') ?_ violated
  simp only [all, List.mem_cons, List.not_mem_nil, or_false] at hr
  rcases hr with rfl | rfl | rfl | rfl | rfl | rfl | rfl | rfl | rfl | rfl | rfl | rfl | rfl | rfl | rfl |
    rfl | rfl | rfl | rfl | rfl | rfl | rfl | rfl
  all_goals first | exact absurd judges (by decide) | skip
  · exact noRepeatedChannel_of_keptBy h (counts (by decide))
  · exact autoAddCount_of_keptBy h hd built fun hcounts _ => types rfl hcounts
  · exact channelPermittedByMarkType_of_keptBy h (counts (by decide))
  · exact omitAggregate_of_keptBy h
  · exact omitBarTickWithSize_of_keptBy h (counts (by decide)) hd hd'
  · exact omitMultipleNonPositionalChannels_of_keptBy h (counts (by decide))
  · exact omitRawContinuousFieldForAggregatePlot_of_keptBy h
  · exact omitRepeatedField_of_keptBy h
  · exact omitVerticalDotPlot_of_keptBy h (counts (by decide))

/-- The objection of a rule to a draft stands in every draft that keeps what is settled. -/
theorem ChartRule.check_of_keptBy {r : ChartRule} (hr : r ∈ all) (judges : r.allowsOpen = true)
    {ctx : Context} {d d' : Draft} (h : d.KeptBy d') (hd : d.Coherent) (hd' : d'.Coherent)
    (built : d.OpenAsBuilt) (violated : r.check ctx d = .ok false)
    (placed : r.name ∈ aboutChannelsInUse →
      ∀ e ∈ d.query.encodings, e.isOpen .autoCount = true → e.isOpen .channel = true)
    (typed : r.name = "autoAddCount" → d.active.any Encoding.isEnabledAutoCount = false →
      Judged.isOpen d .type = false) : r.check ctx d' = .ok false := by
  refine objection_stands hr judges h hd hd' built violated
    (fun hr => Draft.KeptBy.keepsCounts (placed hr)) fun hr hcounts i e _ he _ hfield hopen => ?_
  have hactive : e ∈ d.active := Draft.mem_active_iff.mpr ⟨List.mem_of_getElem? he, by
    cases e with
    | field => rfl
    | value | autoCount => contradiction⟩
  have hjudged := Draft.isOpen_of_mem_active hactive hopen
  rw [typed hr hcounts] at hjudged
  contradiction

/-- The objection of a rule to an encoding stands in every encoding that keeps what is settled, unless the
rule takes an open slot for a settled one and that slot is settled on the way. -/
theorem EncodingRule.objection_stands {r : EncodingRule} (hr : r ∈ all) (judges : r.allowsOpen = true)
    {ctx : Context} {slots slots' : OpenSlots} {e e' : Encoding} (h : e.MoreResolved e')
    (violated : r.check ctx ⟨e, slots⟩ = .ok false)
    (functions : r.name = "channelSupportsRole" → ∀ p ∈ [Property.bin, .timeUnit],
      e.isOpen p = true → e'.isOpen p = true)
    (range : r.name = "scalePropertiesSupportedByChannel" → e.isOpen .scale = false →
      e.isOpen (.scaleOf .range) = true → e'.isOpen (.scaleOf .range) = true) :
    r.check ctx ⟨e', slots'⟩ = .ok false := by
  refine Rule.check_eq_false judges (exists_holds hr judges ctx _) ?_ violated
  simp only [all, List.mem_cons, List.not_mem_nil, or_false] at hr
  rcases hr with rfl | rfl | rfl | rfl | rfl | rfl | rfl | rfl | rfl | rfl | rfl | rfl | rfl | rfl | rfl |
    rfl | rfl | rfl
  all_goals first | exact absurd judges (by decide) | skip
  · have settled {r : FieldEncoding} (hf : e' = .field r) {p : Property} (hp : p ∈ [Property.bin, .timeUnit])
        (hclosed : r.standing p ≠ .undecided) : e.standing p ≠ .undecided := by
      subst hf
      intro hopen
      exact hclosed (((Encoding.field r).isOpen_iff p).mp
        (functions rfl p hp ((e.isOpen_iff p).mpr hopen)))
    refine channelSupportsRole_of_moreResolved h (fun r hf hunit => .inr (settled hf (by decide) ?_))
      (fun r hf hbin => .inr (settled hf (by decide) ?_))
    · intro hopen
      rw [FieldEncoding.timeUnit?_eq, hopen] at hunit
      contradiction
    · intro hopen
      rw [FieldEncoding.isBinned_eq, hopen] at hbin
      contradiction
  · exact hasFn_of_moreResolved h
  · exact onlyOneTypeOfFunction_of_moreResolved h
  · exact scalePropertiesSupportedByScaleType_of_moreResolved h
  · refine scalePropertiesSupportedByChannel_of_moreResolved h fun hscale hopen => ?_
    rw [ne_eq, ← e.isOpen_iff, Bool.not_eq_true] at hscale
    rw [(e'.isOpen_iff _).mp (range rfl hscale ((e.isOpen_iff _).mpr hopen))]
    simp

/-- The objection of a rule to an encoding stands in every encoding that keeps what is settled. -/
theorem EncodingRule.check_of_moreResolved {r : EncodingRule} (hr : r ∈ all) (judges : r.allowsOpen = true)
    {ctx : Context} {slots slots' : OpenSlots} {e e' : Encoding} (h : e.MoreResolved e')
    (violated : r.check ctx ⟨e, slots⟩ = .ok false)
    (functions : r.name = "channelSupportsRole" → e.isOpen .bin = false ∧ e.isOpen .timeUnit = false)
    (range : r.name = "scalePropertiesSupportedByChannel" → e.isOpen (.scaleOf .range) = false) :
    r.check ctx ⟨e', slots'⟩ = .ok false := by
  refine objection_stands hr judges h violated (fun hr p hp hopen => ?_) fun hr _ hopen => ?_
  · obtain ⟨hbin, hunit⟩ := functions hr
    rcases List.mem_pair.mp hp with rfl | rfl
    · rw [hbin] at hopen
      contradiction
    · rw [hunit] at hopen
      contradiction
  · rw [range hr] at hopen
    contradiction

namespace Draft

/-- What a rule objects to that does not wait, it objects to whatever is chosen next. Rules that ask which
channels are in use are right if no count of rows that may still be switched off has a channel; the rule
about counts of rows if one is there, or no type is open; the rule about roles if no function is open that
makes a dimension of a field; and the rule about scales and channels if no range is open. -/
theorem violations_final {q : ChartQuery} {ctx : Context} {d₀ d d' : Draft}
    (built : build q ctx.schema ctx.config = .ok d₀) (reached : d₀.MoreResolved d)
    (further : d.MoreResolved d') :
    (∀ r ∈ ChartRule.all, r.allowsOpen = true → r.check ctx d = .ok false →
      (r.name ∈ ChartRule.aboutChannelsInUse →
        ∀ e ∈ d.query.encodings, e.isOpen .autoCount = true → e.isOpen .channel = true) →
      (r.name = "autoAddCount" → d.active.any Encoding.isEnabledAutoCount = false →
        Judged.isOpen d .type = false) →
      r.check ctx d' = .ok false) ∧
    (∀ r ∈ EncodingRule.all, r.allowsOpen = true → ∀ i e, d.encoding? i = some e →
      r.check ctx (d.place i e) = .ok false →
      (r.name = "channelSupportsRole" → e.isOpen .bin = false ∧ e.isOpen .timeUnit = false) →
      (r.name = "scalePropertiesSupportedByChannel" → e.isOpen (.scaleOf .range) = false) →
      ∃ e', d'.encoding? i = some e' ∧ r.check ctx (d'.place i e') = .ok false) := by
  have hbuilt := isBuilt_of_build built
  have hd := reached.coherent hbuilt.coherent
  have hopen := reached.openAsBuilt hbuilt.coherent hbuilt.sourced.opened
  refine ⟨fun r hr judges violated placed typed => ?_, fun r hr judges i e he violated functions range => ?_⟩
  · exact ChartRule.check_of_keptBy hr judges (further.keptBy hd) hd (further.coherent hd) hopen violated
      placed typed
  · obtain ⟨e', he', hmore⟩ := further.encoding hd he
    exact ⟨e', he', EncodingRule.check_of_moreResolved hr judges hmore violated functions range⟩

/-- Numbers that may be binned and names on one axis, numbers as rows, and a count of rows of which nothing
is settled. -/
def crowdedAxis : ChartQuery where
  mark := .wild (.ofCandidates [.point, .bar])
  encodings := [
    .field { channel := .fixed .x, field := .fixed "Q", type := .fixed .quantitative,
             bin := some (.wild .short {}) },
    .field { channel := .fixed .x, field := .fixed "N", type := .fixed .nominal },
    .field { channel := .fixed .row, field := .fixed "R", type := .fixed .quantitative },
    .autoCount (.wild (.ofCandidates [.x, .y])) (.wild .short)]

/-- Bins, bars and no count of rows: the axis stays crowded, and the rows stay numbers. -/
theorem violations_final_crowdedAxis :
    ∃ d d' : Draft, d.MoreResolved d' ∧ d.active.length = 4 ∧ d'.active.length = 3 ∧
      ChartRule.noRepeatedChannel.check ⟨threeFields, {}⟩ d' = .ok false ∧
      ∃ e', d'.encoding? 2 = some e' ∧
        EncodingRule.channelSupportsRole.check ⟨threeFields, {}⟩ (d'.place 2 e') = .ok false := by
  let ctx : Context := ⟨threeFields, {}⟩
  obtain ⟨d₀, d, d', built, reached, further, h⟩ := @exists_of_resolveEach? crowdedAxis ctx []
    [(.slot 0 .bin, .flag true), (.mark, .mark .bar), (.slot 3 .autoCount, .flag false)]
    (fun d d' => d.active.length == 4 && d'.active.length == 3 &&
      d.query.encodings.all (fun e => !e.isOpen .autoCount || e.isOpen .channel) &&
      (ChartRule.noRepeatedChannel.check ctx d).toOption == some false &&
      (d.encoding? 2).any fun e => !e.isOpen .bin && !e.isOpen .timeUnit &&
        (EncodingRule.channelSupportsRole.check ctx (d.place 2 e)).toOption == some false)
    (by decide)
  simp only [Bool.and_eq_true, beq_iff_eq] at h
  obtain ⟨⟨⟨⟨hfour, hthree⟩, hplaced⟩, hcrowded⟩, h⟩ := h
  obtain ⟨e, he, h⟩ := (Option.any_eq_true _ _).mp h
  simp only [Bool.and_eq_true, beq_iff_eq, Bool.not_eq_true'] at h
  obtain ⟨⟨hbin, hunit⟩, hmeasure⟩ := h
  obtain ⟨hcharts, hencodings⟩ := violations_final built reached further
  refine ⟨d, d', further, hfour, hthree, ?_, ?_⟩
  · refine hcharts ChartRule.noRepeatedChannel (by simp [ChartRule.all]) rfl (eq_ok_of_toOption hcrowded)
      (fun _ e he hopen => ?_) (fun h => absurd h (by decide))
    have hplaced := List.all_eq_true.mp hplaced e he
    simpa [hopen] using hplaced
  · exact hencodings EncodingRule.channelSupportsRole (by simp [EncodingRule.all]) rfl 2 e he
      (eq_ok_of_toOption hmeasure) (fun _ => ⟨hbin, hunit⟩) (fun h => absurd h (by decide))

/-- The range of the scale on an axis is objected to while it is open. The one value that is listed for it
is none, and so there is nothing to object to in the end. -/
theorem violations_not_final :
    ¬ ∀ (q : ChartQuery) (ctx : Context) (d₀ d d' : Draft),
      build q ctx.schema ctx.config = .ok d₀ → d₀.MoreResolved d → d.MoreResolved d' →
      d'.query.hasOpen [] = false →
      (∀ r ∈ ChartRule.all, r.allowsOpen = true → r.check ctx d = .ok false →
        r.check ctx d' = .ok false) ∧
      (∀ r ∈ EncodingRule.all, r.allowsOpen = true → ∀ i e e', d.encoding? i = some e →
        d'.encoding? i = some e' → r.check ctx (d.place i e) = .ok false →
        r.check ctx (d'.place i e') = .ok false) := by
  intro final
  let ctx : Context := ⟨threeFields, {}⟩
  let q : ChartQuery :=
    { mark := .fixed .point
      encodings := [.field { channel := .fixed .x, field := .fixed "Q", type := .fixed .quantitative,
                             scale := some (.on { range := some (.wild .short) }) }] }
  obtain ⟨d₀, d, d', built, reached, further, h⟩ := @exists_of_resolveEach? q ctx []
    [(.slot 0 (.scaleOf .range), .json .null)]
    (fun d d' => !d'.query.hasOpen [] && (d.encoding? 0).any fun e => (d'.encoding? 0).any fun e' =>
      (EncodingRule.scalePropertiesSupportedByChannel.check ctx (d.place 0 e)).toOption == some false &&
      (EncodingRule.scalePropertiesSupportedByChannel.check ctx (d'.place 0 e')).toOption == some true)
    (by decide)
  rw [Bool.and_eq_true, Bool.not_eq_true'] at h
  obtain ⟨hresolved, h⟩ := h
  obtain ⟨e, he, h⟩ := (Option.any_eq_true _ _).mp h
  obtain ⟨e', he', h⟩ := (Option.any_eq_true _ _).mp h
  simp only [Bool.and_eq_true, beq_iff_eq] at h
  obtain ⟨hviolated, hkept⟩ := h
  have hstill := (final q ctx d₀ d d' built reached further hresolved).2
    EncodingRule.scalePropertiesSupportedByChannel (by simp [EncodingRule.all]) rfl 0 e e' he he'
    (eq_ok_of_toOption hviolated)
  rw [hstill] at hkept
  contradiction

end Draft
end ChartAdvisor
