import ChartAdvisor.Proofs.Rules.Persistence

/-!
# Rules about encodings refuse nothing too early

An encoding heads for a later one when all that is open in it may be settled so that every active
rule is kept. No rule says anything against an encoding that heads for another: most rules wait
until what they read is settled, and those that do not wait object only to what cannot be mended,
be it that another rule forbids what would mend it.
-/
namespace ChartAdvisor

/-- An encoding on its way to a settled one that keeps all active rules. -/
structure Encoding.HeadsFor (ctx : Context) (slots : OpenSlots) (e f : Encoding) : Prop where
  later : e.Later f
  settled : ∀ p ∈ Property.encodingTop, f.isFrozen = false → f.standing p ≠ .undecided
  maxBins : e.standing .maxBins ≠ .undecided
  range : e.standing (.scaleOf .range) ≠ .undecided
  valid : ∀ r ∈ EncodingRule.all, r.isActive ctx.config = true → r.check ctx ⟨f, slots⟩ = .ok true

theorem Encoding.standing_hasFunction_ne (e : Encoding) : e.standing .hasFunction ≠ .undecided := by
  cases e <;> exact nofun

theorem Rule.check_eq_true_iff {α : Type} [Judged α] {r : Rule α} {ctx : Context} {a : α} :
    r.check ctx a = .ok true ↔ (r.waits a = false → r.holds ctx a = .ok true) := by
  unfold check
  split
  · next hw => simp [hw]
  · next hw => simp [hw]

theorem Encoding.HeadsFor.holds {ctx : Context} {slots : OpenSlots} {e f : Encoding}
    (h : e.HeadsFor ctx slots f) {k : EncodingRule} (hk : k ∈ EncodingRule.all)
    (active : k.isActive ctx.config = true) (hw : k.waits ⟨f, slots⟩ = false) :
    k.holds ctx ⟨f, slots⟩ = .ok true :=
  Rule.check_eq_true_iff.mp (h.valid k hk active) hw

namespace EncodingRule

/-- A rule that says nothing against an encoding on its way to one that keeps all rules. -/
def Lenient (r : EncodingRule) : Prop :=
  ∀ (ctx : Context) (slots : OpenSlots) (e f : Encoding), e.HeadsFor ctx slots f →
    r.isActive ctx.config = true → r.check ctx ⟨e, slots⟩ = .ok true

/-- While a rule does not wait, nothing that it is about is open. -/
theorem standing_ne_of_waits {r : EncodingRule} (gated : r.allowsOpen = false) {s : Place}
    (hw : r.waits s = false) {p : Property} (hp : p ∈ r.properties) :
    s.encoding.standing p ≠ .undecided := by
  unfold Rule.waits at hw
  rw [gated, Bool.not_false, Bool.true_and] at hw
  intro hopen
  have hany : r.properties.any (Judged.isOpen s) = true :=
    List.any_eq_true.mpr ⟨p, hp, (s.encoding.isOpen_iff p).mpr hopen⟩
  rw [hw] at hany
  contradiction

/-- A rule that waits until all that it reads is settled is lenient. -/
theorem lenient_of_dependsOn {r : EncodingRule} {ps : List Property} (hr : r ∈ all)
    (gated : r.allowsOpen = false) (hps : r.DependsOn ps) (hsub : ∀ p ∈ r.properties, p ∈ ps)
    (settled : ∀ p ∈ ps, p ∈ r.properties ∨ p = .hasFunction ∨ p = .maxBins)
    (closed : ∀ p ∈ ps, ∀ q ∈ p.parent?, q ∈ r.properties) : r.Lenient := by
  intro ctx slots e f h active
  rw [Rule.check_eq_true_iff]
  intro hw
  have hagree : e.Agree ps f := by
    refine h.later.agree fun _ p hp => ⟨?_, fun q hq => ?_⟩
    · rcases settled p hp with hp | rfl | rfl
      · exact standing_ne_of_waits gated hw hp
      · exact e.standing_hasFunction_ne
      · exact h.maxBins
    · exact standing_ne_of_waits gated hw (closed p hp q hq)
  have hplace : Encoding.Agree ps (Place.mk e slots).encoding (Place.mk f slots).encoding := hagree
  have hcheck := check_congr hps hsub hplace rfl ctx
  exact Rule.check_eq_true_iff.mp (hcheck.trans (h.valid r hr active)) hw

/-! ## Rules that do not wait -/

section Fields

variable {ctx : Context} {slots : OpenSlots} {e : Encoding} {r : FieldEncoding}

/-- In the end only fields of numbers are binned. -/
theorem quantitative_of_binned (h : e.HeadsFor ctx slots (.field r))
    (hb : r.isBinned = true) : r.type.is .quantitative = true := by
  have htype : (Encoding.field r).isOpen .type = false := by
    rw [Encoding.isOpen_eq]
    simpa using h.settled .type (by decide) rfl
  have hbin : (Encoding.field r).isOpen .bin = false := by
    rw [Encoding.isOpen_eq]
    simpa using h.settled .bin (by decide) rfl
  have hw : binAppliedForQuantitative.waits ⟨.field r, slots⟩ = false := by
    simp [Rule.waits, binAppliedForQuantitative, Judged.isOpen, htype, hbin]
  have hholds := h.holds (k := binAppliedForQuantitative) (by simp [all]) rfl hw
  have htest : (!r.isBinned || r.type.is .quantitative) = true := Except.ok.inj hholds
  rwa [hb] at htest

/-- In the end only fields of times have a time unit. -/
theorem temporal_of_timeUnit (h : e.HeadsFor ctx slots (.field r))
    (hu : r.timeUnit?.isSome = true) : r.type.is .temporal = true := by
  have htype : (Encoding.field r).isOpen .type = false := by
    rw [Encoding.isOpen_eq]
    simpa using h.settled .type (by decide) rfl
  have hunit : (Encoding.field r).isOpen .timeUnit = false := by
    rw [Encoding.isOpen_eq]
    simpa using h.settled .timeUnit (by decide) rfl
  have hw : timeUnitAppliedForTemporal.waits ⟨.field r, slots⟩ = false := by
    simp [Rule.waits, timeUnitAppliedForTemporal, Judged.isOpen, htype, hunit]
  have hholds := h.holds (k := timeUnitAppliedForTemporal) (by simp [all]) rfl hw
  have htest : (r.timeUnit?.isNone || r.type.is .temporal) = true := Except.ok.inj hholds
  rw [Option.isSome_iff_ne_none] at hu
  simpa [hu] using htest

end Fields

/-- A rule that does not wait is lenient if it is kept before wherever it is kept in the end. -/
theorem lenient_of_allowsOpen {r : EncodingRule} (hr : r ∈ all) (judges : r.allowsOpen = true)
    (mono : ∀ ctx slots e f, e.HeadsFor ctx slots f → r.holds ctx ⟨f, slots⟩ = .ok true →
      r.holds ctx ⟨e, slots⟩ = .ok true) : r.Lenient := by
  intro ctx slots e f h active
  have hend := h.valid r hr active
  rw [Rule.check_of_allowsOpen judges] at hend ⊢
  exact mono ctx slots e f h hend

/-- What would make a dimension of a measure is forbidden for its type. -/
theorem channelSupportsRole_lenient : channelSupportsRole.Lenient :=
  lenient_of_allowsOpen (by simp [all]) rfl fun _ _ _ _ h =>
    channelSupportsRole_of_moreResolved h.later.moreResolved
      (fun _ hr hu => by subst hr; exact .inl (temporal_of_timeUnit h hu))
      (fun _ hr hb => by subst hr; exact .inl (quantitative_of_binned h hb))

theorem hasFn_lenient : hasFn.Lenient :=
  lenient_of_allowsOpen (by simp [all]) rfl fun _ _ _ _ h =>
    hasFn_of_moreResolved h.later.moreResolved

theorem onlyOneTypeOfFunction_lenient : onlyOneTypeOfFunction.Lenient :=
  lenient_of_allowsOpen (by simp [all]) rfl fun _ _ _ _ h =>
    onlyOneTypeOfFunction_of_moreResolved h.later.moreResolved

theorem scalePropertiesSupportedByScaleType_lenient : scalePropertiesSupportedByScaleType.Lenient :=
  lenient_of_allowsOpen (by simp [all]) rfl fun _ _ _ _ h =>
    scalePropertiesSupportedByScaleType_of_moreResolved h.later.moreResolved

theorem scalePropertiesSupportedByChannel_lenient : scalePropertiesSupportedByChannel.Lenient :=
  lenient_of_allowsOpen (by simp [all]) rfl fun _ _ _ _ h =>
    scalePropertiesSupportedByChannel_of_moreResolved h.later.moreResolved
      fun _ hopen => absurd hopen h.range

/-! ## Rules that look further than what they are about -/

/-- Fields are judged by a test that later fields pass only if earlier ones do. -/
theorem lenient_of_onField {r : EncodingRule} {test : FieldEncoding → Bool} (hr : r ∈ all)
    (hholds : r.holds = onField test) (waits : ∀ ctx slots q q',
      (Encoding.field q).HeadsFor ctx slots (.field q') → r.waits ⟨.field q, slots⟩ = false →
        r.waits ⟨.field q', slots⟩ = false)
    (mono : ∀ ctx slots q q', (Encoding.field q).HeadsFor ctx slots (.field q') →
      r.waits ⟨.field q, slots⟩ = false → Settles q.standing q'.standing → test q' = true →
        test q = true) : r.Lenient := by
  intro ctx slots e f h active
  rw [Rule.check_eq_true_iff, hholds]
  intro hw
  cases e with
  | value | autoCount => rfl
  | field q =>
    obtain ⟨q', rfl, hs⟩ := h.later.field
    have hlater := h.holds hr active (waits ctx slots q q' h hw)
    rw [hholds] at hlater
    exact congrArg Except.ok (mono ctx slots q q' h hw hs (Except.ok.inj hlater))

/-- Waiting is over for good, when all that a rule is about is settled. -/
theorem waits_of_headsFor {r : EncodingRule} (gated : r.allowsOpen = false)
    (closed : ∀ p ∈ r.properties, ∀ q ∈ p.parent?, q ∈ r.properties) {ctx : Context}
    {slots : OpenSlots} {e f : Encoding} (h : e.HeadsFor ctx slots f)
    (hw : r.waits ⟨e, slots⟩ = false) : r.waits ⟨f, slots⟩ = false := by
  have hagree : e.Agree r.properties f := h.later.agree fun _ p hp =>
    ⟨standing_ne_of_waits gated hw hp, fun q hq => standing_ne_of_waits gated hw (closed p hp q hq)⟩
  have hwaits : r.waits ⟨e, slots⟩ = r.waits ⟨f, slots⟩ := waits_congr hagree
  exact hwaits.symm.trans hw

theorem dataTypeAndFunctionMatchScaleType_lenient : dataTypeAndFunctionMatchScaleType.Lenient := by
  refine lenient_of_onField (by simp [all]) rfl
    (fun _ _ _ _ h => waits_of_headsFor rfl (by decide) h) ?_
  intro ctx slots q r h hw hs hr
  cases hscale : q.scaleOn? with
  | none => rfl
  | some s =>
    cases htype : q.type.value? with
    | none => rfl
    | some type =>
      cases hscaleType : q.scaleType? with
      | none => rfl
      | some t =>
        obtain ⟨s', hscale'⟩ := Option.isSome_iff_exists.mp
          (FieldEncoding.scaleOn?_of_settles hs (by rw [hscale]; rfl))
        have hsettled {p : Property} (hp : p ∈ dataTypeAndFunctionMatchScaleType.properties) :
            q.standing p ≠ .undecided := standing_ne_of_waits (s := ⟨.field q, slots⟩) rfl hw hp
        have hbinned : r.isBinned = q.isBinned := by
          rw [FieldEncoding.isBinned_eq, FieldEncoding.isBinned_eq,
            hs.eq_of_top (hsettled (p := .bin) (by decide)) rfl]
        have hunit : r.timeUnit? = q.timeUnit? := by
          rw [FieldEncoding.timeUnit?_eq, FieldEncoding.timeUnit?_eq,
            hs.eq_of_top (hsettled (p := .timeUnit) (by decide)) rfl]
        rw [hscale', FieldEncoding.type_of_settles hs htype,
          FieldEncoding.scaleType?_of_settles hs (standing_scale_ne hscale) hscaleType] at hr
        have hsuits : scaleSuits r t type = scaleSuits q t type := by
          cases type <;> simp only [scaleSuits, hbinned, hunit]
        exact hsuits.symm.trans hr

theorem not_two_types {s : Slot FieldType} {t u : FieldType} (ht : s.is t = true)
    (hu : s.is u = true) (hne : t ≠ u := by decide) : False := by
  cases s with
  | fixed v => exact hne ((beq_iff_eq.mp ht).symm.trans (beq_iff_eq.mp hu))
  | wild w => contradiction

/-- A field that is neither binned nor has a time unit takes the values that it is of. -/
theorem cardinality_of_plain {q r : FieldEncoding} (hfield : q.field.value? = r.field.value?)
    (hq : q.isBinned = false ∧ q.timeUnit? = none) (hr : r.isBinned = false ∧ r.timeUnit? = none)
    (ctx : Context) : cardinality ctx q = cardinality ctx r := by
  unfold cardinality Schema.cardinality
  rw [hq.1, hq.2, hr.1, hr.2]
  cases hf : q.field <;> cases hf' : r.field <;> rw [hf, hf'] at hfield <;>
    simp_all [Slot.value?]

theorem maxCardinalityForCategoricalColor_field (ctx : Context) (slots : OpenSlots)
    (q : FieldEncoding) : maxCardinalityForCategoricalColor.holds ctx ⟨.field q, slots⟩ =
      if (q.channel.is .color && q.type.is .nominal) = true then
        withinCeiling ctx ⟨.field q, slots⟩ ctx.config.maxCardinalityForCategoricalColor
      else .ok true := rfl

theorem maxCardinalityForCategoricalColor_lenient : maxCardinalityForCategoricalColor.Lenient := by
  intro ctx slots e f h active
  rw [Rule.check_eq_true_iff]
  intro hw
  have hlater := h.holds (k := maxCardinalityForCategoricalColor) (by simp [all]) active
    (waits_of_headsFor rfl (by decide) h hw)
  cases e with
  | value | autoCount => simp [maxCardinalityForCategoricalColor, Encoding.field?]
  | field q =>
    obtain ⟨r, rfl, hs⟩ := h.later.field
    have hfield : q.field.value? = r.field.value? := by
      have hsettled : q.standing .field ≠ .undecided :=
        standing_ne_of_waits (s := ⟨.field q, slots⟩) rfl hw (p := .field) (by decide)
      rw [FieldEncoding.field_value?_eq, FieldEncoding.field_value?_eq, hs.eq_of_top hsettled rfl]
    rw [maxCardinalityForCategoricalColor_field] at hlater ⊢
    by_cases hcolor : (q.channel.is .color && q.type.is .nominal) = true
    · rw [if_pos hcolor]
      rw [Bool.and_eq_true] at hcolor
      have hchannel : r.channel.is .color = true := by
        have hc := hcolor.1
        rw [Slot.is_eq] at hc ⊢
        exact hs.keeps (p := .channel) rfl (P := fun s => s.value?.any (· == Channel.color) = true)
          Bool.false_ne_true hc
      have htype : r.type.is .nominal = true := by
        have ht := hcolor.2
        rw [FieldEncoding.type_is_eq] at ht ⊢
        exact hs.keeps rfl (P := fun s => s.value?.any (· == FieldType.nominal) = true)
          Bool.false_ne_true ht
      have hbinned : r.isBinned = false := by
        by_contra hb
        exact not_two_types htype (quantitative_of_binned h (eq_true_of_ne_false hb))
      have hunit : r.timeUnit? = none := by
        by_contra hu
        exact not_two_types htype (temporal_of_timeUnit h (Option.isSome_iff_ne_none.mpr hu))
      have hbinned' : q.isBinned = false := by
        by_contra hb
        rw [FieldEncoding.isBinned_of_settles hs (eq_true_of_ne_false hb)] at hbinned
        contradiction
      have hunit' : q.timeUnit? = none := by
        by_contra hu
        obtain ⟨unit, hu⟩ := Option.ne_none_iff_exists'.mp hu
        rw [FieldEncoding.timeUnit?_of_settles hs hu] at hunit
        contradiction
      rw [hchannel, htype, Bool.and_self, if_pos rfl] at hlater
      rw [← hlater]
      unfold withinCeiling
      cases ctx.config.maxCardinalityForCategoricalColor with
      | none => rfl
      | some ceiling =>
        simp only [Encoding.field?,
          cardinality_of_plain hfield ⟨hbinned', hunit'⟩ ⟨hbinned, hunit⟩ ctx]
    · rw [if_neg hcolor]

/-- No rule about encodings says anything against an encoding on its way to one that keeps all
active rules. -/
theorem lenient_of_mem {r : EncodingRule} (h : r ∈ all) : r.Lenient := by
  have gated {r : EncodingRule} (hr : r ∈ all) (hn : r.name ∉ derived) (ho : r.allowsOpen = false)
      (closed : ∀ p ∈ r.footprint, ∀ q ∈ p.parent?, q ∈ r.properties) : r.Lenient :=
    lenient_of_dependsOn hr ho (dependsOn_footprint hr hn) (fun _ hp => List.mem_cons_of_mem _ hp)
      (fun p hp => (List.mem_cons.mp hp).elim (fun e => .inr (.inl e)) .inl) closed
  have hr := h
  simp only [all, List.mem_cons, List.not_mem_nil, or_false] at h
  rcases h with rfl | rfl | rfl | rfl | rfl | rfl | rfl | rfl | rfl | rfl | rfl | rfl | rfl | rfl |
    rfl | rfl | rfl | rfl
  · exact gated hr (by decide) rfl (by decide)
  · exact gated hr (by decide) rfl (by decide)
  · exact gated hr (by decide) rfl (by decide)
  · exact gated hr (by decide) rfl (by decide)
  · exact channelSupportsRole_lenient
  · exact hasFn_lenient
  · exact gated hr (by decide) rfl (by decide)
  · exact onlyOneTypeOfFunction_lenient
  · exact gated hr (by decide) rfl (by decide)
  · exact scalePropertiesSupportedByScaleType_lenient
  · exact scalePropertiesSupportedByChannel_lenient
  · exact gated hr (by decide) rfl (by decide)
  · exact gated hr (by decide) rfl (by decide)
  · exact maxCardinalityForCategoricalColor_lenient
  · exact lenient_of_dependsOn hr rfl maxCardinalityForFacet_dependsOn (by decide) (by decide)
      (by decide)
  · exact lenient_of_dependsOn hr rfl maxCardinalityForShape_dependsOn (by decide) (by decide)
      (by decide)
  · exact dataTypeAndFunctionMatchScaleType_lenient
  · exact gated hr (by decide) rfl (by decide)

end EncodingRule
end ChartAdvisor
