import ChartAdvisor.Proofs.Draft.Undoing
import ChartAdvisor.Proofs.Pointwise
import ChartAdvisor.Rules.OnCharts
import ChartAdvisor.Rules.OnEncodings

/-!
# What rules see of a draft

Two drafts agree on some properties when their encodings are of the same kinds and the slots of
those properties stand alike in them. Whatever a rule asks of a draft is a function of the
standings of a few properties, which the lemmas below name.
-/
namespace ChartAdvisor

/-! ## Fields -/

/-- Two fields in which the slots of some properties stand alike. -/
def FieldEncoding.Agree (ps : List Property) (q r : FieldEncoding) : Prop :=
  ∀ p ∈ ps, q.standing p = r.standing p

namespace FieldEncoding

variable {q r : FieldEncoding} {ps : List Property}

theorem isBinned_congr (h : q.Agree ps r) (hp : .bin ∈ ps) : q.isBinned = r.isBinned := by
  rw [isBinned_eq, isBinned_eq, h _ hp]

theorem binIsOpen_congr (h : q.Agree ps r) (hp : .bin ∈ ps) : q.binIsOpen = r.binIsOpen := by
  rw [binIsOpen_eq, binIsOpen_eq, h _ hp]

theorem binIsPresent_congr (h : q.Agree ps r) (hp : .bin ∈ ps) :
    q.binIsPresent = r.binIsPresent := by
  rw [binIsPresent_eq, binIsPresent_eq, h _ hp]

theorem timeUnit?_congr (h : q.Agree ps r) (hp : .timeUnit ∈ ps) : q.timeUnit? = r.timeUnit? := by
  rw [timeUnit?_eq, timeUnit?_eq, h _ hp]

theorem timeUnit_isOpen_congr (h : q.Agree ps r) (hp : .timeUnit ∈ ps) :
    q.timeUnit.isOpen = r.timeUnit.isOpen := by
  rw [timeUnit_isOpen_eq, timeUnit_isOpen_eq, h _ hp]

theorem timeUnit_is_none_congr (h : q.Agree ps r) (hp : .timeUnit ∈ ps) :
    q.timeUnit.is none = r.timeUnit.is none := by
  rw [timeUnit_is_none_eq, timeUnit_is_none_eq, h _ hp]

theorem mayHaveTimeUnit_congr (h : q.Agree ps r) (hp : .timeUnit ∈ ps) :
    q.mayHaveTimeUnit = r.mayHaveTimeUnit := by
  rw [mayHaveTimeUnit_eq, mayHaveTimeUnit_eq, h _ hp]

theorem aggregate?_congr (h : q.Agree ps r) (hp : .aggregate ∈ ps) :
    q.aggregate? = r.aggregate? := by
  rw [aggregate?_eq, aggregate?_eq, h _ hp]

theorem mayAggregate_congr (h : q.Agree ps r) (hp : .aggregate ∈ ps) :
    q.mayAggregate = r.mayAggregate := by
  rw [mayAggregate_eq, mayAggregate_eq, h _ hp]

theorem type_congr (h : q.Agree ps r) (hp : .type ∈ ps) : q.type.value? = r.type.value? := by
  rw [type_value?_eq, type_value?_eq, h _ hp]

theorem type_is_congr (h : q.Agree ps r) (hp : .type ∈ ps) (t : FieldType) :
    q.type.is t = r.type.is t := by
  rw [type_is_eq, type_is_eq, h _ hp]

theorem channel_congr (h : q.Agree ps r) (hp : .channel ∈ ps) :
    q.channel.value? = r.channel.value? := by
  rw [channel_value?_eq, channel_value?_eq, h _ hp]

theorem field_congr (h : q.Agree ps r) (hp : .field ∈ ps) : q.field.value? = r.field.value? := by
  rw [field_value?_eq, field_value?_eq, h _ hp]

theorem scaleType?_agree (h : q.Agree ps r) (hp : ∀ p ∈ scaleTypeInputs, p ∈ ps) :
    q.scaleType? = r.scaleType? := scaleType?_congr fun p hm => h p (hp p hm)

/-- Fields that agree take as many values. -/
theorem Agree.cardinality_eq (h : q.Agree ps r) (hf : .field ∈ ps) (hb : .bin ∈ ps) (hm : .maxBins ∈ ps)
    (hu : .timeUnit ∈ ps) (schema : Schema) : schema.cardinality q = schema.cardinality r := by
  have hname := field_congr h hf
  have hbins : (q.bin?.bind Bin.maxbins).bind Slot.value? =
      (r.bin?.bind Bin.maxbins).bind Slot.value? := by
    rw [Slot.bind_value?_eq, Slot.bind_value?_eq]
    exact congrArg Standing.value? (h _ hm)
  unfold Schema.cardinality
  rw [isBinned_congr h hb, timeUnit?_congr h hu, hbins]
  cases hq : q.field <;> cases hr : r.field <;> rw [hq, hr] at hname <;>
    simp only [Slot.value?, reduceCtorEq, Option.some.injEq] at hname
  · rw [hname]

end FieldEncoding

/-! ## Encodings -/

namespace Encoding.Agree

variable {e f : Encoding} {ps : List Property}

theorem refl (ps : List Property) (e : Encoding) : e.Agree ps e := ⟨rfl, fun _ _ => rfl⟩

theorem mono {qs : List Property} (h : e.Agree ps f) (hqs : ∀ p ∈ qs, p ∈ ps) : e.Agree qs f :=
  ⟨h.kind, fun p hp => h.standing p (hqs p hp)⟩

/-- Encodings that agree are fields that agree, or neither is a field. -/
theorem field_cases (h : e.Agree ps f) :
    (∃ q r, e = .field q ∧ f = .field r ∧ q.Agree ps r) ∨ e.field? = none ∧ f.field? = none := by
  obtain ⟨hk, hs⟩ := h
  cases e <;> cases f <;> first | contradiction | skip
  · exact .inl ⟨_, _, rfl, rfl, hs⟩
  · exact .inr ⟨rfl, rfl⟩
  · exact .inr ⟨rfl, rfl⟩

theorem channel? (h : e.Agree ps f) (hp : .channel ∈ ps) : e.channel? = f.channel? := by
  rw [channel?_eq, channel?_eq, h.standing _ hp]

theorem channel_is (h : e.Agree ps f) (hp : .channel ∈ ps) (c : Channel) :
    e.channel.is c = f.channel.is c := by
  rw [channel_is_eq, channel_is_eq, h.standing _ hp]

theorem isOpen (h : e.Agree ps f) {p : Property} (hp : p ∈ ps) : e.isOpen p = f.isOpen p := by
  rw [isOpen_eq, isOpen_eq, h.standing _ hp]

theorem isDisabledAutoCount (h : e.Agree ps f) (hp : .autoCount ∈ ps) :
    e.isDisabledAutoCount = f.isDisabledAutoCount := by
  rw [isDisabledAutoCount_eq, isDisabledAutoCount_eq, h.kind, h.standing _ hp]

theorem isEnabledAutoCount (h : e.Agree ps f) (hp : .autoCount ∈ ps) :
    e.isEnabledAutoCount = f.isEnabledAutoCount := by
  rw [isEnabledAutoCount_eq, isEnabledAutoCount_eq, h.kind, h.standing _ hp]

theorem countedChannel? (h : e.Agree ps f) (hc : .channel ∈ ps) (hb : .autoCount ∈ ps) :
    e.countedChannel? = f.countedChannel? :=
  countedChannel?_congr h.kind (h.standing _ hc) (h.standing _ hb)

/-- A test of fields that says the same of fields that agree. -/
theorem field?_all (h : e.Agree ps f) {test test' : FieldEncoding → Bool}
    (ht : ∀ q r, q.Agree ps r → test q = test' r) : e.field?.all test = f.field?.all test' := by
  rcases h.field_cases with ⟨q, r, rfl, rfl, hqr⟩ | ⟨he, hf⟩
  · exact ht q r hqr
  · rw [he, hf]; rfl

theorem field?_any (h : e.Agree ps f) {test test' : FieldEncoding → Bool}
    (ht : ∀ q r, q.Agree ps r → test q = test' r) : e.field?.any test = f.field?.any test' := by
  rcases h.field_cases with ⟨q, r, rfl, rfl, hqr⟩ | ⟨he, hf⟩
  · exact ht q r hqr
  · rw [he, hf]; rfl

theorem isAggregate (h : e.Agree ps f) (ha : .aggregate ∈ ps) (hb : .autoCount ∈ ps) :
    e.isAggregate = f.isAggregate := by
  have hen := h.isEnabledAutoCount hb
  obtain ⟨hk, hs⟩ := h
  cases e <;> cases f <;> first | contradiction | skip
  · have hs : FieldEncoding.Agree ps _ _ := hs
    exact congrArg Option.isSome (FieldEncoding.aggregate?_congr hs ha)
  · rfl
  · exact hen

theorem mayAggregate (h : e.Agree ps f) (ha : .aggregate ∈ ps) (hb : .autoCount ∈ ps) :
    e.mayAggregate = f.mayAggregate := by
  have hdis := h.isDisabledAutoCount hb
  obtain ⟨hk, hs⟩ := h
  cases e <;> cases f <;> first | contradiction | skip
  · have hs : FieldEncoding.Agree ps _ _ := hs
    exact FieldEncoding.mayAggregate_congr hs ha
  · rfl
  · exact congrArg not hdis

theorem isDimension (h : e.Agree ps f) (ht : .type ∈ ps) (hb : .bin ∈ ps) (hu : .timeUnit ∈ ps) :
    e.isDimension = f.isDimension := by
  rcases h.field_cases with ⟨q, r, rfl, rfl, hqr⟩ | ⟨he, hf⟩
  · simp only [Encoding.isDimension, FieldEncoding.type_congr hqr ht,
      FieldEncoding.isBinned_congr hqr hb, FieldEncoding.timeUnit?_congr hqr hu]
  · cases e <;> cases f <;> first | contradiction | rfl

theorem isMeasure (h : e.Agree ps f) (ht : .type ∈ ps) (hb : .bin ∈ ps) (hu : .timeUnit ∈ ps) :
    e.isMeasure = f.isMeasure := by
  obtain ⟨hk, hs⟩ := h
  cases e <;> cases f <;> first | contradiction | rfl | skip
  have hs : FieldEncoding.Agree ps _ _ := hs
  simp only [Encoding.isMeasure, FieldEncoding.type_is_congr hs ht,
    FieldEncoding.binIsPresent_congr hs hb, FieldEncoding.timeUnit_is_none_congr hs hu]

theorem mayBeDiscrete (h : e.Agree ps f) (ht : .type ∈ ps) (hb : .bin ∈ ps) (hu : .timeUnit ∈ ps) :
    ChartRule.mayBeDiscrete e = ChartRule.mayBeDiscrete f := by
  obtain ⟨hk, hs⟩ := h
  cases e <;> cases f <;> first | contradiction | rfl | skip
  have hs : FieldEncoding.Agree ps _ _ := hs
  simp only [ChartRule.mayBeDiscrete, FieldEncoding.type_congr hs ht,
    FieldEncoding.binIsPresent_congr hs hb, FieldEncoding.mayHaveTimeUnit_congr hs hu]

theorem isRawContinuous (h : e.Agree ps f) (ht : .type ∈ ps) (hb : .bin ∈ ps)
    (hu : .timeUnit ∈ ps) : ChartRule.isRawContinuous e = ChartRule.isRawContinuous f := by
  obtain ⟨hk, hs⟩ := h
  cases e <;> cases f <;> first | contradiction | rfl | skip
  have hs : FieldEncoding.Agree ps _ _ := hs
  simp only [ChartRule.isRawContinuous, FieldEncoding.type_congr hs ht,
    FieldEncoding.isBinned_congr hs hb, FieldEncoding.timeUnit?_congr hs hu]

theorem isNominalDimension (h : e.Agree ps f) (ht : .type ∈ ps) (hb : .bin ∈ ps)
    (hu : .timeUnit ∈ ps) : ChartRule.isNominalDimension e = ChartRule.isNominalDimension f := by
  simp only [ChartRule.isNominalDimension, h.isMeasure ht hb hu,
    h.field?_any fun q r hqr => FieldEncoding.type_is_congr hqr ht .nominal]

theorem stackGroup? (h : e.Agree ps f) (hc : .channel ∈ ps) (ha : .aggregate ∈ ps) :
    ChartQuery.stackGroup? e = ChartQuery.stackGroup? f := by
  have hch := h.channel? hc
  obtain ⟨hk, hs⟩ := h
  cases e <;> cases f <;> first | contradiction | skip
  · have hs : FieldEncoding.Agree ps _ _ := hs
    simp only [ChartQuery.stackGroup?, hch, FieldEncoding.mayAggregate_congr hs ha]
  · simp only [ChartQuery.stackGroup?, hch]
  · rfl

end Encoding.Agree

end ChartAdvisor
