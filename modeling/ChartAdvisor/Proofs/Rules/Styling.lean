import ChartAdvisor.Proofs.Rules.Footprint
import ChartAdvisor.Proofs.Stacking
import ChartAdvisor.Proofs.Styling

/-!
# Styling keeps verdicts

Styling may switch a scale on that was absent, and with it the rules that judge scales. It adds what
they accept: band sizes stand on axes and where the scale has steps, palettes on colours for names, and
the scale type that is inferred suits the type of the field. So a styled draft gets the verdicts that the
draft got, of every rule, whether it was finished or not.
-/
namespace ChartAdvisor
namespace Draft

/-! ## What styling changes -/

/-- The properties in which a field can look different once it is styled. -/
def styledProperties : List Property := [.scale, .scaleOf .bandSize, .scaleOf .range]

variable {q : FieldEncoding} {f : Scale → Scale}

theorem Adorns.get_eq (h : Adorns q f) (s : Scale) {part : ScaleProperty}
    (hpart : .scaleOf part ∉ styledProperties) : (f s).get part = s.get part := by
  cases h <;> cases part <;> first | rfl | exact absurd (by decide) hpart

/-- A scale that is absent is switched on, one that is on changes, and any other one stays. -/
theorem withScale_cases (q : FieldEncoding) (f : Scale → Scale) :
    (q.scale = none ∧ withScale q f = { q with scale := some (.on (f {})) }) ∨
      (∃ s, q.scale = some (.on s) ∧ withScale q f = { q with scale := some (.on (f s)) }) ∨
      q.scale ≠ none ∧ q.scaleOn? = none ∧ withScale q f = q := by
  unfold withScale FieldEncoding.scaleOn?
  split
  · next hs => exact .inl ⟨hs, rfl⟩
  · next s hs => exact .inr (.inl ⟨s, hs, rfl⟩)
  · next t hon hs => exact .inr (.inr ⟨by simp [hs], by rw [hs]; cases t <;> simp_all, rfl⟩)

theorem Adorns.agree (h : Adorns q f) {ps : List Property} (hps : ∀ p ∈ styledProperties, p ∉ ps) :
    (withScale q f).Agree ps q := by
  intro p hp
  cases p with
  | scale => exact absurd hp (hps _ (by decide))
  | scaleOf part =>
    have hpart : .scaleOf part ∉ styledProperties := fun hm => hps _ hm hp
    show Standing.ofSlot? ((withScale q f).scale?.bind (·.get part)) =
      Standing.ofSlot? (q.scale?.bind (·.get part))
    rcases withScale_cases q f with ⟨hs, hw⟩ | ⟨s, hs, hw⟩ | ⟨-, -, hw⟩ <;> rw [hw]
    · simp only [FieldEncoding.scale?, hs, Option.bind_some, Toggle.inner?, h.get_eq _ hpart]
      cases part <;> rfl
    · simp only [FieldEncoding.scale?, hs, Option.bind_some, Toggle.inner?, h.get_eq _ hpart]
  | _ =>
    unfold withScale
    split <;> rfl

theorem Adorns.agree_putField (h : Adorns q f) {d : Draft} {i : Nat}
    (hi : d.query.encodings[i]? = some (.field q)) {ps : List Property}
    (hps : ∀ p ∈ styledProperties, p ∉ ps) : d.Agree ps (d.putField i (withScale q f)) where
  outline := rfl
  config := rfl
  mark _ := rfl
  encodings := forall₂_set (.refl _) hi ⟨rfl, fun p hp => (h.agree hps p hp).symm⟩
  used _ _ _ := rfl

/-- The scale type in effect stays. -/
theorem Adorns.scaleType?_eq (h : Adorns q f) : (withScale q f).scaleType? = q.scaleType? :=
  FieldEncoding.scaleType?_congr (h.agree (by decide))

/-! ## What rules about scales say -/

/-- The part of a scale that styling sets: the channel has it, and so has the scale type in effect. -/
theorem Adorns.exists_part (h : Adorns q f) : ∃ part : ScaleProperty,
    (∀ s p, p ≠ part → (f s).get p = s.get p) ∧
    (∀ c, q.channel.value? = some c → c.supportsScale = true ∧ c.supportsScaleProperty part = true) ∧
    (∀ t, q.scaleType? = some t →
      (t.supports part || (t == .point && ScaleType.band.supports part)) = true) := by
  cases h with
  | @bands axis positional channel steps size =>
    refine ⟨.bandSize, fun s p hp => ?_, fun c hc => ?_, fun t ht => ?_⟩
    · cases p <;> first | rfl | contradiction
    · obtain rfl := Option.some.inj (hc.symm.trans (Slot.is_iff.mp channel))
      cases c <;> first | contradiction | exact ⟨rfl, rfl⟩
    · rw [hasSteps, ht] at steps
      cases t <;> first | contradiction | rfl
  | palette channel type colours =>
    refine ⟨.range, fun s p hp => ?_, fun c hc => ?_, fun t _ => ?_⟩
    · cases p <;> first | rfl | contradiction
    · obtain rfl := Option.some.inj (hc.symm.trans (Slot.is_iff.mp channel))
      exact ⟨rfl, rfl⟩
    · cases t <;> rfl

theorem mem_setParts {s : Scale} {p : ScaleProperty} :
    p ∈ EncodingRule.setParts s ↔ p ≠ .type ∧ s.has p = true := by
  have hall : p ∈ (Vocabulary.all : List ScaleProperty) := by cases p <;> decide
  simp [EncodingRule.setParts, hall]

/-- A test that a part passes is passed by all parts that are set whether that part is or not. -/
theorem all_setParts_eq {test : ScaleProperty → Bool} {part : ScaleProperty} {s s' : Scale}
    (hpart : test part = true) (h : ∀ p, p ≠ part → s'.get p = s.get p) :
    (EncodingRule.setParts s').all test = (EncodingRule.setParts s).all test := by
  rw [Bool.eq_iff_iff, List.all_eq_true, List.all_eq_true]
  refine forall_congr' fun p => ?_
  by_cases hp : p = part
  · subst hp
    exact iff_of_true (fun _ => hpart) fun _ => hpart
  · rw [mem_setParts, mem_setParts, Scale.has_eq, Scale.has_eq, h p hp]

/-- The scale type that is inferred suits the field, on shapes apart. -/
theorem scaleSuits_inferredScaleType (q : FieldEncoding) {c : Channel} (hc : c ≠ .shape) (t : FieldType) :
    EncodingRule.scaleSuits q (q.inferredScaleType c t) t = true := by
  cases t with
  | nominal | ordinal => cases c <;> rfl
  | temporal =>
    unfold EncodingRule.scaleSuits FieldEncoding.inferredScaleType
    cases q.timeUnit? with
    | none => cases c <;> first | contradiction | rfl
    | some unit =>
      cases hunit : unit.isDiscrete <;> simp only [Option.any_some, Option.isSome_some, hunit] <;>
        cases c <;> first | contradiction | rfl
  | quantitative =>
    unfold EncodingRule.scaleSuits FieldEncoding.inferredScaleType
    cases c <;> cases q.isBinned <;> first | contradiction | rfl

/-! ## Rules about encodings -/

/-- A rule about encodings says of an adorned field what it said of the field. -/
def Unmoved (r : EncodingRule) : Prop :=
  ∀ (ctx : Context) (slots : OpenSlots) (q : FieldEncoding) (f : Scale → Scale), Adorns q f →
    r.holds ctx ⟨.field (withScale q f), slots⟩ = r.holds ctx ⟨.field q, slots⟩

theorem unmoved_of_dependsOn {r : EncodingRule} {ps : List Property} (hr : r.DependsOn ps)
    (hps : ∀ p ∈ styledProperties, p ∉ ps) : Unmoved r :=
  fun ctx _ _ _ h => hr ctx _ _ ⟨rfl, h.agree hps⟩ rfl

/-- A test that an adorned field passes if the field does settles a rule that tests fields. -/
theorem unmoved_onField {r : EncodingRule} {test : FieldEncoding → Bool}
    (hr : r.holds = EncodingRule.onField test)
    (h : ∀ q f, Adorns q f → test (withScale q f) = test q) : Unmoved r := by
  intro ctx slots q f hf
  rw [hr]
  exact congrArg Except.ok (h q f hf)

/-- A part that styling does not set is what it was in a scale that is switched on. -/
theorem Adorns.scaleOn?_get (h : Adorns q f) {part : ScaleProperty} (hpart : .scaleOf part ∉ styledProperties) :
    (withScale q f).scaleOn?.bind (·.get part) = q.scaleOn?.bind (·.get part) := by
  rcases withScale_cases q f with ⟨hs, hw⟩ | ⟨s, hs, hw⟩ | ⟨-, -, hw⟩ <;> rw [hw]
  · simp only [FieldEncoding.scaleOn?, hs, Option.bind_some, Option.bind_none, h.get_eq _ hpart]
    cases part <;> rfl
  · simp only [FieldEncoding.scaleOn?, hs, Option.bind_some, h.get_eq _ hpart]

theorem Adorns.isBinned_eq (h : Adorns q f) : (withScale q f).isBinned = q.isBinned := by
  have hagree : (withScale q f).Agree [.bin] q := h.agree (by decide)
  exact FieldEncoding.isBinned_congr hagree (by decide)

theorem unmoved_omitScaleZeroWithBinnedField : Unmoved EncodingRule.omitScaleZeroWithBinnedField := by
  refine unmoved_onField rfl fun q f h => ?_
  have hzero : (withScale q f).scaleOn?.bind Scale.zero = q.scaleOn?.bind Scale.zero :=
    @Adorns.scaleOn?_get q f h .zero (by decide)
  rw [h.isBinned_eq, hzero]

theorem unmoved_omitBinWithLogScale : Unmoved EncodingRule.omitBinWithLogScale := by
  refine unmoved_onField rfl fun q f h => ?_
  have htype : (withScale q f).scaleOn?.bind Scale.type = q.scaleOn?.bind Scale.type :=
    @Adorns.scaleOn?_get q f h .type (by decide)
  rw [h.isBinned_eq, htype]

theorem unmoved_scalePropertiesSupportedByScaleType :
    Unmoved EncodingRule.scalePropertiesSupportedByScaleType := by
  refine unmoved_onField rfl fun q f h => ?_
  rw [h.scaleType?_eq]
  obtain ⟨part, hget, -, htype⟩ := h.exists_part
  cases ht : q.scaleType? with
  | none => cases (withScale q f).scaleOn? <;> cases q.scaleOn? <;> rfl
  | some t =>
    have hall (s : Scale) : (EncodingRule.setParts (f s)).all
        (fun p => t.supports p || (t == .point && ScaleType.band.supports p)) =
          (EncodingRule.setParts s).all _ := all_setParts_eq (htype t ht) (hget s)
    rcases withScale_cases q f with ⟨hs, hw⟩ | ⟨s, hs, hw⟩ | ⟨-, -, hw⟩ <;> rw [hw]
    · simp only [FieldEncoding.scaleOn?, hs, hall]
      rfl
    · simp only [FieldEncoding.scaleOn?, hs, hall]

theorem unmoved_scalePropertiesSupportedByChannel :
    Unmoved EncodingRule.scalePropertiesSupportedByChannel := by
  refine unmoved_onField rfl fun q f h => ?_
  obtain ⟨part, hget, hchannel, -⟩ := h.exists_part
  have hagree : (withScale q f).Agree [.channel] q := h.agree (by decide)
  rw [FieldEncoding.channel_congr hagree (by decide)]
  cases hc : q.channel.value? with
  | none => rfl
  | some c =>
    obtain ⟨hscale, hpart⟩ := hchannel c hc
    have hall (s : Scale) := all_setParts_eq (s := s) hpart (hget s)
    rcases withScale_cases q f with ⟨hs, hw⟩ | ⟨s, hs, hw⟩ | ⟨-, -, hw⟩ <;> rw [hw]
    · simp only [FieldEncoding.scaleOn?, hs, hall, hscale]
      rfl
    · simp only [FieldEncoding.scaleOn?, hs, hall]

/-- A field that is styled stands on an axis or on colour. -/
theorem Adorns.channel (h : Adorns q f) : ∃ c, q.channel = .fixed c ∧ (c.isPositional = true ∨ c = .color) := by
  have hfixed {c : Channel} (hc : q.channel.is c = true) : q.channel = .fixed c := by
    cases hq : q.channel with
    | fixed u => rw [hq] at hc; exact congrArg _ (of_decide_eq_true hc)
    | wild w => rw [hq] at hc; contradiction
  cases h with
  | bands positional channel => exact ⟨_, hfixed channel, .inl positional⟩
  | palette channel => exact ⟨_, hfixed channel, .inr rfl⟩

theorem unmoved_dataTypeAndFunctionMatchScaleType :
    Unmoved EncodingRule.dataTypeAndFunctionMatchScaleType := by
  refine unmoved_onField rfl fun q f h => ?_
  have hagree : (withScale q f).Agree [.type, .bin, .timeUnit] q := h.agree (by decide)
  have hsuits (t : ScaleType) (type : FieldType) :=
    EncodingRule.scaleSuits_congr hagree (by decide) (by decide) t type
  rw [FieldEncoding.type_congr hagree (by decide), h.scaleType?_eq]
  simp only [hsuits]
  rcases withScale_cases q f with ⟨hs, hw⟩ | ⟨s, hs, hw⟩ | ⟨-, -, hw⟩ <;> rw [hw]
  · -- The scale was absent, so its type is inferred, and suits.
    simp only [FieldEncoding.scaleOn?, hs]
    cases ht : q.scaleType? with
    | none => cases q.type.value? <;> rfl
    | some t =>
      obtain ⟨c, hc, hplace⟩ := h.channel
      obtain ⟨type, htype, rfl⟩ := FieldEncoding.scaleType?_of_absent hs hc ht
      rw [htype]
      refine scaleSuits_inferredScaleType q ?_ type
      rintro rfl
      exact hplace.elim nofun nofun
  · simp only [FieldEncoding.scaleOn?, hs]
    cases q.type.value? <;> cases q.scaleType? <;> rfl

theorem unmoved_of_mem {r : EncodingRule} (h : r ∈ EncodingRule.all) : Unmoved r := by
  simp only [EncodingRule.all, List.mem_cons, List.not_mem_nil, or_false] at h
  rcases h with rfl | rfl | rfl | rfl | rfl | rfl | rfl | rfl | rfl | rfl | rfl | rfl | rfl | rfl | rfl |
    rfl | rfl | rfl
  · exact unmoved_of_dependsOn EncodingRule.aggregateOpSupportedByType_dependsOn (by decide)
  · exact unmoved_of_dependsOn EncodingRule.asteriskFieldWithCountOnly_dependsOn (by decide)
  · exact unmoved_of_dependsOn EncodingRule.minCardinalityForBin_dependsOn (by decide)
  · exact unmoved_of_dependsOn EncodingRule.binAppliedForQuantitative_dependsOn (by decide)
  · exact unmoved_of_dependsOn EncodingRule.channelSupportsRole_dependsOn (by decide)
  · exact unmoved_of_dependsOn EncodingRule.hasFn_dependsOn (by decide)
  · exact unmoved_omitScaleZeroWithBinnedField
  · exact unmoved_of_dependsOn EncodingRule.onlyOneTypeOfFunction_dependsOn (by decide)
  · exact unmoved_of_dependsOn EncodingRule.timeUnitAppliedForTemporal_dependsOn (by decide)
  · exact unmoved_scalePropertiesSupportedByScaleType
  · exact unmoved_scalePropertiesSupportedByChannel
  · exact unmoved_of_dependsOn EncodingRule.typeMatchesPrimitiveType_dependsOn (by decide)
  · exact unmoved_of_dependsOn EncodingRule.typeMatchesSchemaType_dependsOn (by decide)
  · exact unmoved_of_dependsOn EncodingRule.maxCardinalityForCategoricalColor_dependsOn (by decide)
  · exact unmoved_of_dependsOn EncodingRule.maxCardinalityForFacet_dependsOn (by decide)
  · exact unmoved_of_dependsOn EncodingRule.maxCardinalityForShape_dependsOn (by decide)
  · exact unmoved_dataTypeAndFunctionMatchScaleType
  · exact unmoved_omitBinWithLogScale

/-- A rule about encodings waits for an adorned field as for the field, and then says the same. -/
theorem Adorns.check_place {r : EncodingRule} (hr : r ∈ EncodingRule.all) (h : Adorns q f) (ctx : Context)
    (slots : OpenSlots) :
    r.check ctx ⟨.field (withScale q f), slots⟩ = r.check ctx ⟨.field q, slots⟩ := by
  have hopen : Judged.isOpen (⟨.field (withScale q f), slots⟩ : Place) =
      Judged.isOpen (⟨.field q, slots⟩ : Place) := funext (isOpen_withScale h.keepsOpen q)
  unfold Rule.check Rule.waits
  rw [hopen, unmoved_of_mem hr ctx slots q f h]

/-! ## Rules about charts -/

variable {d : Draft} {i : Nat}

/-- A test that an adorned field passes if the field does is passed by some encoding as before. -/
theorem any_putField (hi : d.query.encodings[i]? = some (.field q)) (test : Encoding → Bool)
    (h : test (.field (withScale q f)) = test (.field q)) :
    (d.putField i (withScale q f)).query.encodings.any test = d.query.encodings.any test := by
  have hset : List.Forall₂ (fun a b => test a = test b) d.query.encodings
      (d.query.encodings.set i (.field (withScale q f))) :=
    forall₂_set (R := fun a b => test a = test b) (fun _ => rfl) hi h.symm
  exact (any_eq_of_forall₂ hset fun _ _ h => h).symm

theorem any_fields (d : Draft) (test : FieldEncoding → Bool) :
    (ChartRule.fields d).any test = d.query.encodings.any fun e => e.field?.any test := by
  unfold ChartRule.fields
  rw [Agree.filterMap_field?_active, List.any_filterMap]
  exact congrArg (List.any _) (funext fun e => by cases e.field? <;> rfl)

theorem Adorns.omitBarAreaForLogScale_putField (h : Adorns q f)
    (hi : d.query.encodings[i]? = some (.field q)) (ctx : Context) :
    ChartRule.omitBarAreaForLogScale.holds ctx (d.putField i (withScale q f)) =
      ChartRule.omitBarAreaForLogScale.holds ctx d := by
  have hagree : (withScale q f).Agree [.channel] q := h.agree (by decide)
  have htest : (ChartRule.onAxis (withScale q f) && (withScale q f).scale?.isSome &&
      (withScale q f).scaleType? == some .log) =
      (ChartRule.onAxis q && q.scale?.isSome && q.scaleType? == some .log) := by
    rw [ChartRule.onAxis_congr hagree (by decide), h.scaleType?_eq]
    rcases withScale_cases q f with ⟨hs, hw⟩ | ⟨s, hs, hw⟩ | ⟨-, -, hw⟩ <;> rw [hw]
    · -- The scale was absent, so its type is inferred, and no logarithm.
      have hlog : (q.scaleType? == some .log) = false := by
        refine beq_eq_false_iff_ne.mpr fun hlog => ?_
        obtain ⟨c, hc, -⟩ := h.channel
        obtain ⟨type, -, heq⟩ := FieldEncoding.scaleType?_of_absent hs hc hlog
        exact q.inferredScaleType_ne_log c type heq.symm
      rw [hlog, Bool.and_false, Bool.and_false]
    · simp only [FieldEncoding.scale?, hs]
      rfl
  have hany : (d.putField i (withScale q f)).query.encodings.any (fun e => e.field?.any fun q =>
      ChartRule.onAxis q && q.scale?.isSome && q.scaleType? == some .log) = d.query.encodings.any _ :=
    any_putField hi _ htest
  simp only [ChartRule.omitBarAreaForLogScale, ChartRule.onDraft, any_fields, hany]
  rfl

/-- All rules about charts but one read nothing that styling changes. -/
theorem readings_apart {r : ChartRule} {ps : List Property} (h : (r, ps) ∈ ChartRule.readings) :
    r = ChartRule.omitBarAreaForLogScale ∨ ∀ p ∈ styledProperties, p ∉ ps := by
  simp only [ChartRule.readings, List.mem_cons, Prod.mk.injEq, List.not_mem_nil, or_false] at h
  rcases h with ⟨rfl, rfl⟩ | ⟨rfl, rfl⟩ | ⟨rfl, rfl⟩ | ⟨rfl, rfl⟩ | ⟨rfl, rfl⟩ | ⟨rfl, rfl⟩ |
    ⟨rfl, rfl⟩ | ⟨rfl, rfl⟩ | ⟨rfl, rfl⟩ | ⟨rfl, rfl⟩ | ⟨rfl, rfl⟩ | ⟨rfl, rfl⟩ | ⟨rfl, rfl⟩ |
    ⟨rfl, rfl⟩ | ⟨rfl, rfl⟩ | ⟨rfl, rfl⟩ | ⟨rfl, rfl⟩ | ⟨rfl, rfl⟩ | ⟨rfl, rfl⟩ | ⟨rfl, rfl⟩ |
    ⟨rfl, rfl⟩ | ⟨rfl, rfl⟩ | ⟨rfl, rfl⟩ <;> first | exact .inr (by decide) | exact .inl rfl

/-- A rule about charts waits for a draft with an adorned field as for the draft, and then says the
same. -/
theorem Adorns.check_putField {r : ChartRule} (hr : r ∈ ChartRule.all) (h : Adorns q f)
    (hi : d.query.encodings[i]? = some (.field q)) (ctx : Context) :
    r.check ctx (d.putField i (withScale q f)) = r.check ctx d := by
  have hholds : r.holds ctx (d.putField i (withScale q f)) = r.holds ctx d := by
    rw [← ChartRule.readings_fst] at hr
    obtain ⟨⟨r, ps⟩, hm, rfl⟩ := List.mem_map.mp hr
    rcases readings_apart hm with rfl | hps
    · exact h.omitBarAreaForLogScale_putField hi ctx
    · exact (ChartRule.dependsOn_of_mem hm ctx _ _ (h.agree_putField hi hps)).symm
  have hopen (p : Property) : Judged.isOpen (d.putField i (withScale q f)) p = Judged.isOpen d p := by
    have hany := any_putField (f := f) hi (fun e => !e.isDisabledAutoCount && e.isOpen p)
      (isOpen_withScale h.keepsOpen q p)
    simp only [Judged.isOpen, active, ChartQuery.active, List.any_filter, hany]
    rfl
  unfold Rule.check Rule.waits
  rw [funext hopen, hholds]

/-! ## Styled drafts -/

/-- Two drafts of which all rules say the same, those about encodings of encodings with one number. -/
structure JudgedAlike (ctx : Context) (d d' : Draft) : Prop where
  slots : d'.slots = d.slots
  chart : ∀ r ∈ ChartRule.all, r.check ctx d' = r.check ctx d
  encodings : ∀ r ∈ EncodingRule.all, ∀ i,
    (d'.encoding? i).map (fun e => r.check ctx (d'.place i e)) =
      (d.encoding? i).map fun e => r.check ctx (d.place i e)

theorem JudgedAlike.trans {ctx : Context} {d d' d'' : Draft} (h : JudgedAlike ctx d d')
    (h' : JudgedAlike ctx d' d'') : JudgedAlike ctx d d'' where
  slots := h'.slots.trans h.slots
  chart r hr := (h'.chart r hr).trans (h.chart r hr)
  encodings r hr i := (h'.encodings r hr i).trans (h.encodings r hr i)

/-- One field that is adorned makes no difference to any rule. -/
theorem Adorns.judgedAlike (h : Adorns q f) (hi : d.query.encodings[i]? = some (.field q)) (ctx : Context) :
    JudgedAlike ctx d (d.putField i (withScale q f)) where
  slots := rfl
  chart _ hr := h.check_putField hr hi ctx
  encodings r hr j := by
    have hset : (d.putField i (withScale q f)).encoding? j =
        if i = j then some (.field (withScale q f)) else d.encoding? j := by
      simp only [encoding?, putField, List.getElem?_set, (List.getElem?_eq_some_iff.mp hi).1, if_true]
    rw [hset]
    split
    · next hij =>
      subst hij
      rw [show d.encoding? i = some (.field q) from hi]
      exact congrArg some (h.check_place hr ctx _)
    · rfl

theorem stylable_judgedAlike (schema : Schema) (ctx : Context) (d₀ : Draft) :
    Stylable schema (JudgedAlike ctx d₀) fun _ => True where
  put h hi _ hf := h.trans (hf.judgedAlike hi ctx)
  counts _ _ _ := trivial

/-- Styling changes no verdict, on finished drafts and on others. -/
theorem judgedAlike_of_stylize {schema : Schema} {config : Config} {d' : Draft}
    (h : d.stylize schema config = .ok d') (ctx : Context) : JudgedAlike ctx d d' :=
  ((stylable_judgedAlike schema ctx d).stylize ⟨rfl, fun _ _ => rfl, fun _ _ _ => rfl⟩ config).kept d' h

/-- A draft satisfies every active rule about charts, and each of its encodings every active rule about
encodings. -/
structure Satisfies (ctx : Context) (d : Draft) : Prop where
  chart : ∀ r ∈ ChartRule.all, r.isActive ctx.config = true → r.check ctx d = .ok true
  encodings : ∀ r ∈ EncodingRule.all, r.isActive ctx.config = true → ∀ i e, d.encoding? i = some e →
    r.check ctx (d.place i e) = .ok true

theorem JudgedAlike.satisfies {ctx : Context} {d' : Draft} (h : JudgedAlike ctx d d') (hd : d.Satisfies ctx) :
    d'.Satisfies ctx where
  chart r hr ha := (h.chart r hr).trans (hd.chart r hr ha)
  encodings r hr ha i e he := by
    have halike := h.encodings r hr i
    rw [he] at halike
    obtain ⟨e₀, he₀, hcheck⟩ := Option.map_eq_some_iff.mp halike.symm
    exact hcheck.symm.trans (hd.encodings r hr ha i e₀ he₀)

/-- A draft that satisfies every active rule still does once it is styled. -/
theorem satisfies_of_stylize {ctx : Context} {d' : Draft} (h : d.Satisfies ctx)
    (hstyle : d.stylize ctx.schema ctx.config = .ok d') : d'.Satisfies ctx :=
  (judgedAlike_of_stylize hstyle ctx).satisfies h

/-- Many names on an axis and fewer on colour, beside a quantity. -/
def crowdedNames : ChartQuery where
  mark := .fixed .point
  encodings := [
    .field { channel := .fixed .x, field := .fixed "Q", type := .fixed .quantitative },
    .field { channel := .fixed .y, field := .fixed "N", type := .fixed .nominal },
    .field { channel := .fixed .color, field := .fixed "M", type := .fixed .nominal }]

def crowdedFields : Schema where
  fields := [
    ⟨"Q", .quantitative, .number, { distinct := 100 }, [], []⟩,
    ⟨"N", .nominal, .string, { distinct := 100 }, [], []⟩,
    ⟨"M", .nominal, .string, { distinct := 15 }, [], []⟩]
  ne_nil := by simp
  nodup := by decide

/-- The axis gets small bands and the colour a large palette, which are allowed there. -/
theorem satisfies_of_stylize_crowdedNames : ∃ d d' : Draft,
    build crowdedNames crowdedFields {} = .ok d ∧ d.Satisfies ⟨crowdedFields, {}⟩ ∧
      d.stylize crowdedFields {} = .ok d' ∧
      d'.query.encodings.map (fun e => e.field?.any fun q => q.scale.isSome) = [false, true, true] ∧
      d'.Satisfies ⟨crowdedFields, {}⟩ := by
  obtain ⟨d, hd⟩ : ∃ d, build crowdedNames crowdedFields {} = .ok d := ⟨_, rfl⟩
  obtain ⟨d', hstyle⟩ : ∃ d', d.stylize crowdedFields {} = .ok d' := by
    cases hd
    exact ⟨_, rfl⟩
  have hchart : ∀ r ∈ ChartRule.all, r.isActive {} = true →
      (r.check ⟨crowdedFields, {}⟩ d).toOption = some true := by
    cases hd
    decide
  have hencodings : ∀ r ∈ EncodingRule.all, r.isActive {} = true → ∀ i < 3, ∀ e ∈ d.encoding? i,
      (r.check ⟨crowdedFields, {}⟩ (d.place i e)).toOption = some true := by
    cases hd
    decide
  have hvalid : d.Satisfies ⟨crowdedFields, {}⟩ := by
    refine ⟨fun r hr ha => eq_ok_of_toOption (hchart r hr ha), fun r hr ha i e he => ?_⟩
    have hlt : i < 3 := by
      have hi := (List.getElem?_eq_some_iff.mp he).1
      cases hd
      exact hi
    exact eq_ok_of_toOption (hencodings r hr ha i hlt e he)
  refine ⟨d, d', hd, hvalid, hstyle, ?_, satisfies_of_stylize hvalid hstyle⟩
  cases hd
  cases hstyle
  decide

end Draft
end ChartAdvisor
