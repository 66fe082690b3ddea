import ChartAdvisor.Proofs.Rules.EncodingForesight

/-!
# Rules about charts refuse nothing too early

What has been said of encodings holds of drafts as a whole. Which counts of rows play a part is
settled before channels and marks are chosen, so that a draft on its way to a finished one uses no
channel that the finished one does not use.
-/
namespace ChartAdvisor

/-- The properties that are resolved before a property. -/
def Property.before (p : Property) : List Property := precedence.takeWhile (· != p)

namespace Draft

/-- A draft in which a property has just been chosen, on its way to a finished one that keeps all
active rules. -/
structure HeadsFor (ctx : Context) (p : Property) (d c : Draft) : Prop where
  coherent : d.Coherent
  end_coherent : c.Coherent
  asBuilt : d.OpenAsBuilt
  later : d.Later c
  resolved : ∀ q ∈ p.before, q.parent? = none → d.Resolved q
  counting : ctx.config.autoAddCount = true → .autoCount ∉ p :: p.before → d.countsOpen = true
  valid : ∀ r ∈ ChartRule.all, r.isActive ctx.config = true → r.check ctx c = .ok true

theorem Agree.countsOpen {ps : List Property} {d c : Draft} (h : d.Agree ps c)
    (hp : .autoCount ∈ ps) : d.countsOpen = c.countsOpen := by
  have hopen (i : Nat) : (d.encoding? i).any (·.isOpen .autoCount) =
      (c.encoding? i).any (·.isOpen .autoCount) :=
    any_eq_of_rel (h.encoding? i) fun _ _ he => he.isOpen hp
  unfold Draft.countsOpen
  simp only [SlotIndex.indices_congr h.outline, hopen]

/-- Drafts agree on what is settled outside all open parts. -/
theorem Later.agree {d c : Draft} (h : d.Later c) (hd : d.Coherent) (hc : c.Coherent) {ps : List Property}
    (hmark : .mark ∈ ps → d.query.mark.isOpen = false)
    (settled : ∀ e ∈ d.query.encodings, e.isFrozen = false → ∀ p ∈ ps,
      e.standing p ≠ .undecided ∧ ∀ r, p.parent? = some r → e.standing r ≠ .undecided) :
    d.Agree ps c := by
  refine .of_encodings hd hc (congrArg _ h.slots) h.config (fun hm => by rw [h.mark (hmark hm)]) ?_
  exact forall₂_imp_of_mem h.encodings fun e he f hef => hef.agree (settled e he)

/-! ## Rules that wait -/

theorem HeadsFor.holds {ctx : Context} {p : Property} {d c : Draft} (h : d.HeadsFor ctx p c)
    {r : ChartRule} (hr : r ∈ ChartRule.all) (active : r.isActive ctx.config = true)
    (hw : r.waits c = false) : r.holds ctx c = .ok true :=
  Rule.check_eq_true_iff.mp (h.valid r hr active) hw

/-- Where channels are chosen it is settled already which counts of rows play a part. -/
theorem HeadsFor.placed {ctx : Context} {p : Property} {d c : Draft} (h : d.HeadsFor ctx p c)
    {ps : List Property} (hp : p ∈ ps) (hps : ∀ p ∈ ps, .autoCount ∈ p.before) :
    ∀ e ∈ d.query.encodings, e.isOpen .autoCount = true → e.isOpen .channel = true := by
  intro e he hopen
  refine absurd ((e.isOpen_iff _).mp hopen) (h.resolved _ (hps p hp) rfl e he ?_)
  cases e with
  | field | value => contradiction
  | autoCount _ b => cases b <;> first | contradiction | rfl

end Draft

namespace ChartRule

/-- A rule that says nothing against a draft on its way to one that keeps all rules, when one of
its properties has just been chosen. -/
def Lenient (r : ChartRule) : Prop :=
  ∀ (ctx : Context) (p : Property) (d c : Draft), p ∈ r.properties → d.HeadsFor ctx p c →
    r.isActive ctx.config = true → r.check ctx d = .ok true

theorem not_isOpen_of_waits {r : ChartRule} (gated : r.allowsOpen = false) {d : Draft}
    (hw : r.waits d = false) {p : Property} (hp : p ∈ r.properties) :
    Judged.isOpen d p = false := by
  unfold Rule.waits at hw
  rw [gated, Bool.not_false, Bool.true_and] at hw
  by_contra hopen
  have hany : r.properties.any (Judged.isOpen d) = true :=
    List.any_eq_true.mpr ⟨p, hp, eq_true_of_ne_false hopen⟩
  rw [hw] at hany
  contradiction

theorem mark_of_waits {r : ChartRule} (gated : r.allowsOpen = false) {d : Draft}
    (hw : r.waits d = false) (hp : .mark ∈ r.properties) : d.query.mark.isOpen = false :=
  not_isOpen_of_waits gated hw hp

/-- While a rule does not wait, nothing that it is about is open in an encoding that plays a part. -/
theorem standing_ne_of_waits {r : ChartRule} (gated : r.allowsOpen = false) {d : Draft}
    (hw : r.waits d = false) {p : Property} (hp : p ∈ r.properties) {e : Encoding}
    (he : e ∈ d.active) : e.standing p ≠ .undecided := by
  have hopen := not_isOpen_of_waits gated hw hp
  by_cases hm : p = .mark
  · subst hm
    cases e <;> exact nofun
  · rw [show Judged.isOpen d p = d.active.any (·.isOpen p) from if_neg hm] at hopen
    intro hundecided
    have hany : d.active.any (·.isOpen p) = true :=
      List.any_eq_true.mpr ⟨e, he, (e.isOpen_iff p).mpr hundecided⟩
    rw [hopen] at hany
    contradiction

/-- An encoding that is not frozen plays a part. -/
theorem mem_active_of_not_frozen {d : Draft} {e : Encoding} (he : e ∈ d.query.encodings)
    (hfrozen : e.isFrozen = false) : e ∈ d.active :=
  Draft.mem_active_iff.mpr ⟨he, (Bool.or_eq_false_iff.mp hfrozen).2⟩

/-- Once a rule is done with waiting it does not wait again. -/
theorem waits_of_later {r : ChartRule} (gated : r.allowsOpen = false)
    (closed : ∀ p ∈ r.properties, ∀ q ∈ p.parent?, q ∈ r.properties) {d c : Draft}
    (h : d.Later c) (hw : r.waits d = false) : r.waits c = false := by
  have hclosed : ∀ p ∈ r.properties, Judged.isOpen c p = false := by
    intro p hp
    by_cases hm : p = .mark
    · subst hm
      have hmark := mark_of_waits gated hw hp
      exact (congrArg Slot.isOpen (h.mark hmark)).symm.trans hmark
    · rw [show Judged.isOpen c p = c.active.any (·.isOpen p) from if_neg hm, List.any_eq_false]
      intro f hf
      obtain ⟨hf, hactive⟩ := Draft.mem_active_iff.mp hf
      obtain ⟨e, he, hef⟩ := exists_of_forall₂ h.encodings.flip hf
      rw [Encoding.isOpen_iff]
      cases hfrozen : e.isFrozen with
      | true =>
        rw [hef.frozen hfrozen]
        refine standing_ne_of_waits gated hw hp (Draft.mem_active_iff.mpr ⟨he, ?_⟩)
        rw [Encoding.isDisabledAutoCount_eq] at hactive ⊢
        rwa [hef.kind, ← hef.frozen hfrozen]
      | false =>
        have he' := mem_active_of_not_frozen he hfrozen
        rw [hef.settles.eq_of_settled (standing_ne_of_waits gated hw hp he') fun q hq =>
          standing_ne_of_waits gated hw (closed p hp q hq) he']
        exact standing_ne_of_waits gated hw hp he'
  unfold Rule.waits
  rw [gated, Bool.not_false, Bool.true_and, List.any_eq_false]
  intro p hp
  rw [hclosed p hp]
  exact Bool.false_ne_true

/-- A rule that waits until all that it reads is settled is lenient. -/
theorem lenient_of_dependsOn {r : ChartRule} {ps : List Property} (hr : r ∈ all)
    (gated : r.allowsOpen = false) (hps : r.DependsOn ps)
    (closed : ∀ p ∈ r.properties, ∀ q ∈ p.parent?, q ∈ r.properties)
    (settled : ∀ q ∈ ps, q ∈ r.properties ∨ q.parent? = none ∧ q ≠ .mark ∧ ∀ p ∈ r.properties, q ∈ p.before) :
    r.Lenient := by
  intro ctx p d c hp h active
  rw [Rule.check_eq_true_iff]
  intro hw
  have hagree : d.Agree ps c := by
    refine h.later.agree h.coherent h.end_coherent (fun hm => ?_) fun e he hfrozen q hq => ?_
    · exact mark_of_waits gated hw ((settled _ hm).resolve_right fun hs => hs.2.1 rfl)
    · have he' := mem_active_of_not_frozen he hfrozen
      rcases settled q hq with hq | ⟨top, -, hbefore⟩
      · exact ⟨standing_ne_of_waits gated hw hq he', fun t ht =>
          standing_ne_of_waits gated hw (closed q hq t ht) he'⟩
      · refine ⟨h.resolved q (hbefore p hp) top e he hfrozen, fun t ht => ?_⟩
        rw [top] at ht
        contradiction
  rw [hps ctx d c hagree]
  exact h.holds hr active (waits_of_later gated closed h.later hw)

/-- Rules that wait, and look no further than what they are about. -/
theorem lenient_of_footprint {r : ChartRule} (hr : r ∈ all) (hn : r.name ∉ aboutScales)
    (gated : r.allowsOpen = false)
    (closed : ∀ p ∈ r.properties, ∀ q ∈ p.parent?, q ∈ r.properties)
    (settled : ∀ q ∈ r.footprint, q ∈ r.properties ∨
      q.parent? = none ∧ q ≠ .mark ∧ ∀ p ∈ r.properties, q ∈ p.before) : r.Lenient :=
  lenient_of_dependsOn hr gated (dependsOn_footprint hr hn) closed settled

/-- A rule with a test that later drafts pass only if earlier ones do. -/
theorem lenient_of_onDraft {r : ChartRule} {test : Draft → Bool} (hr : r ∈ all)
    (hholds : r.holds = onDraft test)
    (mono : ∀ ctx p d c, p ∈ r.properties → d.HeadsFor ctx p c → r.isActive ctx.config = true →
      r.waits d = false → (r.waits c = false → test c = true) → test d = true) : r.Lenient := by
  intro ctx p d c hp h active
  rw [Rule.check_eq_true_iff, hholds]
  intro hw
  refine congrArg Except.ok (mono ctx p d c hp h active hw fun hwc => ?_)
  have hlater := h.holds hr active hwc
  rw [hholds] at hlater
  exact Except.ok.inj hlater

/-! ## Rules that do not wait -/

/-- A rule that does not wait is lenient if it is kept before wherever it is kept in the end. -/
theorem lenient_of_allowsOpen {r : ChartRule} (hr : r ∈ all) (judges : r.allowsOpen = true)
    (mono : ∀ ctx p d c, p ∈ r.properties → d.HeadsFor ctx p c → r.isActive ctx.config = true →
      r.holds ctx c = .ok true → r.holds ctx d = .ok true) : r.Lenient := by
  intro ctx p d c hp h active
  have hend := h.valid r hr active
  rw [Rule.check_of_allowsOpen judges] at hend ⊢
  exact mono ctx p d c hp h active hend

theorem noRepeatedChannel_lenient : noRepeatedChannel.Lenient :=
  lenient_of_allowsOpen (by simp [all]) rfl fun _ _ _ _ hp h _ =>
    noRepeatedChannel_of_keptBy h.later.keptBy (Draft.KeptBy.keepsCounts (h.placed hp (by decide)))

theorem channelPermittedByMarkType_lenient : channelPermittedByMarkType.Lenient :=
  lenient_of_allowsOpen (by simp [all]) rfl fun _ _ _ _ hp h _ =>
    channelPermittedByMarkType_of_keptBy h.later.keptBy (Draft.KeptBy.keepsCounts (h.placed hp (by decide)))

theorem omitBarTickWithSize_lenient : omitBarTickWithSize.Lenient :=
  lenient_of_allowsOpen (by simp [all]) rfl fun _ _ _ _ hp h _ =>
    omitBarTickWithSize_of_keptBy h.later.keptBy (Draft.KeptBy.keepsCounts (h.placed hp (by decide))) h.coherent h.end_coherent

theorem omitMultipleNonPositionalChannels_lenient : omitMultipleNonPositionalChannels.Lenient :=
  lenient_of_allowsOpen (by simp [all]) rfl fun _ _ _ _ hp h _ =>
    omitMultipleNonPositionalChannels_of_keptBy h.later.keptBy (Draft.KeptBy.keepsCounts (h.placed hp (by decide)))

theorem omitVerticalDotPlot_lenient : omitVerticalDotPlot.Lenient :=
  lenient_of_allowsOpen (by simp [all]) rfl fun _ _ _ _ hp h _ =>
    omitVerticalDotPlot_of_keptBy h.later.keptBy (Draft.KeptBy.keepsCounts (h.placed hp (by decide)))

theorem omitAggregate_lenient : omitAggregate.Lenient :=
  lenient_of_allowsOpen (by simp [all]) rfl fun _ _ _ _ _ h _ => omitAggregate_of_keptBy h.later.keptBy

theorem omitRepeatedField_lenient : omitRepeatedField.Lenient :=
  lenient_of_allowsOpen (by simp [all]) rfl fun _ _ _ _ _ h _ => omitRepeatedField_of_keptBy h.later.keptBy

theorem omitRawContinuousFieldForAggregatePlot_lenient : omitRawContinuousFieldForAggregatePlot.Lenient :=
  lenient_of_allowsOpen (by simp [all]) rfl fun _ _ _ _ _ h _ =>
    omitRawContinuousFieldForAggregatePlot_of_keptBy h.later.keptBy

/-- When no count of rows is open any more, this is the choice for the last one, and the types come
first. -/
theorem autoAddCount_lenient : autoAddCount.Lenient := by
  refine lenient_of_allowsOpen (by simp [all]) rfl fun ctx p d c hp h active =>
    autoAddCount_of_keptBy h.later.keptBy h.coherent h.asBuilt
      fun _ hopen _ e _ he _ hfield hundecided => ?_
  have hlast : .autoCount ∈ p :: p.before := by
    by_contra hpending
    rw [h.counting active hpending] at hopen
    contradiction
  have hbefore : ∀ p ∈ autoAddCount.properties, .autoCount ∈ p :: p.before → .type ∈ p.before := by
    decide
  have htype : d.Resolved .type := h.resolved _ (hbefore p hp hlast) rfl
  refine absurd ((e.isOpen_iff _).mp hundecided) (htype e (List.mem_of_getElem? he) ?_)
  cases e with
  | field => rfl
  | value | autoCount => contradiction

/-! ## Rules that look at the scale type in effect -/

/-- The fields of a draft while a rule does not wait: what the rule is about is settled in them. -/
theorem field_standing_ne_of_waits {r : ChartRule} (gated : r.allowsOpen = false) {d : Draft}
    (hw : r.waits d = false) {p : Property} (hp : p ∈ r.properties) {q : FieldEncoding}
    (hq : q ∈ fields d) : q.standing p ≠ .undecided :=
  standing_ne_of_waits (e := .field q) gated hw hp
    (mem_active_of_not_frozen (Draft.mem_fields_iff.mp hq) rfl)

theorem onAxis_of_settles {q r : FieldEncoding} (h : Settles q.standing r.standing)
    (hq : onAxis q = true) : onAxis r = true := by
  unfold onAxis at hq ⊢
  rw [FieldEncoding.channel_value?_eq] at hq ⊢
  exact h.keeps (p := .channel) rfl
    (P := fun s => (s.value? : Option Channel).any Channel.isPositional = true) nofun hq

theorem omitBarAreaForLogScale_lenient : omitBarAreaForLogScale.Lenient := by
  refine lenient_of_onDraft (by simp [all]) rfl fun ctx p d c hp h _ hw hc => ?_
  have hc := hc (waits_of_later rfl (by decide) h.later hw)
  have hfields : ((fields d).any fun q => onAxis q && q.scale?.isSome && q.scaleType? == some .log) = true →
      ((fields c).any fun q => onAxis q && q.scale?.isSome && q.scaleType? == some .log) = true := by
    intro hany
    obtain ⟨q, hq, htest⟩ := List.any_eq_true.mp hany
    obtain ⟨r, hr, hs⟩ := h.later.keptBy.exists_field hq
    simp only [Bool.and_eq_true, beq_iff_eq] at htest
    have hscale := field_standing_ne_of_waits rfl hw (p := .scale) (by decide) hq
    have hpresent : r.scale?.isSome = true := by
      have hsome := htest.1.2
      rw [FieldEncoding.scale?_isSome_eq] at hsome ⊢
      rwa [hs.eq_of_top hscale rfl]
    refine List.any_eq_true.mpr ⟨r, hr, ?_⟩
    simp only [Bool.and_eq_true, beq_iff_eq]
    exact ⟨⟨onAxis_of_settles hs htest.1.1, hpresent⟩,
      FieldEncoding.scaleType?_of_settles hs hscale htest.2⟩
  cases hm : d.query.mark.value? with
  | none => simp
  | some m =>
    rw [h.later.keptBy.mark_value hm] at hc
    cases m with
    | bar | area =>
      rw [Bool.not_eq_true'] at hc
      by_contra hviolated
      rw [Bool.not_eq_true', Bool.not_eq_false] at hviolated
      rw [hfields hviolated] at hc
      contradiction
    | _ => rfl

theorem omitNonLinearScaleTypeWithStack_lenient : omitNonLinearScaleTypeWithStack.Lenient := by
  refine lenient_of_onDraft (by simp [all]) rfl fun ctx p d c hp h _ hw hc => ?_
  have hc := hc (waits_of_later rfl (by decide) h.later hw)
  have hagree : d.Agree [.mark, .channel, .aggregate, .autoCount] c := by
    have hsub : ∀ q ∈ [Property.mark, .channel, .aggregate, .autoCount],
        q ∈ omitNonLinearScaleTypeWithStack.properties ∧ q.parent? = none := by decide
    refine h.later.agree h.coherent h.end_coherent (fun _ => mark_of_waits rfl hw (by decide))
      fun e he hfrozen q hq => ⟨standing_ne_of_waits rfl hw (hsub q hq).1
        (mem_active_of_not_frozen he hfrozen), fun t ht => ?_⟩
    rw [(hsub q hq).2] at ht
    contradiction
  have hstack := hagree.stack? (by decide) (by decide) (by decide) (by decide)
  rw [Bool.or_eq_true] at hc ⊢
  rw [hstack]
  refine hc.imp_right fun hc => ?_
  rw [Bool.not_eq_true', List.any_eq_false] at hc ⊢
  intro q hq htest
  obtain ⟨r, hr, hs⟩ := h.later.keptBy.exists_field hq
  refine hc r hr ?_
  simp only [Bool.and_eq_true] at htest ⊢
  obtain ⟨⟨⟨hagg, htype⟩, haxis⟩, hscaleType⟩ := htest
  obtain ⟨op, hop⟩ := Option.isSome_iff_exists.mp hagg
  obtain ⟨t, ht, hne⟩ := (Option.any_eq_true _ _).mp hscaleType
  have hscale := field_standing_ne_of_waits rfl hw (p := .scale) (by decide) hq
  rw [FieldEncoding.aggregate?_of_settles hs hop, FieldEncoding.scaleType?_of_settles hs hscale ht]
  rw [FieldEncoding.type_is_eq] at htype ⊢
  exact ⟨⟨⟨rfl, hs.keeps (p := .type) rfl
    (P := fun s => s.value?.any (· == FieldType.quantitative) = true) nofun htype⟩,
    onAxis_of_settles hs haxis⟩, hne⟩

/-- No rule about charts says anything against a draft on its way to one that keeps all active
rules. -/
theorem lenient_of_mem {r : ChartRule} (h : r ∈ all) : r.Lenient := by
  have hr := h
  simp only [all, List.mem_cons, List.not_mem_nil, or_false] at h
  rcases h with rfl | rfl | rfl | rfl | rfl | rfl | rfl | rfl | rfl | rfl | rfl | rfl | rfl | rfl |
    rfl | rfl | rfl | rfl | rfl | rfl | rfl | rfl | rfl
  · exact noRepeatedChannel_lenient
  · exact lenient_of_dependsOn hr rfl alwaysIncludeZeroInScaleWithBarMark_dependsOn (by decide)
      (by decide)
  · exact autoAddCount_lenient
  · exact channelPermittedByMarkType_lenient
  · exact lenient_of_footprint hr (by decide) rfl (by decide) (by decide)
  · exact omitAggregate_lenient
  · exact lenient_of_footprint hr (by decide) rfl (by decide) (by decide)
  · exact lenient_of_footprint hr (by decide) rfl (by decide) (by decide)
  · exact lenient_of_footprint hr (by decide) rfl (by decide) (by decide)
  · exact omitBarTickWithSize_lenient
  · exact omitBarAreaForLogScale_lenient
  · exact lenient_of_footprint hr (by decide) rfl (by decide) (by decide)
  · exact omitMultipleNonPositionalChannels_lenient
  · exact lenient_of_footprint hr (by decide) rfl (by decide) (by decide)
  · exact lenient_of_footprint hr (by decide) rfl (by decide) (by decide)
  · exact omitRawContinuousFieldForAggregatePlot_lenient
  · exact lenient_of_footprint hr (by decide) rfl (by decide) (by decide)
  · exact omitRepeatedField_lenient
  · exact omitVerticalDotPlot_lenient
  · exact lenient_of_footprint hr (by decide) rfl (by decide) (by decide)
  · exact omitNonLinearScaleTypeWithStack_lenient
  · exact lenient_of_footprint hr (by decide) rfl (by decide) (by decide)
  · exact lenient_of_footprint hr (by decide) rfl (by decide) (by decide)

end ChartRule
end ChartAdvisor
