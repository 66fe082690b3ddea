import ChartAdvisor.Proofs.Draft.Progress
import ChartAdvisor.Proofs.Rules.Footprint

/-!
# What rules object to for good

Rules that do not wait judge what is half open. What they object to is there for good: a draft that keeps
what is settled in another one keeps such a rule only if the other one does. Some of these rules take a
slot that is open for one that is settled; of them this holds while no such slot is open.
-/
namespace ChartAdvisor

theorem Rule.check_of_allowsOpen {α : Type} [Judged α] {r : Rule α} (h : r.allowsOpen = true) (ctx : Context)
    (a : α) : r.check ctx a = r.holds ctx a := by
  rw [check, waits, h]
  rfl

/-- An objection of a rule that does not wait stands, if what it is raised against next kept the rule only
if this did, and the rule can judge it. -/
theorem Rule.check_eq_false {α : Type} [Judged α] {r : Rule α} (h : r.allowsOpen = true) {ctx : Context}
    {a b : α} (judged : ∃ v, r.holds ctx b = .ok v)
    (mono : r.holds ctx b = .ok true → r.holds ctx a = .ok true) (violated : r.check ctx a = .ok false) :
    r.check ctx b = .ok false := by
  rw [check_of_allowsOpen h] at violated ⊢
  obtain ⟨v, hv⟩ := judged
  cases v with
  | false => exact hv
  | true =>
    rw [mono hv] at violated
    contradiction

/-! ## Encodings -/

theorem Encoding.isDimension_field (q : FieldEncoding) : (Encoding.field q).isDimension =
    (q.type.value?.any FieldType.isDiscrete || q.isBinned || q.timeUnit?.isSome) := rfl

namespace EncodingRule

variable {ctx : Context} {slots slots' : OpenSlots} {e f : Encoding} {q r : FieldEncoding}

/-- Of a rule that tests fields it is enough to look at the test. -/
theorem holds_of_onField {k : EncodingRule} {test : FieldEncoding → Bool} (hk : k.holds = onField test)
    (h : e.MoreResolved f)
    (mono : ∀ q r, e = .field q → f = .field r → Settles q.standing r.standing → test r = true →
      test q = true)
    (hf : k.holds ctx ⟨f, slots'⟩ = .ok true) : k.holds ctx ⟨e, slots⟩ = .ok true := by
  rw [hk] at hf ⊢
  cases e with
  | value | autoCount => rfl
  | field q =>
    obtain ⟨r, rfl, hs⟩ := h.field
    exact congrArg Except.ok (mono q r rfl rfl hs (Except.ok.inj hf))

/-- A field that is settled to be a measure stays one, unless a time unit makes a dimension of numbers or
bins make one of times. -/
theorem measure_of_settles (hs : Settles q.standing r.standing)
    (hunit : r.timeUnit?.isSome = true → r.type.is .temporal = true ∨ q.standing .timeUnit ≠ .undecided)
    (hbin : r.isBinned = true → r.type.is .quantitative = true ∨ q.standing .bin ≠ .undecided)
    (hrole : roleIsOpen q = false) (hdim : (Encoding.field q).isDimension = false) :
    roleIsOpen r = false ∧ (Encoding.field r).isDimension = false := by
  unfold roleIsOpen at hrole ⊢
  rw [Encoding.isDimension_field] at hdim ⊢
  cases ht : q.type.value? with
  | none => rw [ht] at hrole; contradiction
  | some t =>
    have htype := FieldEncoding.type_of_settles hs ht
    have his (u : FieldType) : r.type.is u = (t == u) := by
      rw [FieldEncoding.type_is_eq, ← FieldEncoding.type_value?_eq, htype]
      rfl
    rw [ht] at hrole hdim
    rw [htype]
    simp only [his] at hunit hbin
    simp only [Option.any_some, Bool.or_eq_false_iff] at hdim ⊢
    obtain ⟨⟨hdiscrete, hbinned⟩, hplain⟩ := hdim
    have hbinned' (hclosed : q.standing .bin ≠ .undecided) : r.isBinned = false := by
      rwa [FieldEncoding.isBinned_eq, hs.eq_of_top hclosed rfl, ← FieldEncoding.isBinned_eq]
    have hplain' (hclosed : q.standing .timeUnit ≠ .undecided) : r.timeUnit?.isSome = false := by
      rwa [FieldEncoding.timeUnit?_eq, hs.eq_of_top hclosed rfl, ← FieldEncoding.timeUnit?_eq]
    cases t with
    | nominal | ordinal => contradiction
    | quantitative =>
      have hclosed : q.standing .bin ≠ .undecided := by
        rw [FieldEncoding.binIsOpen_eq] at hrole
        simpa using hrole
      refine ⟨?_, ⟨rfl, hbinned' hclosed⟩, ?_⟩
      · rwa [FieldEncoding.binIsOpen_eq, hs.eq_of_top hclosed rfl, ← FieldEncoding.binIsOpen_eq]
      · by_contra hu
        rcases hunit (eq_true_of_ne_false hu) with htemporal | hclosed'
        · contradiction
        · exact hu (hplain' hclosed')
    | temporal =>
      have hclosed : q.standing .timeUnit ≠ .undecided := by
        rw [FieldEncoding.timeUnit_isOpen_eq] at hrole
        simpa using hrole
      refine ⟨?_, ⟨rfl, ?_⟩, hplain' hclosed⟩
      · rwa [FieldEncoding.timeUnit_isOpen_eq, hs.eq_of_top hclosed rfl, ← FieldEncoding.timeUnit_isOpen_eq]
      · by_contra hb
        rcases hbin (eq_true_of_ne_false hb) with hquantitative | hclosed'
        · contradiction
        · exact hb (hbinned' hclosed')

/-- A measure is not admitted where only dimensions go, unless a time unit or bins make a dimension of it. -/
theorem channelSupportsRole_of_moreResolved (h : e.MoreResolved f)
    (hunit : ∀ r, f = .field r → r.timeUnit?.isSome = true →
      r.type.is .temporal = true ∨ e.standing .timeUnit ≠ .undecided)
    (hbin : ∀ r, f = .field r → r.isBinned = true →
      r.type.is .quantitative = true ∨ e.standing .bin ≠ .undecided)
    (hf : channelSupportsRole.holds ctx ⟨f, slots'⟩ = .ok true) :
    channelSupportsRole.holds ctx ⟨e, slots⟩ = .ok true := by
  have hf := Except.ok.inj hf
  refine congrArg Except.ok ?_
  cases hc : e.channel? with
  | none => rfl
  | some c =>
    have hc' : f.channel? = some c := by
      rw [Encoding.channel?_eq] at hc ⊢
      exact h.settles.keeps rfl (P := fun s => s.value? = some c) nofun hc
    rw [hc'] at hf
    cases e with
    | value => rfl
    | autoCount =>
      cases f with
      | autoCount => exact hf
      | field | value => exact absurd h.kind nofun
    | field q =>
      obtain ⟨r, rfl, hs⟩ := h.field
      by_contra hviolated
      simp only [Bool.or_eq_true, not_or, Bool.not_eq_true] at hviolated
      obtain ⟨⟨hrole, hdim⟩, hsupports⟩ := hviolated
      obtain ⟨hrole', hdim'⟩ := measure_of_settles hs (hunit r rfl) (hbin r rfl) hrole hdim
      simp only [hrole', hdim', hsupports, Bool.or_false, Bool.false_eq_true] at hf

theorem hasFn_of_moreResolved (h : e.MoreResolved f) (hf : hasFn.holds ctx ⟨f, slots'⟩ = .ok true) :
    hasFn.holds ctx ⟨e, slots⟩ = .ok true := by
  refine holds_of_onField rfl h (fun q r _ _ hs hr => ?_) hf
  by_contra hviolated
  simp only [Bool.or_eq_true, Bool.not_eq_true', not_or, Bool.not_eq_false, Bool.not_eq_true] at hviolated
  obtain ⟨⟨⟨hfunction, haggregate⟩, hbin⟩, hunit⟩ := hviolated
  have hfunction' : r.hasFunction = true := by
    rw [FieldEncoding.hasFunction_eq] at hfunction ⊢
    exact hs.keeps rfl (P := fun s => s.isOn = true) nofun hfunction
  simp [hfunction', FieldEncoding.mayAggregate_of_settles hs haggregate,
    FieldEncoding.binIsPresent_of_settles hs hbin,
    FieldEncoding.mayHaveTimeUnit_of_settles hs hunit] at hr

theorem onlyOneTypeOfFunction_of_moreResolved (h : e.MoreResolved f)
    (hf : onlyOneTypeOfFunction.holds ctx ⟨f, slots'⟩ = .ok true) :
    onlyOneTypeOfFunction.holds ctx ⟨e, slots⟩ = .ok true := by
  refine holds_of_onField rfl h (fun q r _ _ hs hr => ?_) hf
  have haggregate : q.aggregate?.isSome = true → r.aggregate?.isSome = true := by
    intro ha
    obtain ⟨op, ha⟩ := Option.isSome_iff_exists.mp ha
    rw [FieldEncoding.aggregate?_of_settles hs ha]
    rfl
  have hunit : q.timeUnit?.isSome = true → r.timeUnit?.isSome = true := by
    intro hu
    obtain ⟨unit, hu⟩ := Option.isSome_iff_exists.mp hu
    rw [FieldEncoding.timeUnit?_of_settles hs hu]
    rfl
  have hbin : q.isBinned = true → r.isBinned = true := FieldEncoding.isBinned_of_settles hs
  revert hr haggregate hunit hbin
  generalize q.aggregate?.isSome = a, q.isBinned = b, q.timeUnit?.isSome = c,
    r.aggregate?.isSome = a', r.isBinned = b', r.timeUnit?.isSome = c'
  revert a b c a' b' c'
  decide

/-! ### Scales -/

theorem standing_scale_ne {s : Scale} (hs : q.scaleOn? = some s) : q.standing .scale ≠ .undecided := by
  have hon : (q.standing .scale).isOn = true := by
    rw [← FieldEncoding.scaleOn?_isSome_eq, hs]
    rfl
  intro hopen
  rw [hopen] at hon
  contradiction

/-- The parts of a scale that is on are those whose slots are not absent. -/
theorem mem_setParts_iff {s : Scale} (hs : q.scaleOn? = some s) {p : ScaleProperty} :
    p ∈ setParts s ↔ p ≠ .type ∧ q.standing (.scaleOf p) ≠ .absent := by
  have hall : p ∈ (Vocabulary.all : List ScaleProperty) := by cases p <;> decide
  unfold setParts
  rw [List.mem_filter, FieldEncoding.has_part_eq q (FieldEncoding.scale?_of_scaleOn? q hs)]
  simp [hall]

/-- What is set in a scale that is on stays set, but for an open domain or range that vanishes. -/
theorem mem_setParts_of_settles (h : Settles q.standing r.standing) {s s' : Scale}
    (hs : q.scaleOn? = some s) (hs' : r.scaleOn? = some s') {p : ScaleProperty} (hp : p ∈ setParts s)
    (stays : (Property.scaleOf p).canVanish = true → q.standing (.scaleOf p) = .undecided →
      r.standing (.scaleOf p) ≠ .absent) : p ∈ setParts s' := by
  rw [mem_setParts_iff hs] at hp
  rw [mem_setParts_iff hs']
  refine ⟨hp.1, ?_⟩
  by_cases hvanish : (Property.scaleOf p).canVanish = true ∧ q.standing (.scaleOf p) = .undecided
  · exact stays hvanish.1 hvanish.2
  · refine h.ne_absent hp.2 (fun hopen => ?_) fun r hr => by cases hr; exact standing_scale_ne hs
    exact Bool.eq_false_iff.mpr fun hv => hvanish ⟨hv, hopen⟩

/-- Every scale type supports domains and ranges, so it does not matter that these may vanish. -/
theorem scalePropertiesSupportedByScaleType_of_moreResolved (h : e.MoreResolved f)
    (hf : scalePropertiesSupportedByScaleType.holds ctx ⟨f, slots'⟩ = .ok true) :
    scalePropertiesSupportedByScaleType.holds ctx ⟨e, slots⟩ = .ok true := by
  refine holds_of_onField rfl h (fun q r _ _ hs hr => ?_) hf
  cases hscale : q.scaleOn? with
  | none => rfl
  | some s =>
    cases htype : q.scaleType? with
    | none => rfl
    | some t =>
      obtain ⟨s', hscale'⟩ := Option.isSome_iff_exists.mp
        (FieldEncoding.scaleOn?_of_settles hs (by rw [hscale]; rfl))
      rw [hscale', FieldEncoding.scaleType?_of_settles hs (standing_scale_ne hscale) htype] at hr
      refine List.all_eq_true.mpr fun p hp => ?_
      by_cases hvanish : p = .domain ∨ p = .range
      · rcases hvanish with rfl | rfl <;> rfl
      · refine List.all_eq_true.mp hr p (mem_setParts_of_settles hs hscale hscale' hp fun hv => ?_)
        exact absurd (by simpa [Property.canVanish, Property.holdsSettings] using hv) hvanish

/-- Every channel supports domains, but not every one ranges, and an open range may vanish. -/
theorem scalePropertiesSupportedByChannel_of_moreResolved (h : e.MoreResolved f)
    (hrange : e.standing .scale ≠ .undecided → e.standing (.scaleOf .range) = .undecided →
      f.standing (.scaleOf .range) ≠ .absent)
    (hf : scalePropertiesSupportedByChannel.holds ctx ⟨f, slots'⟩ = .ok true) :
    scalePropertiesSupportedByChannel.holds ctx ⟨e, slots⟩ = .ok true := by
  refine holds_of_onField rfl h (fun q r he hf hs hr => ?_) hf
  subst he hf
  cases hchannel : q.channel.value? with
  | none => rfl
  | some c =>
    cases hscale : q.scaleOn? with
    | none => rfl
    | some s =>
      obtain ⟨s', hscale'⟩ := Option.isSome_iff_exists.mp
        (FieldEncoding.scaleOn?_of_settles hs (by rw [hscale]; rfl))
      rw [hscale', FieldEncoding.channel_of_settles hs hchannel] at hr
      simp only [Bool.and_eq_true, List.all_eq_true] at hr ⊢
      refine ⟨hr.1, fun p hp => ?_⟩
      by_cases hdomain : p = .domain
      · subst hdomain
        rfl
      · refine hr.2 p (mem_setParts_of_settles hs hscale hscale' hp fun hv hopen => ?_)
        obtain rfl : p = .range := by
          simpa [Property.canVanish, Property.holdsSettings, hdomain] using hv
        exact hrange (standing_scale_ne hscale) hopen

end EncodingRule

/-! ## Drafts -/

/-- A slot that lies in no other one stands as it did, if it is open as long as it is open. -/
theorem Encoding.MoreResolved.agree_of_stays {e f : Encoding} (h : e.MoreResolved f) {p : Property}
    (top : p.parent? = none) (stays : e.isOpen p = true → f.isOpen p = true) : e.Agree [p] f := by
  refine ⟨h.kind, fun q hq => ?_⟩
  obtain rfl := List.mem_singleton.mp hq
  by_cases hopen : e.isOpen q = true
  · rw [(e.isOpen_iff q).mp hopen, (f.isOpen_iff q).mp (stays hopen)]
  · exact h.standing_eq (Bool.eq_false_iff.mpr hopen) (by simp [top])

/-- An encoding keeps its channel in use, unless it is a count of rows that is switched off after all. -/
theorem Encoding.MoreResolved.countedChannel? {e f : Encoding} (h : e.MoreResolved f)
    (hcount : e.isOpen .autoCount = true → e.isOpen .channel = true ∨ f.isOpen .autoCount = true)
    {c : Channel} (hc : e.countedChannel? = some c) : f.countedChannel? = some c := by
  have hchannel : e.isOpen .channel = false := by
    have hvalue : e.channel? = some c := by
      unfold Encoding.countedChannel? at hc
      split at hc
      · contradiction
      · exact hc
    rw [Encoding.channel?_eq] at hvalue
    rw [← Bool.not_eq_true, Encoding.isOpen_iff]
    intro hopen
    rw [hopen] at hvalue
    contradiction
  have hstays : e.isOpen .autoCount = true → f.isOpen .autoCount = true := fun hopen =>
    (hcount hopen).resolve_left (by rw [hchannel]; exact Bool.false_ne_true)
  rw [← hc]
  exact (countedChannel?_congr h.kind (h.standing_eq hchannel (by simp [Property.parent?]))
    ((h.agree_of_stays rfl hstays).standing _ (List.mem_singleton_self _))).symm

namespace Draft

variable {d c : Draft}

/-- No count of rows that has a channel is settled on the way from a draft to another one. -/
def KeepsCounts (d c : Draft) : Prop :=
  ∀ i e f, d.encoding? i = some e → c.encoding? i = some f → e.isOpen .autoCount = true →
    e.isOpen .channel = true ∨ f.isOpen .autoCount = true

/-- Some count of rows may still be switched on. -/
def countsOpen (d : Draft) : Bool :=
  (d.slots.indices .autoCount).any fun i => (d.encoding? i).any (·.isOpen .autoCount)

/-- A count of rows that is open was open when the draft was built, so that it is among the open slots. -/
theorem countsOpen_of_isOpen (hd : d.Coherent) (built : d.OpenAsBuilt) {e : Encoding}
    (he : e ∈ d.query.encodings) (hopen : e.isOpen .autoCount = true) : d.countsOpen = true := by
  obtain ⟨i, hi⟩ := List.mem_iff_getElem?.mp he
  obtain ⟨o, ho⟩ := hd.exists_origin (i := i) hi
  refine List.any_eq_true.mpr ⟨i, hd.mem_indices ho (built i e o hi ho .autoCount hopen), ?_⟩
  rw [show d.encoding? i = some e from hi]
  exact hopen

theorem mem_active_iff {e : Encoding} :
    e ∈ d.active ↔ e ∈ d.query.encodings ∧ e.isDisabledAutoCount = false := by
  unfold active ChartQuery.active
  simp

theorem mem_fields_iff {q : FieldEncoding} :
    q ∈ ChartRule.fields d ↔ .field q ∈ d.query.encodings := by
  unfold ChartRule.fields
  rw [Agree.filterMap_field?_active, List.mem_filterMap]
  constructor
  · rintro ⟨e, he, hq⟩
    cases e with
    | field r => rwa [← Option.some.inj hq]
    | value | autoCount => contradiction
  · exact fun h => ⟨_, h, rfl⟩

/-- The channels in use are those that are counted. -/
theorem channels_eq (d : Draft) :
    ChartRule.channels d = d.query.encodings.filterMap Encoding.countedChannel? := by
  unfold ChartRule.channels active ChartQuery.active
  rw [List.filterMap_filter]
  refine congrArg (List.filterMap · _) (funext fun e => ?_)
  unfold Encoding.countedChannel?
  cases e.isDisabledAutoCount <;> rfl

namespace KeptBy

/-- Every field is there later, with the same slots settled. -/
theorem exists_field (h : d.KeptBy c) {q : FieldEncoding} (hq : q ∈ ChartRule.fields d) :
    ∃ r ∈ ChartRule.fields c, Settles q.standing r.standing := by
  obtain ⟨f, hf, hmore⟩ := exists_of_forall₂ h.encodings (mem_fields_iff.mp hq)
  obtain ⟨r, rfl, hs⟩ := hmore.field
  exact ⟨r, mem_fields_iff.mpr hf, hs⟩

/-- A mark that is chosen stays chosen. -/
theorem mark_value (h : d.KeptBy c) {m : Mark} (hm : d.query.mark.value? = some m) :
    c.query.mark.value? = some m := by
  have hclosed : d.query.mark.isOpen = false := by
    cases hmark : d.query.mark with
    | fixed v => rfl
    | wild w => rw [hmark] at hm; contradiction
  rw [← h.mark hclosed, hm]

/-- The encodings side by side, with what is known of each pair of them. -/
theorem forall₂ (h : d.KeptBy c) {P : Encoding → Encoding → Prop}
    (hP : ∀ i e f, d.encoding? i = some e → c.encoding? i = some f → e.MoreResolved f → P e f) :
    List.Forall₂ P d.query.encodings c.query.encodings := by
  refine forall₂_of_getElem?_rel fun i => ?_
  have hi := getElem?_rel_of_forall₂ h.encodings i
  have hP := hP i
  rw [show d.encoding? i = d.query.encodings[i]? from rfl,
    show c.encoding? i = c.query.encodings[i]? from rfl] at hP
  generalize d.query.encodings[i]? = a, c.query.encodings[i]? = b at hi hP
  cases hi with
  | none => exact .none
  | some hef => exact .some (hP _ _ rfl rfl hef)

/-- The encodings that play a part, if the counts of rows stand as they did. -/
theorem active (h : d.KeptBy c) (stays : ∀ i e f, d.encoding? i = some e → c.encoding? i = some f →
      e.isOpen .autoCount = true → f.isOpen .autoCount = true) :
    List.Forall₂ (fun e f => e.MoreResolved f ∧ e.Agree [.autoCount] f) d.active c.active := by
  have hboth := h.forall₂ (P := fun e f => e.MoreResolved f ∧ e.Agree [.autoCount] f)
    fun i e f he hf hef => ⟨hef, hef.agree_of_stays rfl (stays i e f he hf)⟩
  exact filter_rel_of_forall₂ hboth fun e f hef => by rw [hef.2.isDisabledAutoCount (by decide)]

/-- Nothing is known to have been switched off where no count of rows that is open has a channel. -/
theorem keepsCounts
    (placed : ∀ e ∈ d.query.encodings, e.isOpen .autoCount = true → e.isOpen .channel = true) :
    d.KeepsCounts c :=
  fun _ e _ he _ hopen => .inl (placed e (List.mem_of_getElem? he) hopen)

/-- Channels that are in use stay in use, but for counts of rows that are switched off after all. -/
theorem channels (h : d.KeptBy c) (hcounts : d.KeepsCounts c) :
    (ChartRule.channels d).Sublist (ChartRule.channels c) := by
  rw [channels_eq, channels_eq]
  exact sublist_filterMap_of_forall₂ (h.forall₂ fun i e f he hf hef ch =>
    hef.countedChannel? (hcounts i e f he hf)) fun _ _ hch => hch

theorem channelUsed (h : d.KeptBy c) (hd : d.Coherent) (hc : c.Coherent) (hcounts : d.KeepsCounts c)
    {ch : Channel} (hused : d.channelUsed ch = true) : c.channelUsed ch = true := by
  have hle := (h.channels hcounts).count_le ch
  unfold Draft.channelUsed at hused ⊢
  rw [decide_eq_true_eq] at hused ⊢
  rw [hd.counts, occupancy_eq_count, ← channels_eq] at hused
  rw [hc.counts, occupancy_eq_count, ← channels_eq]
  omega

theorem isAggregate (h : d.KeptBy c) (ha : d.isAggregate = true) : c.isAggregate = true := by
  obtain ⟨e, he, hagg⟩ := List.any_eq_true.mp ha
  obtain ⟨f, hf, hef⟩ := exists_of_forall₂ h.encodings he
  refine List.any_eq_true.mpr ⟨f, hf, ?_⟩
  cases e with
  | value => contradiction
  | field q =>
    obtain ⟨r, rfl, hs⟩ := hef.field
    obtain ⟨op, hop⟩ := Option.isSome_iff_exists.mp hagg
    exact Option.isSome_iff_exists.mpr ⟨op, FieldEncoding.aggregate?_of_settles hs hop⟩
  | autoCount ch b =>
    cases f with
    | field | value => exact absurd hef.kind nofun
    | autoCount ch' b' => exact hef.isEnabledAutoCount hagg

/-- No count of rows comes open that was not. -/
theorem countsOpen (h : d.KeptBy c) (hc : c.countsOpen = true) : d.countsOpen = true := by
  obtain ⟨i, hi, hopen⟩ := List.any_eq_true.mp hc
  obtain ⟨f, hf, hopen⟩ := (Option.any_eq_true _ _).mp hopen
  have hrel := getElem?_rel_of_forall₂ h.encodings i
  rw [show c.query.encodings[i]? = some f from hf] at hrel
  cases he : d.query.encodings[i]? with
  | none => rw [he] at hrel; exact absurd hrel nofun
  | some e =>
    rw [he] at hrel
    cases hrel with
    | some hef =>
      refine List.any_eq_true.mpr ⟨i, h.slots ▸ hi, (Option.any_eq_true _ _).mpr ⟨e, he, ?_⟩⟩
      by_contra hclosed
      rw [hef.isOpen_eq_false rfl (Bool.eq_false_iff.mpr hclosed)] at hopen
      contradiction

end KeptBy
end Draft

namespace ChartRule

variable {ctx : Context} {d c : Draft}

/-- Of a rule that tests drafts it is enough to look at the test. -/
theorem holds_of_onDraft {k : ChartRule} {test : Draft → Bool} (hk : k.holds = onDraft test)
    (mono : test c = true → test d = true) (hc : k.holds ctx c = .ok true) : k.holds ctx d = .ok true := by
  rw [hk] at hc ⊢
  exact congrArg Except.ok (mono (Except.ok.inj hc))

/-! ### Channels in use -/

section Channels

variable (h : d.KeptBy c) (hcounts : d.KeepsCounts c)

include h hcounts

theorem noRepeatedChannel_of_keptBy (hc : noRepeatedChannel.holds ctx c = .ok true) :
    noRepeatedChannel.holds ctx d = .ok true := by
  refine holds_of_onDraft rfl (fun hc => ?_) hc
  exact decide_eq_true ((of_decide_eq_true hc).sublist (h.channels hcounts))

theorem channelPermittedByMarkType_of_keptBy
    (hc : channelPermittedByMarkType.holds ctx c = .ok true) :
    channelPermittedByMarkType.holds ctx d = .ok true := by
  refine holds_of_onDraft rfl (fun hc => ?_) hc
  cases hm : d.query.mark.value? with
  | none => rfl
  | some m =>
    rw [h.mark_value hm] at hc
    exact List.all_eq_true.mpr fun ch hch => List.all_eq_true.mp hc ch ((h.channels hcounts).subset hch)

theorem omitBarTickWithSize_of_keptBy (hd : d.Coherent) (hcoherent : c.Coherent)
    (hc : omitBarTickWithSize.holds ctx c = .ok true) : omitBarTickWithSize.holds ctx d = .ok true := by
  have hsize : c.channelUsed .size = false → d.channelUsed .size = false := by
    intro hunused
    by_contra hused
    rw [h.channelUsed hd hcoherent hcounts (eq_true_of_ne_false hused)] at hunused
    contradiction
  refine holds_of_onDraft rfl (fun hc => ?_) hc
  cases hm : d.query.mark.value? with
  | none => rfl
  | some m =>
    rw [h.mark_value hm] at hc
    cases m with
    | bar | tick =>
      rw [Bool.not_eq_true'] at hc
      simpa using hsize hc
    | _ => rfl

theorem omitMultipleNonPositionalChannels_of_keptBy
    (hc : omitMultipleNonPositionalChannels.holds ctx c = .ok true) :
    omitMultipleNonPositionalChannels.holds ctx d = .ok true := by
  have hle := ((h.channels hcounts).filter fun c => c == .color || c == .shape || c == .size).length_le
  exact holds_of_onDraft rfl (fun hc => decide_eq_true (Nat.le_trans hle (of_decide_eq_true hc))) hc

/-- A single encoding that sits on y plays its part for good, and no other one comes to play a part. -/
theorem omitVerticalDotPlot_of_keptBy (hc : omitVerticalDotPlot.holds ctx c = .ok true) :
    omitVerticalDotPlot.holds ctx d = .ok true := by
  refine holds_of_onDraft rfl (fun hc => ?_) hc
  cases hactive : d.active with
  | nil => rfl
  | cons e rest =>
    cases rest with
    | cons => rfl
    | nil =>
      by_contra hviolated
      have hy : e.channel.is .y = true := by simpa using hviolated
      rw [Encoding.channel_is_eq] at hy
      have stays (i : Nat) (e' f : Encoding) (he' : d.encoding? i = some e') (hf : c.encoding? i = some f)
          (hopen : e'.isOpen .autoCount = true) : f.isOpen .autoCount = true := by
        have hmem : e' ∈ d.active := Draft.mem_active_iff.mpr ⟨List.mem_of_getElem? he', by
          rw [Encoding.isDisabledAutoCount_eq, (e'.isOpen_iff _).mp hopen]
          exact Bool.and_false _⟩
        rw [hactive, List.mem_singleton] at hmem
        subst hmem
        refine (hcounts i e' f he' hf hopen).resolve_left fun hchannel => ?_
        rw [(e'.isOpen_iff _).mp hchannel] at hy
        contradiction
      have hlater := h.active stays
      rw [hactive] at hlater
      cases hlater' : c.active with
      | nil => rw [hlater'] at hlater; contradiction
      | cons f rest =>
        rw [hlater'] at hlater
        cases hlater with
        | cons hef hrest =>
          cases hrest
          simp only [hlater', Bool.not_eq_true', Encoding.channel_is_eq] at hc
          rw [hef.1.settles.keeps rfl (P := fun s => s.value?.any (· == Channel.y) = true) nofun hy] at hc
          contradiction

end Channels

/-! ### Functions and names -/

theorem omitAggregate_of_keptBy (h : d.KeptBy c) (hc : omitAggregate.holds ctx c = .ok true) :
    omitAggregate.holds ctx d = .ok true := by
  refine holds_of_onDraft rfl (fun hc => ?_) hc
  rw [Bool.not_eq_true'] at hc ⊢
  by_contra hagg
  rw [h.isAggregate (eq_true_of_ne_false hagg)] at hc
  contradiction

theorem omitRepeatedField_of_keptBy (h : d.KeptBy c) (hc : omitRepeatedField.holds ctx c = .ok true) :
    omitRepeatedField.holds ctx d = .ok true := by
  have hnames (d : Draft) : (fields d).filterMap (fun q => q.field.value?) =
      d.query.encodings.filterMap fun e => e.field?.bind fun q => q.field.value? := by
    unfold fields
    rw [Draft.Agree.filterMap_field?_active, List.filterMap_filterMap]
  have hsub : ((fields d).filterMap fun q => q.field.value?).Sublist
      ((fields c).filterMap fun q => q.field.value?) := by
    rw [hnames, hnames]
    refine sublist_filterMap_of_forall₂ h.encodings fun e f hef name hname => ?_
    cases e with
    | value | autoCount => contradiction
    | field q =>
      obtain ⟨r, rfl, hs⟩ := hef.field
      exact FieldEncoding.field_of_settles hs hname
  exact holds_of_onDraft rfl (fun hc => decide_eq_true ((of_decide_eq_true hc).sublist hsub)) hc

theorem omitRawContinuousFieldForAggregatePlot_of_keptBy (h : d.KeptBy c)
    (hc : omitRawContinuousFieldForAggregatePlot.holds ctx c = .ok true) :
    omitRawContinuousFieldForAggregatePlot.holds ctx d = .ok true := by
  refine holds_of_onDraft rfl (fun hc => ?_) hc
  rw [Bool.or_eq_true]
  by_cases hagg : d.isAggregate = true
  · right
    rw [h.isAggregate hagg, Bool.not_true, Bool.false_or] at hc
    refine List.all_eq_true.mpr fun q hq => ?_
    obtain ⟨r, hr, hs⟩ := h.exists_field hq
    have hr := List.all_eq_true.mp hc r hr
    cases ht : q.type.value? with
    | none => rfl
    | some t =>
      rw [FieldEncoding.type_of_settles hs ht] at hr
      cases t with
      | nominal | ordinal => rfl
      | temporal =>
        by_contra hu
        rw [FieldEncoding.mayHaveTimeUnit_of_settles hs (Bool.eq_false_iff.mpr hu)] at hr
        contradiction
      | quantitative =>
        by_contra hb
        rw [Bool.not_eq_true, Bool.or_eq_false_iff] at hb
        rw [FieldEncoding.binIsPresent_of_settles hs hb.1,
          FieldEncoding.mayAggregate_of_settles hs hb.2] at hr
        contradiction
  · left
    rw [Bool.not_eq_true', ← Bool.not_eq_true]
    exact hagg

/-! ### Counts of rows -/

/-- What may not become discrete never does. -/
theorem mayBeDiscrete_of_moreResolved {e f : Encoding} (h : e.MoreResolved f)
    (he : mayBeDiscrete e = false) : mayBeDiscrete f = false := by
  cases e with
  | value | autoCount => contradiction
  | field q =>
    obtain ⟨r, rfl, hs⟩ := h.field
    cases ht : q.type.value? with
    | none => simp [mayBeDiscrete, ht] at he
    | some t =>
      simp only [mayBeDiscrete, ht, FieldEncoding.type_of_settles hs ht] at he ⊢
      cases t with
      | nominal | ordinal => contradiction
      | quantitative => exact FieldEncoding.binIsPresent_of_settles hs he
      | temporal => exact FieldEncoding.mayHaveTimeUnit_of_settles hs he

/-- What is raw and continuous in the end was so before, if its type is open as long as it is open. -/
theorem isRawContinuous_of_moreResolved {e f : Encoding} (h : e.MoreResolved f)
    (htype : e.field?.isSome = true → e.isOpen .type = true → f.isOpen .type = true)
    (hf : isRawContinuous f = true) : isRawContinuous e = true := by
  cases f with
  | value | autoCount => contradiction
  | field r =>
    cases e with
    | value | autoCount => exact absurd h.kind nofun
    | field q =>
      have hs : Settles q.standing r.standing := h.settles
      have hstands := (h.agree_of_stays rfl (htype rfl)).standing .type (List.mem_singleton_self _)
      have htype' : r.type.value? = q.type.value? := by
        rw [FieldEncoding.type_value?_eq, FieldEncoding.type_value?_eq]
        exact congrArg _ hstands.symm
      simp only [isRawContinuous, htype'] at hf ⊢
      split at hf
      · rw [Bool.not_eq_true'] at hf ⊢
        by_contra hb
        rw [FieldEncoding.isBinned_of_settles hs (eq_true_of_ne_false hb)] at hf
        contradiction
      · by_contra hu
        rw [Option.isNone_iff_eq_none] at hu
        obtain ⟨unit, hu⟩ := Option.ne_none_iff_exists'.mp hu
        rw [FieldEncoding.timeUnit?_of_settles hs hu] at hf
        contradiction
      · contradiction

/-- Beside a count of rows an encoding that may not become discrete is never allowed. Without one, there is
a raw continuous field if there will be one, unless a type is settled on the way. -/
theorem autoAddCount_of_keptBy (h : d.KeptBy c) (hd : d.Coherent) (built : d.OpenAsBuilt)
    (htype : d.active.any Encoding.isEnabledAutoCount = false → d.countsOpen = false →
      ∀ i e f, d.encoding? i = some e → c.encoding? i = some f → e.field?.isSome = true →
        e.isOpen .type = true → f.isOpen .type = true)
    (hc : autoAddCount.holds ctx c = .ok true) : autoAddCount.holds ctx d = .ok true := by
  refine holds_of_onDraft rfl (fun hc => ?_) hc
  change (if c.active.any Encoding.isEnabledAutoCount = true then c.active.all mayBeDiscrete
      else if c.countsOpen = true then true else c.active.any isRawContinuous) = true at hc
  show (if d.active.any Encoding.isEnabledAutoCount = true then d.active.all mayBeDiscrete
      else if d.countsOpen = true then true else d.active.any isRawContinuous) = true
  by_cases hen : d.active.any Encoding.isEnabledAutoCount = true
  · obtain ⟨e, he, heen⟩ := List.any_eq_true.mp hen
    obtain ⟨f, hf, hef⟩ := exists_of_forall₂ h.encodings (Draft.mem_active_iff.mp he).1
    have hfen := hef.isEnabledAutoCount heen
    have hfactive : f ∈ c.active := Draft.mem_active_iff.mpr ⟨hf, by
      cases f with
      | field | value => contradiction
      | autoCount ch b => rcases b with (_ | _) | _ <;> first | contradiction | rfl⟩
    rw [if_pos (List.any_eq_true.mpr ⟨f, hfactive, hfen⟩)] at hc
    rw [if_pos hen]
    refine List.all_eq_true.mpr fun e he => ?_
    by_contra hdiscrete
    obtain ⟨f, hf, hef⟩ := exists_of_forall₂ h.encodings (Draft.mem_active_iff.mp he).1
    have hfdiscrete := mayBeDiscrete_of_moreResolved hef (Bool.eq_false_iff.mpr hdiscrete)
    have hfactive : f ∈ c.active := Draft.mem_active_iff.mpr ⟨hf, by
      cases f with
      | field => rfl
      | value | autoCount => contradiction⟩
    rw [List.all_eq_true.mp hc f hfactive] at hfdiscrete
    contradiction
  · rw [if_neg hen]
    by_cases hopen : d.countsOpen = true
    · rw [if_pos hopen]
    · rw [if_neg hopen]
      have hclosed : ∀ e ∈ d.query.encodings, e.isOpen .autoCount = false := fun e he => by
        rw [← Bool.not_eq_true]
        exact fun ho => hopen (Draft.countsOpen_of_isOpen hd built he ho)
      have hactive := h.active fun i e _ he _ ho =>
        absurd ho (by rw [hclosed e (List.mem_of_getElem? he)]; exact Bool.false_ne_true)
      have hen' : d.active.any Encoding.isEnabledAutoCount = c.active.any Encoding.isEnabledAutoCount :=
        any_eq_of_forall₂ hactive fun _ _ hef => hef.2.isEnabledAutoCount (by decide)
      rw [← hen', if_neg hen, if_neg fun ho => hopen (h.countsOpen ho)] at hc
      rw [Bool.not_eq_true] at hen hopen
      have hraws := h.forall₂ (P := fun e f => isRawContinuous f = true → isRawContinuous e = true)
        fun i e f he hf hef => isRawContinuous_of_moreResolved hef (htype hen hopen i e f he hf)
      obtain ⟨f, hf, hraw⟩ := List.any_eq_true.mp hc
      obtain ⟨e, he, hback⟩ := exists_of_forall₂ hraws.flip (Draft.mem_active_iff.mp hf).1
      refine List.any_eq_true.mpr ⟨e, Draft.mem_active_iff.mpr ⟨he, ?_⟩, hback hraw⟩
      cases e with
      | field => rfl
      | value | autoCount => exact absurd (hback hraw) nofun

end ChartRule
end ChartAdvisor
