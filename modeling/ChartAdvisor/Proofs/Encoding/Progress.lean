import ChartAdvisor.Proofs.Encoding.Choosing

/-!
# Slots only get settled

Later choices settle open slots, and take out or leave as they are the slots inside a part that is
switched. A slot that is settled, and lies in no part that is open, stands for good.
-/
namespace ChartAdvisor

/-- A slot that can be gone once it is settled: that of a part that is switched off, and a domain
or a range, which `null` takes out. -/
def Property.canVanish (p : Property) : Bool :=
  p.holdsSettings || p == .scaleOf .domain || p == .scaleOf .range

theorem Property.parent?_parent? {p r : Property} (h : p.parent? = some r) : r.parent? = none := by
  cases p <;> cases h <;> rfl

/-- How slots may stand later on. -/
def Settles (s t : Property → Standing) : Prop :=
  ∀ p, t p = s p ∨ (s p = .undecided ∧ (t p = .absent → p.canVanish = true)) ∨
    ∃ r, p.parent? = some r ∧ s r = .undecided

namespace Settles

variable {s t u : Property → Standing} {p : Property}

theorem refl (s : Property → Standing) : Settles s s := fun _ => .inl rfl

/-- Where an open slot is settled, and others change only if they lie inside it. -/
theorem of_slot (hopen : s p = .undecided) (hself : t p = .absent → p.canVanish = true)
    (hothers : ∀ r, r ≠ p → r.parent? ≠ some p → t r = s r) : Settles s t := by
  intro r
  by_cases hr : r = p
  · subst hr
    exact .inr (.inl ⟨hopen, hself⟩)
  · by_cases hparent : r.parent? = some p
    · exact .inr (.inr ⟨p, hparent, hopen⟩)
    · exact .inl (hothers r hr hparent)

/-- A slot that is settled outside all open parts stands for good. -/
theorem eq_of_settled (h : Settles s t) (hp : s p ≠ .undecided)
    (hparent : ∀ r, p.parent? = some r → s r ≠ .undecided) : t p = s p := by
  rcases h p with heq | ⟨hopen, -⟩ | ⟨r, hr, hopen⟩
  · exact heq
  · exact absurd hopen hp
  · exact absurd hopen (hparent r hr)

theorem eq_of_top (h : Settles s t) (hp : s p ≠ .undecided) (htop : p.parent? = none) :
    t p = s p :=
  h.eq_of_settled hp fun r hr => by rw [htop] at hr; contradiction

/-- What is open later was open before, unless it lies in a part that was open. -/
theorem undecided_of_undecided (h : Settles s t) (ht : t p = .undecided) (htop : p.parent? = none) :
    s p = .undecided := by
  cases hs : s p with
  | undecided => rfl
  | absent => rw [h.eq_of_top (by rw [hs]; nofun) htop, hs] at ht; contradiction
  | decided c => rw [h.eq_of_top (by rw [hs]; nofun) htop, hs] at ht; contradiction

theorem trans (h : Settles s t) (h' : Settles t u) : Settles s u := by
  intro p
  rcases h' p with heq | ⟨hopen, hgone⟩ | ⟨r, hr, hopen⟩
  · rw [heq]
    exact h p
  · rcases h p with heq' | ⟨hopen', -⟩ | hpart
    · exact .inr (.inl ⟨heq' ▸ hopen, hgone⟩)
    · exact .inr (.inl ⟨hopen', hgone⟩)
    · exact .inr (.inr hpart)
  · exact .inr (.inr ⟨r, hr, h.undecided_of_undecided hopen (Property.parent?_parent? hr)⟩)

/-- A slot that is there stays there, if it cannot vanish. -/
theorem ne_absent (h : Settles s t) (hp : s p ≠ .absent)
    (hvanish : s p = .undecided → p.canVanish = false)
    (hparent : ∀ r, p.parent? = some r → s r ≠ .undecided) : t p ≠ .absent := by
  rcases h p with heq | ⟨hopen, hgone⟩ | ⟨r, hr, hopen⟩
  · rwa [heq]
  · intro habsent
    rw [hvanish hopen] at hgone
    exact Bool.false_ne_true (hgone habsent)
  · exact absurd hopen (hparent r hr)

end Settles

/-! ## Fields -/

/-- What a test says of a settled slot outside all parts, it says later. -/
theorem Settles.keeps {s t : Property → Standing} {p : Property} (h : Settles s t)
    (top : p.parent? = none) {P : Standing → Prop} (hopen : ¬P .undecided) (hp : P (s p)) :
    P (t p) := by
  have hsettled : s p ≠ .undecided := fun e => hopen (e ▸ hp)
  rwa [h.eq_of_top hsettled top]

namespace FieldEncoding

variable {q r : FieldEncoding}

theorem channel_of_settles (h : Settles q.standing r.standing) {c : Channel}
    (hc : q.channel.value? = some c) : r.channel.value? = some c := by
  rw [channel_value?_eq] at hc ⊢
  exact h.keeps rfl (P := fun s => s.value? = some c) nofun hc

theorem type_of_settles (h : Settles q.standing r.standing) {t : FieldType}
    (ht : q.type.value? = some t) : r.type.value? = some t := by
  rw [type_value?_eq] at ht ⊢
  exact h.keeps rfl (P := fun s => s.value? = some t) nofun ht

theorem field_of_settles (h : Settles q.standing r.standing) {name : String}
    (hn : q.field.value? = some name) : r.field.value? = some name := by
  rw [field_value?_eq] at hn ⊢
  exact h.keeps rfl (P := fun s => s.value? = some name) nofun hn

theorem aggregate?_of_settles (h : Settles q.standing r.standing) {op : Aggregate}
    (ha : q.aggregate? = some op) : r.aggregate? = some op := by
  rw [aggregate?_eq] at ha ⊢
  exact h.keeps rfl (P := fun s => (s.value? : Option (Option Aggregate)).join = some op) nofun ha

theorem timeUnit?_of_settles (h : Settles q.standing r.standing) {unit : TimeUnit}
    (hu : q.timeUnit? = some unit) : r.timeUnit? = some unit := by
  rw [timeUnit?_eq] at hu ⊢
  exact h.keeps rfl (P := fun s => (s.value? : Option (Option TimeUnit)).join = some unit) nofun hu

theorem isBinned_of_settles (h : Settles q.standing r.standing) (hb : q.isBinned = true) :
    r.isBinned = true := by
  rw [isBinned_eq] at hb ⊢
  exact h.keeps rfl (P := fun s => s.isOn = true) nofun hb

theorem binIsPresent_of_settles (h : Settles q.standing r.standing) (hb : q.binIsPresent = false) :
    r.binIsPresent = false := by
  rw [binIsPresent_eq] at hb ⊢
  exact h.keeps rfl (P := fun s => (s != .absent) = false) nofun hb

theorem mayAggregate_of_settles (h : Settles q.standing r.standing) (ha : q.mayAggregate = false) :
    r.mayAggregate = false := by
  rw [mayAggregate_eq] at ha ⊢
  exact h.keeps rfl (P := fun s => (s != .decided (.aggregate none)) = false) nofun ha

theorem mayHaveTimeUnit_of_settles (h : Settles q.standing r.standing)
    (hu : q.mayHaveTimeUnit = false) : r.mayHaveTimeUnit = false := by
  rw [mayHaveTimeUnit_eq] at hu ⊢
  exact h.keeps rfl (P := fun s => (s != .decided (.timeUnit none)) = false) nofun hu

theorem scaleOn?_of_settles (h : Settles q.standing r.standing) (hs : q.scaleOn?.isSome = true) :
    r.scaleOn?.isSome = true := by
  rw [scaleOn?_isSome_eq] at hs ⊢
  exact h.keeps rfl (P := fun s => s.isOn = true) nofun hs

/-- A scale type is in effect only if none that is set is open. -/
theorem standing_type_ne_undecided {t : ScaleType} (ht : q.scaleType? = some t) :
    q.standing (.scaleOf .type) ≠ .undecided := by
  intro hopen
  rw [scaleType?_eq, if_pos (.inl hopen)] at ht
  contradiction

/-- Once a scale type is in effect it stays so, as long as what is set of it stays. -/
theorem scaleType?_of_settles_of_eq (h : Settles q.standing r.standing)
    (hexplicit' : r.standing (.scaleOf .type) = q.standing (.scaleOf .type)) {t : ScaleType}
    (ht : q.scaleType? = some t) : r.scaleType? = some t := by
  have hclosed := ht
  rw [scaleType?_eq] at hclosed
  split at hclosed
  · contradiction
  · next hopen =>
    simp only [not_or] at hopen
    obtain ⟨hexplicit, htype, hchannel, hbin⟩ := hopen
    have htype' := h.eq_of_top htype rfl
    have hchannel' := h.eq_of_top hchannel rfl
    have hbin' := h.eq_of_top hbin rfl
    by_cases hunit : q.standing .timeUnit = .undecided
    · -- an open time unit has no say unless the type is temporal, and then there is no scale type
      have hinferred (c : Channel) (u : FieldType) (hu : u ≠ .temporal) :
          r.inferredScaleType c u = q.inferredScaleType c u := by
        have hb : r.isBinned = q.isBinned := by rw [isBinned_eq, isBinned_eq, hbin']
        cases u <;> simp_all [inferredScaleType]
      rw [scaleType?_eq, hexplicit', htype', hchannel', hbin', if_neg (by simp [*])]
      revert hclosed
      split
      · exact id
      · next c u _ _ _ =>
        by_cases hu : u = .temporal
        · simp [hu, hunit]
        · simp [hu, hinferred c u hu]
      · intro hnone
        contradiction
    · have hunit' := h.eq_of_top hunit rfl
      rw [← ht]
      refine scaleType?_congr fun p hp => ?_
      simp only [scaleTypeInputs, List.mem_cons, List.not_mem_nil, or_false] at hp
      rcases hp with rfl | rfl | rfl | rfl | rfl <;> assumption

/-- Once a scale type is in effect it stays so, unless the scale may still be switched off. -/
theorem scaleType?_of_settles (h : Settles q.standing r.standing)
    (hscale : q.standing .scale ≠ .undecided) {t : ScaleType} (ht : q.scaleType? = some t) :
    r.scaleType? = some t := by
  refine scaleType?_of_settles_of_eq h ?_ ht
  refine h.eq_of_settled (standing_type_ne_undecided ht) fun p hp => ?_
  cases hp
  exact hscale

/-- What is open once a property was put back was open before, or is open where it comes from. -/
theorem isOpen_of_restore {q o : FieldEncoding} {p r : Property}
    (h : (q.restore o p).isOpen r = true) : q.isOpen r = true ∨ o.isOpen r = true := by
  by_cases hr : r = p ∨ r.parent? = some p
  · cases p with
    | maxBins =>
      obtain rfl : r = .maxBins :=
        hr.resolve_right fun h => absurd (Property.parent?_parent? h) (Option.some_ne_none _)
      right
      simp only [isOpen, restore, bin?, Toggle.bind_inner?_map_mapInner] at h ⊢
      cases hq : q.bin.bind Toggle.inner? with
      | none => rw [hq] at h; contradiction
      | some b => rw [hq] at h; exact h
    | scaleOf part =>
      obtain rfl : r = .scaleOf part :=
        hr.resolve_right fun h => absurd (Property.parent?_parent? h) (Option.some_ne_none _)
      have hs : (q.restore o (.scaleOf part)).scale? =
          q.scale?.map fun s => (o.scale?.map fun t => s.restore t part).getD s := by
        rw [restore_scaleOf]
        exact Toggle.bind_inner?_map_mapInner _ _
      simp only [isOpen, hs] at h ⊢
      cases hq : q.scale? with
      | none => rw [hq] at h; contradiction
      | some s =>
        cases ho : o.scale? with
        | none =>
          rw [hq, ho] at h
          exact .inl h
        | some t =>
          rw [hq, ho] at h
          refine .inr ?_
          simpa [Scale.isOpen, Scale.restore, Scale.get_put] using h
    | _ =>
      right
      rcases hr with rfl | hr
      · exact h
      · cases r <;> cases hr <;> exact h
  · rw [not_or] at hr
    rw [isOpen_iff, standing_restore_of_ne _ _ hr.1 hr.2, ← isOpen_iff] at h
    exact .inl h

/-- What was open where it comes from is undecided once it is put back, if the part in which it lies is
there. -/
theorem standing_restore {q o : FieldEncoding} {p : Property} (ho : o.isOpen p = true)
    (hparent : ∀ r, p.parent? = some r → q.standing r ≠ .absent) :
    (q.restore o p).standing p = .undecided := by
  have hopen := (o.isOpen_iff p).mp ho
  cases p with
  | maxBins =>
    have hbin : q.bin?.isSome = true := by
      rw [bin?_isSome_eq]
      exact bne_iff_ne.mpr (hparent .bin rfl)
    obtain ⟨b, hb⟩ := Option.isSome_iff_exists.mp hbin
    have hrestored : (q.restore o .maxBins).bin? =
        q.bin?.map fun b => { b with maxbins := o.bin?.bind Bin.maxbins } :=
      Toggle.bind_inner?_map_mapInner _ _
    rw [standing, hrestored, hb]
    exact hopen
  | scaleOf part =>
    have hscale : q.scale?.isSome = true := by
      rw [scale?_isSome_eq]
      exact bne_iff_ne.mpr (hparent .scale rfl)
    obtain ⟨s, hs⟩ := Option.isSome_iff_exists.mp hscale
    have hrestored : (q.restore o (.scaleOf part)).scale? =
        q.scale?.map fun s => (o.scale?.map fun t => s.restore t part).getD s := by
      rw [restore_scaleOf]
      exact Toggle.bind_inner?_map_mapInner _ _
    cases ht : o.scale? with
    | none =>
      rw [standing, ht] at hopen
      contradiction
    | some t =>
      rw [standing, ht] at hopen
      rw [standing, hrestored, hs, ht]
      simpa [Scale.restore, Scale.get_put] using hopen
  | channel | aggregate | timeUnit | field | type | sort | bin | scale | axis | legend => exact hopen
  | mark | transform | stack | autoCount | hasFunction => contradiction

end FieldEncoding

/-! ## Choices -/

theorem Standing.reading_ne_absent {α : Type} [Choosable α] [PlainChoice α] {c : Choice} {v : α}
    (h : (ofChoice? c : Option α) = some v) : reading α c ≠ .absent := by
  rw [FieldEncoding.reading_of_some h, Slot.standing_fixed]
  exact nofun

theorem FieldEncoding.canVanish_of_standingFor {q : FieldEncoding} {p : Property} {c : Choice}
    (h : (q.assign p c).2 = none) (ha : p.standingFor c = .absent) : p.canVanish = true := by
  cases p with
  | channel | aggregate | timeUnit | field | type | sort =>
    obtain ⟨v, hv, -⟩ := settle_eq_none h
    exact absurd ha (Standing.reading_ne_absent hv)
  | bin | scale | axis | legend => rfl
  | maxBins =>
    rw [assign_maxBins] at h
    split at h
    · obtain ⟨v, hv, -⟩ := settle_eq_none h
      exact absurd ha (Standing.reading_ne_absent hv)
    · contradiction
  | scaleOf part =>
    rw [assign_scaleOf] at h
    split at h
    · cases hc : (ofChoice? c : Option part.Value) with
      | none => simp [hc] at h
      | some v =>
        cases part with
        | domain | range => rfl
        | type => exact absurd ha (Standing.reading_ne_absent (α := ScaleType) hc)
        | bandSize => exact absurd ha (Standing.reading_ne_absent (α := UInt32) hc)
        | exponent => exact absurd ha (Standing.reading_ne_absent (α := Number) hc)
        | clamp | nice | round | useRawDomain | zero =>
          exact absurd ha (Standing.reading_ne_absent (α := Bool) hc)
    · contradiction
  | _ => contradiction

namespace Encoding

/-- An encoding as it may be after further choices. -/
structure MoreResolved (e f : Encoding) : Prop where
  kind : e.kind = f.kind
  settles : Settles e.standing f.standing

namespace MoreResolved

variable {e f g : Encoding}

theorem refl (e : Encoding) : e.MoreResolved e := ⟨rfl, .refl _⟩

theorem trans (h : e.MoreResolved f) (h' : f.MoreResolved g) : e.MoreResolved g :=
  ⟨h.kind.trans h'.kind, h.settles.trans h'.settles⟩

/-- What is settled, and what it lies in too, stands for good. -/
theorem standing_eq (h : e.MoreResolved f) {p : Property} (hp : e.isOpen p = false)
    (hparent : ∀ r ∈ p.parent?, e.isOpen r = false) : e.standing p = f.standing p := by
  refine (h.settles.eq_of_settled ?_ fun r hr => ?_).symm
  · rw [ne_eq, ← e.isOpen_iff, hp]
    exact Bool.false_ne_true
  · rw [ne_eq, ← e.isOpen_iff, hparent r hr]
    exact Bool.false_ne_true

/-- Encodings agree on properties that are settled, if what these lie in is among them. -/
theorem agree (h : e.MoreResolved f) {ps : List Property} (hps : ∀ p ∈ ps, e.isOpen p = false)
    (hparents : ∀ p ∈ ps, ∀ r ∈ p.parent?, r ∈ ps) : e.Agree ps f :=
  ⟨h.kind, fun p hp => h.standing_eq (hps p hp) fun r hr => hps r (hparents p hp r hr)⟩

/-- A slot that lies in no other one is open only if it was. -/
theorem isOpen_eq_false (h : e.MoreResolved f) {p : Property} (top : p.parent? = none)
    (hp : e.isOpen p = false) : f.isOpen p = false := by
  have heq := h.standing_eq hp (by simp [top])
  rwa [isOpen_eq, ← heq, ← isOpen_eq]

/-- A count of rows that is switched off stays so. -/
theorem isDisabledAutoCount (h : e.MoreResolved f) (he : e.isDisabledAutoCount = true) :
    f.isDisabledAutoCount = true := by
  have hsettled : e.isOpen .autoCount = false := by
    rw [isDisabledAutoCount_eq, Bool.and_eq_true, beq_iff_eq, beq_iff_eq] at he
    rw [isOpen_eq, he.2]
    rfl
  have hcount := h.standing_eq hsettled (by simp [Property.parent?])
  rwa [isDisabledAutoCount_eq, ← h.kind, ← hcount, ← isDisabledAutoCount_eq]

/-- A count of rows that is switched on stays so. -/
theorem isEnabledAutoCount (h : e.MoreResolved f) (he : e.isEnabledAutoCount = true) :
    f.isEnabledAutoCount = true := by
  rw [isEnabledAutoCount_eq, Bool.and_eq_true] at he ⊢
  exact ⟨h.kind ▸ he.1, h.settles.keeps rfl (P := fun s => (s == .decided (.flag true)) = true)
    nofun he.2⟩

/-- Fields stay fields. -/
theorem field {q : FieldEncoding} (h : (Encoding.field q).MoreResolved f) :
    ∃ r, f = .field r ∧ Settles q.standing r.standing := by
  obtain ⟨hk, hs⟩ := h
  cases f with
  | field r => exact ⟨r, rfl, hs⟩
  | value | autoCount => contradiction

end MoreResolved

/-- An encoding as it may be later in a search. -/
structure Later (e f : Encoding) : Prop where
  kind : e.kind = f.kind
  settles : Settles e.standing f.standing
  frozen : e.isFrozen = true → f.standing = e.standing

namespace Later

variable {e f g : Encoding}

theorem refl (e : Encoding) : e.Later e := ⟨rfl, .refl _, fun _ => rfl⟩

theorem trans (h : e.Later f) (h' : f.Later g) : e.Later g where
  kind := h.kind.trans h'.kind
  settles := h.settles.trans h'.settles
  frozen he := by
    have hf : f.isFrozen = true := by
      rw [← isFrozen_congr h.kind (by rw [h.frozen he]), he]
    exact (h'.frozen hf).trans (h.frozen he)

/-- What is not frozen in the end never was. -/
theorem not_frozen (h : e.Later f) (hf : f.isFrozen = false) : e.isFrozen = false := by
  cases he : e.isFrozen with
  | false => rfl
  | true =>
    rw [isFrozen_congr h.kind (by rw [h.frozen he]), hf] at he
    contradiction

/-- What is settled outside all open parts, and whatever a frozen encoding holds, stands for good. -/
theorem agree (h : e.Later f) {ps : List Property} (settled : e.isFrozen = false → ∀ p ∈ ps,
    e.standing p ≠ .undecided ∧ ∀ r, p.parent? = some r → e.standing r ≠ .undecided) :
    e.Agree ps f where
  kind := h.kind
  standing p hp := by
    cases hfrozen : e.isFrozen with
    | true => rw [h.frozen hfrozen]
    | false =>
      obtain ⟨hsettled, hparent⟩ := settled hfrozen p hp
      exact (h.settles.eq_of_settled hsettled hparent).symm

theorem moreResolved (h : e.Later f) : e.MoreResolved f := ⟨h.kind, h.settles⟩

/-- Later fields come of fields. -/
theorem field (h : (Encoding.field q).Later f) : ∃ r, f = .field r ∧ Settles q.standing r.standing :=
  h.moreResolved.field

end Later

/-- Nothing comes open by a choice but slots inside a part that is switched on. -/
theorem isOpen_of_choose {e o : Encoding} {p r : Property} {c : Choice} (hk : e.kind = o.kind)
    (h : (e.choose o p c).2 = none) (he : e.isOpen r = true → o.isOpen r = true)
    (hr : (e.choose o p c).1.isOpen r = true) : o.isOpen r = true := by
  rw [isOpen_iff] at hr
  by_cases hrp : r = p
  · subst hrp
    rw [standing_choose h] at hr
    exact absurd hr (Property.standingFor_ne_undecided r c)
  · by_cases hparent : r.parent? = some p
    · rw [standing_choose_child hk hparent h] at hr
      split at hr
      · exact (o.isOpen_iff r).mpr hr
      · contradiction
    · rw [standing_choose_of_ne hk hrp hparent] at hr
      exact he ((e.isOpen_iff r).mpr hr)

theorem isOpen_of_restore {e o : Encoding} {p r : Property} (hk : e.kind = o.kind)
    (h : (e.restore o p).isOpen r = true) : e.isOpen r = true ∨ o.isOpen r = true := by
  cases e <;> cases o <;> first | contradiction | skip
  · rw [restore_field] at h
    exact FieldEncoding.isOpen_of_restore h
  · cases p <;> cases r <;> first | exact .inl h | exact .inr h
  · cases p <;> cases r <;> first | exact .inl h | exact .inr h

theorem standing_restore {e o : Encoding} {p : Property} (hk : e.kind = o.kind)
    (ho : o.isOpen p = true) (hparent : ∀ r, p.parent? = some r → e.standing r ≠ .absent) :
    (e.restore o p).standing p = .undecided := by
  have hopen := (o.isOpen_iff p).mp ho
  cases e <;> cases o <;> first | contradiction | skip
  · rw [restore_field]
    exact FieldEncoding.standing_restore ho hparent
  · cases p <;> exact hopen
  · cases p <;> exact hopen

theorem canVanish_of_standingFor {p : Property} {c : Choice} {e : Encoding}
    (h : (e.assign p c).2 = none) (ha : p.standingFor c = .absent) : p.canVanish = true := by
  cases e with
  | field q =>
    rw [assign_field] at h
    exact FieldEncoding.canVanish_of_standingFor h ha
  | value d v =>
    cases p <;> simp only [assign, reduceCtorEq] at h
    split at h
    · next v hv => exact absurd ha (Standing.reading_ne_absent hv)
    · contradiction
  | autoCount d b =>
    cases p <;> simp only [assign, reduceCtorEq] at h
    · split at h
      · next v hv => exact absurd ha (Standing.reading_ne_absent hv)
      · contradiction
    · split at h
      · next v hv => exact absurd ha (Standing.reading_ne_absent hv)
      · contradiction

/-- A choice for an open slot settles it. -/
theorem settles_choose {e o : Encoding} {p : Property} {c : Choice} (hk : e.kind = o.kind)
    (h : (e.choose o p c).2 = none) (hopen : e.isOpen p = true) :
    Settles e.standing (e.choose o p c).1.standing := by
  refine .of_slot ((e.isOpen_iff p).mp hopen) (fun ha => ?_) fun r hr hparent =>
    standing_choose_of_ne hk hr hparent c
  rw [standing_choose h] at ha
  exact canVanish_of_standingFor h ha

theorem moreResolved_choose {e o after : Encoding} {p : Property} {c : Choice}
    (hk : e.kind = o.kind) (h : e.choose o p c = (after, none)) (hopen : e.isOpen p = true) :
    e.MoreResolved after := by
  have hkind := kind_choose e o p c
  have hsettles := settles_choose hk (by rw [h]) hopen
  rw [h] at hkind hsettles
  exact ⟨hkind.symm, hsettles⟩

theorem later_choose {e o : Encoding} {p : Property} {c : Choice} (hk : e.kind = o.kind)
    (h : (e.choose o p c).2 = none) (hopen : e.isOpen p = true) (hfrozen : e.isFrozen = false) :
    e.Later (e.choose o p c).1 where
  kind := (kind_choose e o p c).symm
  settles := settles_choose hk h hopen
  frozen he := by rw [hfrozen] at he; contradiction

end Encoding
end ChartAdvisor
