import ChartAdvisor.Proofs.Search.Precedence

/-!
# What rules overlook

Some rules read more than the properties that they declare. Nothing runs them when one of the others
is chosen, so that they may have judged a draft that was still to change. A rule is kept in a chart that is
found if nothing was open that it overlooks: what it reads, does not declare and meets only after
the property that it was run for.
-/
namespace ChartAdvisor

/-- A rule does not see the choices for a property that it does not declare, if that is not
resolved before the property that the rule is run for. -/
def Rule.overlooks {α : Type} (r : Rule α) (p q : Property) : Bool :=
  !r.reads q && decide (Property.precedence.idxOf p ≤ Property.precedence.idxOf q)

theorem Rule.overlooks_iff {α : Type} {r : Rule α} {p q : Property} :
    r.overlooks p q = true ↔
      q ∉ r.properties ∧ Property.precedence.idxOf p ≤ Property.precedence.idxOf q := by
  simp [overlooks, reads]

namespace ChartRule

/-- What the verdict of a rule depends on. A rule that waits for its properties depends on the counts
of rows too: what is open in one that is switched off is not waited for. -/
def inputs (r : ChartRule) (reading : List Property) : List Property :=
  if r.allowsOpen then reading else .autoCount :: reading

theorem check_congr_inputs {r : ChartRule} {reading : List Property} (h : (r, reading) ∈ readings)
    {d d' : Draft} (hd : d.Agree (r.inputs reading ++ r.properties) d') (ctx : Context) :
    r.check ctx d = r.check ctx d' := by
  have hreading : ∀ p ∈ reading, p ∈ r.inputs reading ++ r.properties := fun p hp => by
    refine List.mem_append_left _ ?_
    unfold inputs
    split
    · exact hp
    · exact List.mem_cons_of_mem _ hp
  refine check_congr ((dependsOn_of_mem h).mono hreading) (fun p hp => List.mem_append_right _ hp)
    ?_ hd ctx
  unfold inputs
  cases r.allowsOpen
  · exact .inr (List.mem_append_left _ (List.mem_cons_self ..))
  · exact .inl rfl

/-- A choice for a property that is neither declared nor read changes no verdict. -/
theorem declared_or_read_or_quiet : ∀ e ∈ readings, ∀ q ∈ Property.precedence,
    q ∈ e.1.properties ∨ q ∈ e.1.inputs e.2 ∨ q.QuietFor (e.1.inputs e.2 ++ e.1.properties) := by
  decide

end ChartRule

namespace EncodingRule

theorem check_congr_reading {r : EncodingRule} {reading : List Property}
    (h : (r, reading) ∈ readings) {s s' : Place}
    (hs : s.encoding.Agree (reading ++ r.properties) s'.encoding) (hslots : s.slots = s'.slots)
    (ctx : Context) : r.check ctx s = r.check ctx s' :=
  check_congr ((dependsOn_of_mem h).mono fun _ hp => List.mem_append_left _ hp)
    (fun _ hp => List.mem_append_right _ hp) hs (congrArg _ hslots) ctx

theorem declared_or_read_or_quiet : ∀ e ∈ readings, ∀ q ∈ Property.precedence,
    q ∈ e.1.properties ∨ q ∈ e.2 ∨ q.QuietFor (e.2 ++ e.1.properties) := by
  decide

end EncodingRule

namespace Draft

variable {ctx : Context} {About Quiet : Spot → Prop} {Held : Draft → Prop}

/-- A watch may be kept over fewer choices. -/
theorem Watch.mono {A : Spot → Prop} (w : Watch ctx About Quiet Held) (h : ∀ s, A s → About s) :
    Watch ctx A Quiet Held where
  judge s c d hd hs := w.judge s c d hd (h s hs)
  frame := w.frame

/-- The spots that are open come in the order in which their properties are resolved. -/
theorem pairwise_spots_precedence (d : Draft) :
    ((Property.precedence.filter d.slots.has).flatMap d.spots).Pairwise fun s t =>
      Property.precedence.idxOf s.property ≤ Property.precedence.idxOf t.property := by
  have hsorted : Property.precedence.Pairwise fun p q =>
      Property.precedence.idxOf p ≤ Property.precedence.idxOf q := by decide
  exact pairwise_spots (fun _ => Nat.le_refl _) d (hsorted.filter _)

theorem property_of_mem_steps {d : Draft} {t : Spot}
    (ht : t ∈ (Property.precedence.filter d.slots.has).flatMap d.spots) :
    t ∈ d.spots t.property ∧ t.property ∈ Property.precedence ∧ d.slots.has t.property = true := by
  obtain ⟨p, hp, ht⟩ := List.mem_flatMap.mp ht
  obtain ⟨hp, hopen⟩ := List.mem_filter.mp hp
  rw [property_of_mem_spots ht]
  exact ⟨ht, hp, hopen⟩

theorem nameAt?_isSome_of_mem_spots {d : Draft} {i : Nat} {p : Property}
    (h : .slot i p ∈ d.spots p) : (d.nameAt? (.slot i p)).isSome := by
  rw [mem_spots_iff] at h
  split at h
  · contradiction
  · obtain ⟨j, hj, heq⟩ := h
    obtain ⟨rfl, -⟩ := Spot.slot.inj heq
    rw [nameAt?, Option.isSome_map]
    exact (List.mem_filter.mp hj).2

/-- The search keeps a rule about charts of which a property was chosen, if nothing is open that
the rule overlooks from there. -/
theorem Stage.keeps_chartRule_unlessOverlooked {q : ChartQuery} {d₀ : Draft}
    (hbuilt : IsBuilt q ctx.schema ctx.config d₀) {drafts : List Draft}
    (h : Stage ctx d₀ (Property.precedence.filter d₀.slots.has) drafts) {r : ChartRule}
    {reading : List Property} (hr : (r, reading) ∈ ChartRule.readings)
    (active : r.isActive ctx.config = true) {d : Draft} (hd : d ∈ drafts) {s : Spot} {n : String}
    (hs : s.property ∈ r.properties) (hn : n ∈ d.nameAt? s)
    (hsome : (d.assignment.lookup n).isSome)
    (closed : ∀ p ∈ r.inputs reading, r.overlooks s.property p = true → d₀.slots.has p = false) :
    r.check ctx d = .ok true := by
  have hall : r ∈ ChartRule.all := ChartRule.readings_fst ▸ List.mem_map_of_mem hr
  -- only the choices for what is resolved no earlier than the property at hand are watched
  have w := (watch_of_congr hall active fun h => ChartRule.check_congr_inputs hr h ctx).mono
    (A := fun t => t.property ∈ r.properties ∧
      Property.precedence.idxOf s.property ≤ Property.precedence.idxOf t.property) fun _ ht => ht.1
  refine h.held_of_recorded hbuilt w (fun htwin held => htwin.check_chartRule hall held) ?_ hd
    ⟨hs, Nat.le_refl _⟩ hn hsome
  refine (pairwise_spots_precedence d₀).imp_of_mem fun {t u} _ hu htu ⟨_, hst⟩ => ?_
  obtain ⟨-, hplace, hopen⟩ := property_of_mem_steps hu
  have hsu := Nat.le_trans hst htu
  rcases ChartRule.declared_or_read_or_quiet _ hr _ hplace with hdeclared | hread | hquiet
  · exact .inl ⟨hdeclared, hsu⟩
  · by_cases hdeclared : u.property ∈ r.properties
    · exact .inl ⟨hdeclared, hsu⟩
    · rw [closed _ hread (Rule.overlooks_iff.mpr ⟨hdeclared, hsu⟩)] at hopen
      contradiction
  · exact .inr hquiet

/-- The search keeps a rule about encodings where a property of it was chosen, if nothing is open in
the encoding that the rule overlooks from there. -/
theorem Stage.keeps_encodingRule_unlessOverlooked {q : ChartQuery} {d₀ : Draft}
    (hbuilt : IsBuilt q ctx.schema ctx.config d₀) {drafts : List Draft}
    (h : Stage ctx d₀ (Property.precedence.filter d₀.slots.has) drafts) {r : EncodingRule}
    {reading : List Property} (hr : (r, reading) ∈ EncodingRule.readings)
    (active : r.isActive ctx.config = true) {d : Draft} (hd : d ∈ drafts) {i : Nat} {e : Encoding}
    {p : Property} {n : String} (he : d.encoding? i = some e) (hp : p ∈ r.properties)
    (hn : n ∈ d.nameAt? (.slot i p)) (hsome : (d.assignment.lookup n).isSome)
    (closed : ∀ p' ∈ reading, r.overlooks p p' = true → d₀.nameAt? (.slot i p') = none) :
    r.check ctx (d.place i e) = .ok true := by
  have hall : r ∈ EncodingRule.all := EncodingRule.readings_fst ▸ List.mem_map_of_mem hr
  have w := (watchAt_of_congr hall active
    (fun h hslots => EncodingRule.check_congr_reading hr h hslots ctx) i).mono
    (A := fun t => ∃ p' ∈ r.properties,
      Property.precedence.idxOf p ≤ Property.precedence.idxOf p' ∧ t = .slot i p')
    fun _ ⟨p', hp', _, ht⟩ => ⟨p', hp', ht⟩
  refine h.held_of_recorded hbuilt w (fun htwin held => htwin.check_encodingRule hall held) ?_
    hd ⟨p, hp, Nat.le_refl _, rfl⟩ hn hsome e he
  refine (pairwise_spots_precedence d₀).imp_of_mem fun {t u} _ hu htu ⟨p', _, hpp', ht⟩ => ?_
  obtain ⟨hspot, hplace, -⟩ := property_of_mem_steps hu
  by_cases hi : ∃ p'', u = .slot i p''
  · obtain ⟨p'', rfl⟩ := hi
    subst ht
    have hle := Nat.le_trans hpp' htu
    by_cases hdeclared : p'' ∈ r.properties
    · exact .inl ⟨p'', hdeclared, hle, rfl⟩
    · have hopen := nameAt?_isSome_of_mem_spots hspot
      rcases EncodingRule.declared_or_read_or_quiet _ hr _ hplace with hp'' | hread | hquiet
      · exact absurd hp'' hdeclared
      · rw [closed _ hread (Rule.overlooks_iff.mpr ⟨hdeclared, hle⟩)] at hopen
        contradiction
      · refine .inr fun q hq => ?_
        obtain ⟨-, rfl⟩ := Spot.slot.inj hq
        exact hquiet
  · exact .inr fun q hq => absurd ⟨q, hq⟩ hi

/-- A draft that is found keeps every active rule of which a property was chosen on the way, unless
something was open that the rule overlooks from there. -/
theorem generate_sound_unlessOverlooked {q : ChartQuery} {ctx : Context} {drafts : List Draft}
    (precedence : ctx.config.propertyPrecedence = Property.precedence)
    (plain : ctx.config.stylize = false) (h : (generate q ctx).outcome = .ok drafts) :
    ∀ d ∈ drafts,
      (∀ r reading, (r, reading) ∈ ChartRule.readings → r.isActive ctx.config = true →
        ∀ s n, s.property ∈ r.properties → n ∈ d.nameAt? s → (d.assignment.lookup n).isSome →
          (∀ p ∈ r.inputs reading, r.overlooks s.property p = true → d.slots.has p = false) →
          r.check ctx d = .ok true) ∧
      (∀ r reading, (r, reading) ∈ EncodingRule.readings → r.isActive ctx.config = true →
        ∀ i e p n, d.encoding? i = some e → p ∈ r.properties → n ∈ d.nameAt? (.slot i p) →
          (d.assignment.lookup n).isSome →
          (∀ p' ∈ reading, r.overlooks p p' = true → d.nameAt? (.slot i p') = none) →
          r.check ctx (d.place i e) = .ok true) := by
  intro d hd
  obtain ⟨d₀, hb, hstage⟩ := stage_of_generate precedence plain h
  have hbuilt := isBuilt_of_build hb
  obtain ⟨c, htwin, hc⟩ := hstage.sound d hd
  have hslots : d.slots = d₀.slots := htwin.alike.slots.trans (hc.frame hbuilt.coherent).2.1
  constructor
  · intro r reading hr active s n hs hn hsome closed
    exact hstage.keeps_chartRule_unlessOverlooked hbuilt hr active hd hs hn hsome
      fun p hp ho => hslots ▸ closed p hp ho
  · intro r reading hr active i e p n he hp hn hsome closed
    refine hstage.keeps_encodingRule_unlessOverlooked hbuilt hr active hd he hp hn hsome
      fun p' hp' ho => ?_
    rw [← Stage.nameAt?_eq hbuilt.coherent htwin hc]
    exact closed p' hp' ho

/-- Numbers on both axes, and numbers in bins as rows, the channel open. -/
def binnedRows (maxbins : Slot UInt32) : ChartQuery where
  mark := .fixed .point
  encodings := [
    .field { channel := .fixed .x, field := .fixed "Q", type := .fixed .quantitative },
    .field { channel := .fixed .y, field := .fixed "R", type := .fixed .quantitative },
    .field {
      channel := .wild (.ofCandidates [.row])
      field := .fixed "Q"
      type := .fixed .quantitative
      bin := some (.on { maxbins := some maxbins }) }]

/-- Five bins are few enough for rows, whatever else is chosen. -/
theorem generate_sound_unlessOverlooked_fiveBins :
    ∃ drafts, (generate (binnedRows (.fixed 5)) ⟨threeFields, { stylize := false }⟩).outcome =
        .ok drafts ∧ drafts.length = 1 ∧
      ∀ d ∈ drafts, ∀ e, d.encoding? 2 = some e →
        EncodingRule.maxCardinalityForFacet.check ⟨threeFields, { stylize := false }⟩ (d.place 2 e) =
          .ok true := by
  have hrows : ((generate (binnedRows (.fixed 5)) ⟨threeFields, { stylize := false }⟩).outcome.map
      fun drafts => (drafts.length, drafts.all fun d => d.nameAt? (.slot 2 .channel) == some "c2" &&
        (d.assignment.lookup "c2").isSome && d.nameAt? (.slot 2 .maxBins) == none)).toOption =
      some (1, true) := by decide
  obtain ⟨drafts, hdrafts, hrows⟩ := exists_of_map_toOption hrows
  obtain ⟨hlength, hrows⟩ := Prod.mk.inj hrows
  refine ⟨drafts, hdrafts, hlength, fun d hd e he => ?_⟩
  have hrow := List.all_eq_true.mp hrows d hd
  simp only [Bool.and_eq_true, beq_iff_eq] at hrow
  obtain ⟨⟨hname, hsome⟩, hclosed⟩ := hrow
  have honly : ∀ p ∈ ([.channel, .field, .bin, .maxBins, .timeUnit] : List Property),
      EncodingRule.maxCardinalityForFacet.overlooks .channel p = true → p = .maxBins := by decide
  exact (generate_sound_unlessOverlooked rfl rfl hdrafts d hd).2 _
    [.channel, .field, .bin, .maxBins, .timeUnit] (by simp [EncodingRule.readings]) rfl 2 e .channel
    "c2" he (by decide) hname hsome fun p hp ho => (honly p hp ho).symm ▸ hclosed

/-- The ceiling on rows is asked for when the channel is chosen, with the number of bins still open,
and not when that is chosen. So twenty bins get past a ceiling of ten rows: the rules that look
further than their properties are not kept in every chart that is found. -/
theorem generate_overlooks_bins :
    ¬ ∀ (q : ChartQuery) (ctx : Context) (drafts : List Draft),
      ctx.config.propertyPrecedence = Property.precedence → ctx.config.stylize = false →
      (generate q ctx).outcome = .ok drafts →
      ∀ d ∈ drafts,
        (∀ r ∈ ChartRule.all, r.isActive ctx.config = true → r.name ∈ ChartRule.aboutScales →
          ∀ s n, s.property ∈ r.properties → n ∈ d.nameAt? s → (d.assignment.lookup n).isSome →
            r.check ctx d = .ok true) ∧
        (∀ r ∈ EncodingRule.all, r.isActive ctx.config = true → r.name ∈ EncodingRule.derived →
          ∀ i e p n, d.encoding? i = some e → p ∈ r.properties → n ∈ d.nameAt? (.slot i p) →
            (d.assignment.lookup n).isSome → r.check ctx (d.place i e) = .ok true) := by
  intro h
  have hbad : ((generate (binnedRows (.wild (.ofCandidates [5, 20])))
      ⟨threeFields, { stylize := false }⟩).outcome.map fun drafts => drafts.any fun d =>
        d.nameAt? (.slot 2 .channel) == some "c2" && (d.assignment.lookup "c2").isSome &&
        (d.encoding? 2).any fun e => (EncodingRule.maxCardinalityForFacet.check
          ⟨threeFields, { stylize := false }⟩ (d.place 2 e)).toOption == some false).toOption =
      some true := by decide
  obtain ⟨drafts, hdrafts, hbad⟩ := exists_of_map_toOption hbad
  obtain ⟨d, hd, hbad⟩ := List.any_eq_true.mp hbad
  simp only [Bool.and_eq_true, beq_iff_eq] at hbad
  obtain ⟨⟨hname, hsome⟩, hbad⟩ := hbad
  obtain ⟨e, he, hbad⟩ := (Option.any_eq_true _ _).mp hbad
  have hkept := (h _ ⟨threeFields, { stylize := false }⟩ drafts rfl rfl hdrafts d hd).2
    EncodingRule.maxCardinalityForFacet
    (by simp [EncodingRule.all]) (by decide) (by decide) 2 e .channel "c2" he (by decide) hname hsome
  rw [hkept] at hbad
  exact absurd hbad (by decide)

end Draft
end ChartAdvisor
