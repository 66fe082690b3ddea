import ChartAdvisor.Proofs.Search.Course
import ChartAdvisor.Proofs.Search.InPlace

/-!
# Soundness of pruning

Rules are run as soon as one of their properties is chosen, on drafts that are half open. The last
choice for a property of a rule sees all of its properties settled, and no choice after it touches
what the rule reads. So a rule that looks no further than its properties is kept in every draft
that is found, if any of its properties was chosen on the way.
-/
namespace ChartAdvisor

namespace Draft

/-! ## The last choice -/

/-- What a rule says of drafts: it is checked by every choice that it is about, and quiet choices
do not touch it. -/
structure Watch (ctx : Context) (About Quiet : Spot → Prop) (Held : Draft → Prop) : Prop where
  judge : ∀ (s : Spot) (c : Choice) (d : Draft), d.Coherent → About s → (d.chooseAt s c).2 = none →
    (d.chooseAt s c).1.verdictAt ctx s = .ok none → Held (d.chooseAt s c).1
  frame : ∀ (s : Spot) (c : Choice) (d : Draft), d.Coherent → Quiet s → (d.chooseAt s c).2 = none →
    Held d → Held (d.chooseAt s c).1

variable {ctx : Context} {About Quiet : Spot → Prop} {Held : Draft → Prop}

/-- What was held before choices that do not touch it, or check it anew, is held after them. -/
theorem Watch.held_of_held (w : Watch ctx About Quiet Held) {spots : List Spot} {d d' : Draft}
    (h : Explored ctx spots d d') (hd : d.Coherent) (order : ∀ s ∈ spots, About s ∨ Quiet s)
    (held : Held d) : Held d' := by
  induction h with
  | done => exact held
  | skip _ _ ih => exact ih hd (fun t ht => order t (List.mem_cons_of_mem _ ht)) held
  | @choose s rest d _ choices c _ _ taken kept _ ih =>
    refine ih (hd.chooseAt s c) (fun t ht => order t (List.mem_cons_of_mem _ ht)) ?_
    rcases order s (List.mem_cons_self ..) with habout | hquiet
    · exact w.judge s c d hd habout taken kept
    · exact w.frame s c d hd hquiet taken held

/-- A choice that is on record was made on the way, so what it is about was checked then. -/
theorem Watch.held_of_recorded (w : Watch ctx About Quiet Held) {spots : List Spot} {d d' : Draft}
    (h : Explored ctx spots d d') (hd : d.Coherent)
    (order : spots.Pairwise fun s t => About s → About t ∨ Quiet t) {s : Spot} (hs : About s)
    {n : String} (hname : n ∈ d.nameAt? s) (hbefore : d.assignment.lookup n = none)
    (hafter : (d'.assignment.lookup n).isSome) : Held d' := by
  induction h with
  | done => rw [hbefore] at hafter; contradiction
  | skip _ _ ih => exact ih hd (List.pairwise_cons.mp order).2 hname hbefore hafter
  | @choose t rest d _ choices c _ _ taken kept onward ih =>
    obtain ⟨hfirst, hrest⟩ := List.pairwise_cons.mp order
    by_cases hts : s = t
    · subst hts
      exact w.held_of_held onward (hd.chooseAt s c) (fun t ht => hfirst t ht hs)
        (w.judge s c d hd hs taken kept)
    · have hap := alikeApart_chooseAt hd taken
      refine ih (hd.chooseAt t c) hrest (by rwa [← hap.nameAt?_eq]) ?_ hafter
      rw [lookup_chooseAt hd taken fun hmem => hts (hd.eq_of_nameAt? hname hmem), hbefore]

/-! ## Watching rules -/

theorem refused?_of_verdictAt {ctx : Context} {s : Spot} {d : Draft}
    (h : d.verdictAt ctx s = .ok none) : d.refused? ctx s.property = .ok none := by
  cases s with
  | mark => exact h
  | slot i p =>
    rw [show d.verdictAt ctx (.slot i p) = d.verdict ctx i p from rfl] at h
    unfold verdict at h
    cases hv : d.refusedByEncoding? ctx i p with
    | error e => rw [hv] at h; contradiction
    | ok v =>
      rw [hv] at h
      cases v with
      | some r => exact absurd (Except.ok.inj h) nofun
      | none => exact h

/-- A rule about charts watches the choices for its properties, if what it says depends on nothing
but some properties. -/
theorem watch_of_congr {ctx : Context} {r : ChartRule} (hr : r ∈ ChartRule.all)
    (active : r.isActive ctx.config = true) {ps : List Property}
    (congr : ∀ {d d' : Draft}, d.Agree ps d' → r.check ctx d = r.check ctx d') :
    Watch ctx (·.property ∈ r.properties) (·.property.QuietFor ps)
      (fun d => r.check ctx d = .ok true) where
  judge s c d _ habout _ kept :=
    refused?_eq_none_iff.mp (refused?_of_verdictAt kept) r (Rule.mem_about.mpr ⟨hr, habout, active⟩)
  frame s c d hd hquiet taken held := by
    rwa [← congr (agree_chooseAt hd taken hquiet)]

theorem watch_chartRule {ctx : Context} {r : ChartRule} (hr : r ∈ ChartRule.all)
    (active : r.isActive ctx.config = true) (hs : r.name ∉ ChartRule.aboutScales) :
    Watch ctx (·.property ∈ r.properties) (·.property.QuietFor r.footprint)
      (fun d => r.check ctx d = .ok true) :=
  watch_of_congr hr active fun h => ChartRule.check_congr_footprint hr hs h ctx

/-- A spot in another encoding is quiet for an encoding. -/
def QuietAt (i : Nat) (ps : List Property) (s : Spot) : Prop :=
  ∀ p, s = .slot i p → p.QuietFor ps

/-- A choice at a quiet spot leaves some properties of an encoding alone. -/
theorem encoding_rel_chooseAt {d : Draft} (hd : d.Coherent) {s : Spot} {c : Choice}
    (taken : (d.chooseAt s c).2 = none) {i : Nat} {ps : List Property} (hquiet : QuietAt i ps s) :
    Option.Rel (Encoding.Agree ps) (d.encoding? i) ((d.chooseAt s c).1.encoding? i) := by
  by_cases hsi : ∃ p, s = .slot i p
  · obtain ⟨p, rfl⟩ := hsi
    exact (agree_chooseAt hd taken (hquiet p rfl)).encoding? i
  · exact agree_of_withoutNulls
      ((alikeApart_chooseAt hd taken).encoding_of_ne fun p e => hsi ⟨p, e⟩) ps

/-- A rule about encodings watches the choices for its properties in an encoding, if what it says
depends on nothing but some properties. -/
theorem watchAt_of_congr {ctx : Context} {r : EncodingRule} (hr : r ∈ EncodingRule.all)
    (active : r.isActive ctx.config = true) {ps : List Property}
    (congr : ∀ {s s' : Place}, s.encoding.Agree ps s'.encoding → s.slots = s'.slots →
      r.check ctx s = r.check ctx s') (i : Nat) :
    Watch ctx (fun s => ∃ p ∈ r.properties, s = .slot i p) (QuietAt i ps)
      (fun d => ∀ e, d.encoding? i = some e → r.check ctx (d.place i e) = .ok true) where
  judge := by
    rintro _ c d - ⟨p, hp, rfl⟩ - kept e he
    exact ((verdictAt_slot_eq_none_iff he).mp kept).1 r (Rule.mem_about.mpr ⟨hr, hp, active⟩)
  frame s c d hd hquiet taken held := by
    intro e' he'
    have hrel := encoding_rel_chooseAt hd taken hquiet
    rw [he'] at hrel
    obtain ⟨e, he, hagree⟩ : ∃ e, d.encoding? i = some e ∧ e.Agree ps e' := by
      cases he : d.encoding? i with
      | none => rw [he] at hrel; contradiction
      | some e =>
        rw [he] at hrel
        cases hrel with
        | some h => exact ⟨e, rfl, h⟩
    have hplace : (d.place i e).slots = ((d.chooseAt s c).1.place i e').slots := by
      unfold place
      rw [(alikeApart_chooseAt hd taken).slots]
    have hagree : (d.place i e).encoding.Agree ps ((d.chooseAt s c).1.place i e').encoding := hagree
    exact (congr hagree hplace).symm.trans (held e he)

theorem watch_encodingRule {ctx : Context} {r : EncodingRule} (hr : r ∈ EncodingRule.all)
    (active : r.isActive ctx.config = true) (hs : r.name ∉ EncodingRule.derived) (i : Nat) :
    Watch ctx (fun s => ∃ p ∈ r.properties, s = .slot i p) (QuietAt i r.footprint)
      (fun d => ∀ e, d.encoding? i = some e → r.check ctx (d.place i e) = .ok true) :=
  watchAt_of_congr hr active
    (fun h hslots => EncodingRule.check_congr_footprint hr hs h hslots ctx) i

/-! ## Soundness -/

theorem Stage.nameAt?_eq {d₀ d c : Draft} {spots : List Spot} (h₀ : d₀.Coherent)
    (htwin : Twin [] d c) (hc : Explored ctx spots d₀ c) (s : Spot) : d.nameAt? s = d₀.nameAt? s := by
  obtain ⟨-, hslots, -⟩ := hc.frame h₀
  cases s <;> simp only [nameAt?, htwin.alike.slots, hslots]

/-- What is watched is held in what a stage of the search finds, if a choice on record is about it,
and if it does not tell drafts that are alike apart. -/
theorem Stage.held_of_recorded {q : ChartQuery} {d₀ : Draft}
    (hbuilt : IsBuilt q ctx.schema ctx.config d₀) {steps : List Property} {drafts : List Draft}
    (h : Stage ctx d₀ steps drafts) (w : Watch ctx About Quiet Held)
    (alike : ∀ {d c : Draft}, Twin [] d c → Held c → Held d)
    (order : (steps.flatMap d₀.spots).Pairwise fun s t => About s → About t ∨ Quiet t)
    {d : Draft} (hd : d ∈ drafts) {s : Spot} (hs : About s) {n : String} (hn : n ∈ d.nameAt? s)
    (hsome : (d.assignment.lookup n).isSome) : Held d := by
  obtain ⟨c, htwin, hc⟩ := h.sound d hd
  rw [Stage.nameAt?_eq hbuilt.coherent htwin hc] at hn
  rw [htwin.lookup_eq] at hsome
  exact alike htwin (w.held_of_recorded hc hbuilt.coherent order hs hn
    (by rw [hbuilt.assignment_eq]; rfl) hsome)

theorem Twin.check_chartRule {d c : Draft} (h : Twin [] d c) {r : ChartRule}
    (hr : r ∈ ChartRule.all) (held : r.check ctx c = .ok true) : r.check ctx d = .ok true := by
  rwa [ChartRule.check_congr_reach hr (h.alike.agree h.coherent h.copy_coherent r.reach) ctx]

theorem Twin.check_encodingRule {d c : Draft} (h : Twin [] d c) {r : EncodingRule}
    (hr : r ∈ EncodingRule.all) {i : Nat}
    (held : ∀ e, c.encoding? i = some e → r.check ctx (c.place i e) = .ok true) :
    ∀ e, d.encoding? i = some e → r.check ctx (d.place i e) = .ok true := by
  intro e he
  obtain ⟨e', he', hee⟩ := h.alike.encoding he
  have hagree : (d.place i e).encoding.Agree r.reach (c.place i e').encoding :=
    ⟨Encoding.kind_congr hee, fun p _ => Encoding.standing_congr hee p⟩
  have hplace : (d.place i e).slots = (c.place i e').slots := by
    unfold place
    rw [h.alike.slots]
  rw [EncodingRule.check_congr_reach hr hagree (congrArg _ hplace) ctx]
  exact held e' he'

/-- What a stage of the search finds keeps a rule about encodings of which a property was chosen, if
nothing is resolved after a property of the rule that disturbs it. -/
theorem Stage.keeps_encodingRule {q : ChartQuery} {d₀ : Draft}
    (hbuilt : IsBuilt q ctx.schema ctx.config d₀) {steps : List Property} {drafts : List Draft}
    (h : Stage ctx d₀ steps drafts) {r : EncodingRule} (hr : r ∈ EncodingRule.all)
    (active : r.isActive ctx.config = true) (hs : r.name ∉ EncodingRule.derived)
    (order : steps.Pairwise fun p q => p ∈ r.properties → q ∈ r.properties ∨ q.QuietFor r.footprint)
    {d : Draft} (hd : d ∈ drafts) {i : Nat} {e : Encoding} {p : Property} {n : String}
    (he : d.encoding? i = some e) (hp : p ∈ r.properties) (hn : n ∈ d.nameAt? (.slot i p))
    (hsome : (d.assignment.lookup n).isSome) : r.check ctx (d.place i e) = .ok true := by
  have hspots := (pairwise_spots (fun p hp => .inl hp) d₀ order).imp fun {s t} hst =>
    (show (∃ p ∈ r.properties, s = .slot i p) →
        (∃ p ∈ r.properties, t = .slot i p) ∨ QuietAt i r.footprint t by
      rintro ⟨p, hp, rfl⟩
      by_cases ht : ∃ p ∈ r.properties, t = .slot i p
      · exact .inl ht
      · refine .inr fun q hq => ?_
        subst hq
        exact (hst hp).resolve_left fun hq => ht ⟨q, hq, rfl⟩)
  exact h.held_of_recorded hbuilt (watch_encodingRule hr active hs i)
    (fun htwin held => htwin.check_encodingRule hr held) hspots hd ⟨p, hp, rfl⟩ hn hsome e he

/-- After a property of a rule about charts, nothing is resolved that disturbs the rule. -/
theorem chartRule_order : ∀ r ∈ ChartRule.all, r.name ∉ ChartRule.aboutScales →
    Property.precedence.Pairwise fun p q =>
      p ∈ r.properties → q ∈ r.properties ∨ q.QuietFor r.footprint := by
  decide

theorem encodingRule_order : ∀ r ∈ EncodingRule.all, r.name ∉ EncodingRule.derived →
    Property.precedence.Pairwise fun p q =>
      p ∈ r.properties → q ∈ r.properties ∨ q.QuietFor r.footprint := by
  decide

/-- A draft that is found keeps every active rule of which a property was chosen on the way, the
rules apart that judge scales or look further than their properties. -/
theorem generate_sound {q : ChartQuery} {ctx : Context} {drafts : List Draft}
    (precedence : ctx.config.propertyPrecedence = Property.precedence)
    (plain : ctx.config.stylize = false) (h : (generate q ctx).outcome = .ok drafts) :
    ∀ d ∈ drafts,
      (∀ r ∈ ChartRule.all, r.isActive ctx.config = true → r.name ∉ ChartRule.aboutScales →
        ∀ s n, s.property ∈ r.properties → n ∈ d.nameAt? s → (d.assignment.lookup n).isSome →
          r.check ctx d = .ok true) ∧
      (∀ r ∈ EncodingRule.all, r.isActive ctx.config = true → r.name ∉ EncodingRule.derived →
        ∀ i e p n, d.encoding? i = some e → p ∈ r.properties → n ∈ d.nameAt? (.slot i p) →
          (d.assignment.lookup n).isSome → r.check ctx (d.place i e) = .ok true) := by
  intro d hd
  obtain ⟨d₀, hb, hstage⟩ := stage_of_generate precedence plain h
  have hbuilt := isBuilt_of_build hb
  constructor
  · intro r hr active hs s n hprop hn hsome
    obtain ⟨c, htwin, hc⟩ := hstage.sound d hd
    have hreach : d.Agree r.reach c :=
      htwin.alike.agree htwin.coherent htwin.copy_coherent r.reach
    rw [ChartRule.check_congr_reach hr hreach ctx]
    rw [Stage.nameAt?_eq hbuilt.coherent htwin hc] at hn
    rw [htwin.lookup_eq] at hsome
    have order := pairwise_spots (fun p hp => .inl hp) d₀
      ((chartRule_order r hr hs).filter d₀.slots.has)
    exact (watch_chartRule hr active hs).held_of_recorded hc hbuilt.coherent order hprop hn
      (by rw [hbuilt.assignment_eq]; rfl) hsome
  · intro r hr active hs i e p n he hprop hn hsome
    exact hstage.keeps_encodingRule hbuilt hr active hs
      ((encodingRule_order r hr hs).filter d₀.slots.has) hd he hprop hn hsome

/-- A bin that was switched on on the way is on a field of numbers in every chart that is found. -/
theorem generate_sound_openBin :
    ∃ drafts, (generate openBin ⟨oneField, { stylize := false }⟩).outcome = .ok drafts ∧
      drafts.length = 3 ∧
      ∀ d ∈ drafts, ∀ e, d.encoding? 0 = some e →
        EncodingRule.binAppliedForQuantitative.check ⟨oneField, { stylize := false }⟩ (d.place 0 e) =
          .ok true := by
  obtain ⟨drafts, hdrafts⟩ : ∃ drafts,
    (generate openBin ⟨oneField, { stylize := false }⟩).outcome = .ok drafts := ⟨_, rfl⟩
  have hcount : drafts.length = 3 := by
    cases hdrafts
    decide
  have hrecord : ∀ d ∈ drafts, d.nameAt? (.slot 0 .bin) = some "b0" ∧
      (d.assignment.lookup "b0").isSome := by
    cases hdrafts
    decide
  refine ⟨drafts, hdrafts, hcount, fun d hd e he => ?_⟩
  obtain ⟨hname, hsome⟩ := hrecord d hd
  exact (generate_sound rfl rfl hdrafts d hd).2 _ (by simp [EncodingRule.all])
    rfl (by decide) 0 e .bin "b0" he (by decide) hname hsome

end Draft
end ChartAdvisor
