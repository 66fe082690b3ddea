import ChartAdvisor.Proofs.Query.Charts
import ChartAdvisor.Proofs.Query.DisabledCounts
import ChartAdvisor.Proofs.Query.Offering
import ChartAdvisor.Proofs.Ranking.Styling
import ChartAdvisor.Proofs.Search.Resolution

/-!
# Encodings in the charts that are found

A chart has one definition for each channel. No two encodings are put on one channel: each time that a
channel is chosen, all of them are looked at, those that the query put on a channel as well. What is
chosen later puts nothing on a channel, and at most takes a count of rows off again. So a chart has a
definition for each encoding that plays a part, as long as the search chose the channel of one of them.
Where the query fixed them all, no rule looks at them.
-/
namespace ChartAdvisor
namespace Draft

variable {ctx : Context} {q : ChartQuery} {d f : Draft} {p : Property} {drafts : List Draft}

/-- The search put an encoding on a channel: it is on one, and the query did not put it there. -/
def Placed (q : ChartQuery) (d : Draft) : Prop :=
  ∃ i, ((d.encoding? i).bind Encoding.countedChannel?).isSome = true ∧
    (q.encodings[i]?).bind Encoding.countedChannel? = none

/-- Whatever is on a channel in the later draft was there before. -/
def StaysPut (d f : Draft) : Prop :=
  ∀ i, Option.Rel (fun e e' : Encoding => ∀ c, e'.countedChannel? = some c → e.countedChannel? = some c)
    (d.encoding? i) (f.encoding? i)

namespace StaysPut

theorem placed (h : StaysPut d f) (hf : Placed q f) : Placed q d := by
  obtain ⟨i, hon, hopen⟩ := hf
  have hi := h i
  refine ⟨i, ?_, hopen⟩
  generalize d.encoding? i = a, f.encoding? i = b at hi hon
  cases hi with
  | none => exact hon
  | some hab =>
    obtain ⟨c, hc⟩ := Option.isSome_iff_exists.mp hon
    exact Option.isSome_of_mem (hab c hc)

theorem channels_sublist (h : StaysPut d f) : (ChartRule.channels f).Sublist (ChartRule.channels d) := by
  rw [channels_eq, channels_eq]
  refine sublist_filterMap_of_forall₂ (forall₂_of_getElem?_rel fun i => ?_) fun _ _ hab => hab
  have hi := h i
  unfold encoding? at hi
  generalize d.query.encodings[i]? = a, f.query.encodings[i]? = b at hi
  cases hi with
  | none => exact .none
  | some hab => exact .some hab

end StaysPut

/-! ## Walks -/

/-- A walk leaves alone what is not about its property. -/
theorem agreeOff_walk (hd : d.Coherent) (hn : (d.walk ctx p).failure = none) (hf : f ∈ (d.walk ctx p).found) :
    AgreeOff (·.property = p) d f := by
  rw [walk_eq_walkSpots] at hn hf
  have kept : Leaves (fun e => e.Coherent ∧ AgreeOff (·.property = p) d e) (walkSpots ctx (d.spots p) d) := by
    refine walkSpots_leaves ctx (fun s hs _ c e he hn => ⟨he.1.chooseAt s c, he.2.trans ?_⟩)
      (fun s hs _ e he hn => ⟨he.1.reopenAt s, he.2.trans ?_⟩) ⟨hd, .refl _ d⟩
    · exact (agreeOff_chooseAt he.1 hn).mono fun t ht => ht ▸ property_of_mem_spots hs
    · exact (agreeOff_reopenAt he.1 hn).mono fun t ht => ht ▸ property_of_mem_spots hs
  exact ((kept hn).2 f hf).2

/-- A count of rows that is switched off stays so in a walk. -/
theorem isDisabledAutoCount_walk (hd : d.Coherent) (hn : (d.walk ctx p).failure = none)
    (hf : f ∈ (d.walk ctx p).found) {i : Nat} {e e' : Encoding} (he : d.encoding? i = some e)
    (he' : f.encoding? i = some e') (hoff : e.isDisabledAutoCount = true) : e'.isDisabledAutoCount = true := by
  rw [walk_eq_walkSpots] at hn hf
  have passed : ∀ r, .slot i r ∈ d.spots p → d.SettledAt (.slot i r) := by
    intro r _ a ha hfrozen
    obtain rfl := Option.some.inj (he.symm.trans ha)
    simp [Encoding.isFrozen, hoff] at hfrozen
  have halike := ((walkSpots_alikeAt ctx hd passed hn).2 f hf).2
  rw [AlikeAt, he, he', Option.map_some, Option.map_some, Option.some.injEq] at halike
  have hagree : e'.Agree [.autoCount] e :=
    ⟨Encoding.kind_congr halike, fun r _ => Encoding.standing_congr halike r⟩
  rw [hagree.isDisabledAutoCount (by decide), hoff]

/-- Only walks through channels put something on a channel. -/
theorem staysPut_walk (hd : d.Coherent) (hp : p ≠ .channel) (hn : (d.walk ctx p).failure = none)
    (hf : f ∈ (d.walk ctx p).found) : StaysPut d f := by
  have hoff := agreeOff_walk hd hn hf
  intro i
  cases he : d.encoding? i with
  | none =>
    have hi := hoff.encodings i
    rw [he] at hi
    cases he' : f.encoding? i with
    | none => exact .none
    | some e' => rw [he'] at hi; exact absurd hi nofun
  | some e =>
    obtain ⟨e', he', hagree⟩ := hoff.encoding he
    rw [he']
    refine .some fun c hc => ?_
    have hchannels : e.Agree [.channel] e' := by
      refine hagree.agree fun r hr => ?_
      obtain rfl := List.mem_singleton.mp hr
      rintro (h | ⟨r, hr, -⟩)
      · exact hp h.symm
      · cases hr
    have hchannel : e.channel? = e'.channel? := hchannels.channel? (by decide)
    unfold Encoding.countedChannel? at hc ⊢
    split at hc
    · contradiction
    · next hon =>
      rw [if_neg fun hoff => hon (isDisabledAutoCount_walk hd hn hf he he' hoff), hchannel, hc]

theorem nodup_channels_of_verdictAt {s : Spot} (hs : s.property = .channel)
    (h : d.verdictAt ctx s = .ok none) : (ChartRule.channels d).Nodup := by
  have hrefused := refused?_of_verdictAt h
  rw [hs] at hrefused
  have hcheck := refused?_eq_none_iff.mp hrefused ChartRule.noRepeatedChannel
    (Rule.mem_about.mpr ⟨by simp [ChartRule.all], by decide, rfl⟩)
  exact of_decide_eq_true (Except.ok.inj hcheck)

/-- A walk through channels finds a draft again in which none is open, and drafts in which no two encodings share
one. -/
theorem walkSpots_channel (ctx : Context) {spots : List Spot} (hspots : ∀ s ∈ spots, s.property = .channel)
    (d : Draft) :
    Finds (fun _ => True) (fun f => f = d ∨ (ChartRule.channels f).Nodup) (walkSpots ctx spots d) := by
  induction spots generalizing d with
  | nil => exact fun _ => ⟨trivial, fun f hf => .inl (List.mem_singleton.mp hf)⟩
  | cons s rest ih =>
    obtain ⟨hs, hrest⟩ := List.forall_mem_cons.mp hspots
    cases hoffered : d.choicesAt? s with
    | none =>
      rw [walkSpots_of_passed hoffered]
      exact ih hrest d
    | some choices =>
      intro hn
      obtain ⟨_, rfl, htried, -, hfound, -⟩ := walkSpots_of_offered hoffered hn
      -- The rule looks at all channels again at each choice, so nothing needs to be known of the draft before.
      have step (c : Choice) (e : Draft) (_ : True) : Finds (fun _ => True)
          (fun f => (ChartRule.channels f).Nodup) (tryInPlace ctx s (walkSpots ctx rest) c e) := by
        intro hn
        obtain ⟨-, ⟨-, hnil, -⟩ | ⟨kept, heq⟩⟩ := tryInPlace_of_failure_eq_none hn
        · rw [hnil]
          exact ⟨trivial, fun _ hf => absurd hf List.not_mem_nil⟩
        · rw [heq] at hn ⊢
          refine ⟨trivial, fun f hf => ?_⟩
          rcases (ih hrest _ hn).2 f hf with rfl | hapart
          · exact nodup_channels_of_verdictAt hs kept
          · exact hapart
      rw [hfound]
      exact ⟨trivial, fun f hf => .inr ((Finds.tryAll step trivial htried).2 f hf)⟩

/-- No walk puts two encodings on one channel. -/
theorem apart_walk (hd : d.Coherent) (h : Placed q d → (ChartRule.channels d).Nodup)
    (hn : (d.walk ctx p).failure = none) (hf : f ∈ (d.walk ctx p).found) :
    Placed q f → (ChartRule.channels f).Nodup := by
  intro hplaced
  by_cases hp : p = .channel
  · rw [walk_eq_walkSpots] at hn hf
    have hspots : ∀ s ∈ d.spots p, s.property = .channel := fun s hs => (property_of_mem_spots hs).trans hp
    rcases (walkSpots_channel ctx hspots d hn).2 f hf with rfl | hapart
    · exact h hplaced
    · exact hapart
  -- A count of rows that is switched off gives up its channel; everything else keeps its own.
  · have hstays := staysPut_walk hd hp hn hf
    exact (h (hstays.placed hplaced)).sublist hstays.channels_sublist

/-! ## Searches -/

/-- Nothing is put on a channel yet when a draft is built. -/
theorem IsBuilt.not_placed {schema : Schema} {config : Config} (h : IsBuilt q schema config d) : ¬Placed q d := by
  rintro ⟨i, hon, hopen⟩
  rw [encoding?, h.query_eq, h.origin_eq] at hon
  simp only [List.getElem?_map, getElem?_fillEncodings] at hon
  cases hi : q.encodings[i]? with
  | some e =>
    rw [hi, Option.bind_some] at hopen
    simp only [hi, Option.map_some, Option.bind_some, Encoding.countedChannel?_fill, hopen] at hon
    contradiction
  | none =>
    simp only [hi] at hon
    split at hon <;> contradiction

/-- Where the search put an encoding on a channel, no two encodings of what is found share one. -/
theorem nodup_channels_of_generate (h : (generate q ctx).outcome = .ok drafts) :
    ∀ d ∈ drafts, Placed q d → (ChartRule.channels d).Nodup := by
  obtain ⟨d₀, steps, found, hb, -, hfound, hstyled⟩ := generate_eq_ok h
  have hbuilt := isBuilt_of_build hb
  have hstart : ∀ d ∈ [d₀], ComesOf d₀ d ∧ (Placed q d → (ChartRule.channels d).Nodup) := by
    intro d hd
    obtain rfl := List.mem_singleton.mp hd
    exact ⟨⟨hbuilt.sourced, rfl, rfl⟩, fun hplaced => absurd hplaced hbuilt.not_placed⟩
  have hkept := resolveAll_found (P := fun _ d => ComesOf d₀ d ∧ (Placed q d → (ChartRule.channels d).Nodup)) []
    (fun _ p _ _ d hd hn f hf => ⟨((hd.1.walk ctx p).leaves hn).2 f hf,
      apart_walk hd.1.sourced.coherent hd.2 hn hf⟩) hstart hfound
  intro d hd hplaced
  obtain ⟨f, hf, rfl | ⟨-, hstyle⟩⟩ := hstyled d hd
  · exact (hkept _ hf).2 hplaced
  · have hagree := (rankedAlike_of_stylize hstyle).2
    have hstays : StaysPut f d := by
      intro i
      have hi := hagree.encoding? i
      generalize f.encoding? i = a, d.encoding? i = b at hi
      cases hi with
      | none => exact .none
      | some hab => exact .some fun c hc => (hab.countedChannel? (by decide) (by decide)).trans hc
    exact ((hkept f hf).2 (hstays.placed hplaced)).sublist hstays.channels_sublist

/-- The chart of a draft has one definition for each encoding that plays a part, the one that is made of it. -/
def HasAll (d : Draft) (c : Chart) : Prop :=
  ∃ entries, List.Forall₂ (fun (e : Encoding) x => e.channel? = some x.1 ∧ e.definition? x.1 = some x.2)
    d.query.active entries ∧ c.encoding.Perm entries

theorem hasAll_of_nodup {c : Chart} (hc : d.toChart? = some c) (apart : (ChartRule.channels d).Nodup) :
    d.HasAll c := by
  obtain ⟨mark, -, hc⟩ := Option.bind_eq_some_iff.mp hc
  obtain ⟨defs, hdefs, hc⟩ := Option.bind_eq_some_iff.mp hc
  obtain rfl := Option.some.inj hc
  exact ChartQuery.definitions?_perm hdefs apart

/-- A chart that is found has one definition for each encoding that plays a part, as long as the search put one
of them on its channel, or the query put them all on different ones. -/
theorem generate_loses_no_encoding (h : (generate q ctx).outcome = .ok drafts) (hd : d ∈ drafts) {c : Chart}
    (hc : d.toChart? = some c) (apart : Placed q d ∨ (ChartRule.channels d).Nodup) : d.HasAll c :=
  hasAll_of_nodup hc (apart.elim (nodup_channels_of_generate h d hd) id)

/-- Points at two numbers, the first of them on `x`. -/
def besideX (channel : Slot Channel) : ChartQuery where
  mark := .fixed .point
  encodings := [
    .field { channel := .fixed .x, field := .fixed "Q", type := .fixed .quantitative },
    .field { channel, field := .fixed "R", type := .fixed .quantitative }]

/-- One draft is found for the points, with a chart. -/
theorem besideX_found (channel : Slot Channel) (axis : Channel) (n : Nat)
    (h : ((generate (besideX channel) ⟨threeFields, { stylize := false }⟩).outcome.map fun drafts =>
      drafts.map fun d => (d.query, d.toChart?.map fun c => c.encoding.length)).toOption =
        some [(besideX (.fixed axis), some n)]) :
    ∃ d c, (generate (besideX channel) ⟨threeFields, { stylize := false }⟩).outcome = .ok [d] ∧
      d.query = besideX (.fixed axis) ∧ d.toChart? = some c ∧ c.encoding.length = n := by
  obtain ⟨drafts, hdrafts, hmap⟩ := exists_of_map_toOption h
  obtain ⟨d, rfl, hd⟩ := List.map_eq_singleton_iff.mp hmap
  obtain ⟨hquery, hchart⟩ := Prod.mk.inj hd
  obtain ⟨c, hc, hlength⟩ := Option.map_eq_some_iff.mp hchart
  exact ⟨d, c, hdrafts, hquery, hc, hlength⟩

/-- The second number can only be put on `y`, and both are in the chart. -/
theorem generate_loses_no_encoding_besideX : ∃ d c,
    (generate (besideX (.wild {})) ⟨threeFields, { stylize := false }⟩).outcome = .ok [d] ∧
      d.toChart? = some c ∧ Placed (besideX (.wild {})) d ∧ c.encoding.length = 2 ∧ d.HasAll c := by
  obtain ⟨d, c, hfound, hd, hc, hlength⟩ := besideX_found (.wild {}) .y 2 (by decide)
  have hplaced : Placed (besideX (.wild {})) d := by
    refine ⟨1, ?_, by decide⟩
    rw [encoding?, hd]
    decide
  exact ⟨d, c, hfound, hc, hplaced, hlength,
    generate_loses_no_encoding hfound (List.mem_singleton_self d) hc (.inl hplaced)⟩

/-- With both numbers fixed on `x`, no channel is chosen, so that no rule looks at them; and the chart has a
definition for one of them only. -/
theorem generate_loses_encoding : ¬ ∀ (q : ChartQuery) (ctx : Context) (drafts : List Draft),
    (generate q ctx).outcome = .ok drafts → ∀ d ∈ drafts, ∀ c, d.toChart? = some c → d.HasAll c := by
  intro h
  obtain ⟨d, c, hfound, hd, hc, hlength⟩ := besideX_found (.fixed .x) .x 1 (by decide)
  obtain ⟨entries, hentries, hperm⟩ := h _ _ _ hfound d (List.mem_singleton_self d) c hc
  have htwo : d.query.active.length = 2 := by
    rw [hd]
    decide
  have hsame : d.query.active.length = c.encoding.length := hentries.length_eq.trans hperm.length_eq.symm
  rw [htwo, hlength] at hsame
  exact absurd hsame (by decide)

end Draft
end ChartAdvisor
