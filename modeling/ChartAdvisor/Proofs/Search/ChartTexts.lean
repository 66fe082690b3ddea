import ChartAdvisor.Proofs.Search.Legibility
import ChartAdvisor.Proofs.Shorthand.Charts

/-!
# Shorthands of charts that are found

A draft that is found and its chart have one shorthand, if the default settings of charts do not touch
the stack. It is lost where a count of rows accumulates, or where a scale is written that a chart does
not keep.
-/
namespace ChartAdvisor
namespace Draft

variable {q : ChartQuery} {ctx : Context} {drafts : List Draft}

/-! ## The settings that a chart starts from -/

theorem defaults_chooseAt (d : Draft) (s : Spot) (c : Choice) : (d.chooseAt s c).1.defaults = d.defaults := by
  cases s with
  | mark =>
    dsimp only [chooseAt, setMark]
    split
    · split <;> rfl
    · rfl
  | slot i p =>
    change (d.assign i p c).1.defaults = d.defaults
    unfold assign
    split
    · rfl
    · rfl
    · simp only
      split <;> rfl

theorem defaults_reopenAt (d : Draft) (s : Spot) : (d.reopenAt s).1.defaults = d.defaults := by
  cases s with
  | mark =>
    change d.resetMark.defaults = d.defaults
    unfold resetMark
    split <;> rfl
  | slot i p =>
    change (d.reset i p).1.defaults = d.defaults
    unfold reset
    split <;> rfl

/-- A search takes the settings over with which it started. -/
theorem defaults_walk {d₀ d : Draft} (p : Property)
    (h : ComesOf d₀ d ∧ d.defaults = d₀.defaults) :
    Ends ctx (fun f => ComesOf d₀ f ∧ f.defaults = d₀.defaults) (d.walk ctx p) := by
  rw [walk_eq_walkSpots]
  refine walkSpots_ends ctx (hosts_spots d p) (fun _ hf => hf.1.sourced) (fun s hs f hf => ?_)
    (fun s _ c f hf hc hn => ⟨hf.1.chooseAt hc hn, (f.defaults_chooseAt s c).trans hf.2⟩)
    (fun s _ f hf hn => ⟨hf.1.reopenAt hn, (f.defaults_reopenAt s).trans hf.2⟩) h
  exact named_of_mem_spots (by rwa [spots_congr (hf.1.slots.trans h.1.slots.symm)])

theorem stylable_defaults (schema : Schema) (defaults : Json.Members) :
    Stylable schema (fun d => d.defaults = defaults) fun _ => True where
  put h _ _ _ := h
  counts _ _ _ := trivial

theorem defaults_of_build {schema : Schema} {config : Config} {d : Draft}
    (h : build q schema config = .ok d) : d.defaults = config.defaultSpecConfig := by
  unfold build at h
  split at h
  · contradiction
  · simp only at h
    split at h
    · contradiction
    · cases h
      rfl

/-- What is found starts from the settings of the configuration. -/
theorem defaults_of_generate (h : (generate q ctx).outcome = .ok drafts) :
    ∀ d ∈ drafts, d.defaults = ctx.config.defaultSpecConfig := by
  obtain ⟨d₀, steps, found, hb, -, hfound, hstyled⟩ := generate_eq_ok h
  have hstart : ∀ d ∈ [d₀], ComesOf d₀ d ∧ d.defaults = d₀.defaults := by
    intro d hd
    obtain rfl := List.mem_singleton.mp hd
    exact ⟨⟨(isBuilt_of_build hb).sourced, rfl, rfl⟩, rfl⟩
  have hkept := Ends.of_resolveAll (fun p d => defaults_walk p) hstart hfound
  intro d hd
  obtain ⟨f, hf, rfl | ⟨-, hstyle⟩⟩ := hstyled d hd
  · exact (hkept _ hf).2.trans (defaults_of_build hb)
  · have hdefaults := (hkept f hf).2.trans (defaults_of_build hb)
    exact ((stylable_defaults ctx.schema _).stylize hdefaults ctx.config).kept d hstyle

/-! ## Charts -/

/-- The chart of a draft that is found has the shorthand of the draft, if each channel has one encoding at
most, what accumulates is a field, and each scale that is written stands on a channel with a scale. -/
theorem generate_shorthand_chart (ordered : (Json.object ctx.config.defaultSpecConfig).Ordered)
    (plain : ctx.config.defaultSpecConfig.lookup "stack" = none)
    (h : (generate q ctx).outcome = .ok drafts) :
    ∀ d ∈ drafts, ∀ c, d.toChart? = some c → d.query.ChannelsApart → d.query.IsChartable →
      d.query.StacksField → (∀ e ∈ d.query.active, e.KeepsScale) → c.shorthand = .ok d.shorthand := by
  intro d hd c hc apart chartable fields scales
  have hdefaults := defaults_of_generate h d hd
  exact chartable.shorthand_chart apart fields scales (hdefaults ▸ ordered) (hdefaults ▸ plain) hc

/-- The default settings of charts are in order. -/
theorem ordered_defaultSpecConfig : (Json.object ({} : Config).defaultSpecConfig).Ordered := by
  have hsorted : (Json.object ({} : Config).defaultSpecConfig).sorted =
      .object ({} : Config).defaultSpecConfig := by decide
  exact hsorted ▸ Json.ordered_sorted _

theorem isChartable_splitBars : (splitBars (.fixed (some .sum)) none).IsChartable where
  transform _ h := absurd h (Option.not_mem_none _)
  config _ h := absurd h (Option.not_mem_none _)
  encodings e he := by
    have he := (List.mem_filter.mp he).1
    simp only [splitBars, List.mem_cons, List.not_mem_nil, or_false] at he
    have hnone {α : Type} {P : α → Prop} : ∀ a, none = some a → P a := fun _ h =>
      absurd h (Option.not_mem_none _)
    rcases he with rfl | rfl
    all_goals exact ⟨by decide, hnone, hnone, hnone, hnone⟩

/-- The sums that are found are written as their chart is. -/
theorem generate_shorthand_chart_splitBars :
    ∃ drafts, (generate (splitBars sumOrMean none) ⟨threeFields, { stylize := false }⟩).outcome =
        .ok drafts ∧ drafts.length = 1 ∧
      ∀ d ∈ drafts, ∃ c, d.toChart? = some c ∧ c.shorthand = .ok d.shorthand := by
  obtain ⟨d, hfound, hd, hchart⟩ := splitBars_found none (.inl rfl)
  obtain ⟨c, hc⟩ := Option.isSome_iff_exists.mp hchart
  refine ⟨[d], hfound, rfl, List.forall_mem_singleton.mpr ⟨c, hc, ?_⟩⟩
  refine generate_shorthand_chart ordered_defaultSpecConfig (by decide) hfound d
    (List.mem_singleton_self d) c hc ?_ ?_ ?_ ?_
  · rw [hd]
    decide
  · rw [hd]
    exact isChartable_splitBars
  · rw [hd]
    exact stacksField_splitBars none
  · rw [hd]
    intro e he
    have he := (List.mem_filter.mp he).1
    simp only [splitBars, List.mem_cons, List.not_mem_nil, or_false] at he
    rcases he with rfl | rfl <;> exact fun t ht => absurd ht (Option.not_mem_none t)

/-! ## Where the texts differ -/

/-- Bars of the numbers of rows, split by the colour of a name. -/
def countedBars (count : Encoding) (settings : Option Json.Members) : ChartQuery where
  mark := .fixed .bar
  encodings := [.field { channel := .fixed .color, field := .fixed "N", type := .fixed .nominal }, count]
  config := settings

/-- Points in rows by a name, with a scale for the rows or without. -/
def pointsInRows (scale : Option (Toggle Scale)) (settings : Option Json.Members) : ChartQuery where
  mark := .fixed .point
  encodings := [
    .field { channel := .fixed .row, field := .fixed "N", type := .fixed .nominal, scale },
    .field { channel := .fixed .x, field := .fixed "Q", type := .fixed .quantitative }]
  config := settings

/-- A query that is found as it is, with what its chart is read as. -/
theorem exists_chart_of_found (q : ChartQuery) (ctx : Context) (r : ChartQuery)
    (h : ((generate q ctx).outcome.map fun drafts =>
      drafts.map fun d => (d.query, d.toChart?.bind fun c => c.toQuery.toOption)).toOption =
        some [(q, some r)]) :
    ∃ d c, (generate q ctx).outcome = .ok [d] ∧ d.query = q ∧ d.toChart? = some c ∧
      c.shorthand = .ok r.shorthand := by
  obtain ⟨drafts, hdrafts, hmap⟩ := exists_of_map_toOption h
  obtain ⟨d, rfl, hd⟩ := List.map_eq_singleton_iff.mp hmap
  obtain ⟨hquery, hchart⟩ := Prod.mk.inj hd
  obtain ⟨c, hc, hread⟩ := Option.bind_eq_some_iff.mp hchart
  refine ⟨d, c, hdrafts, hquery, hc, ?_⟩
  unfold Chart.shorthand
  cases hq : c.toQuery with
  | error e => rw [hq] at hread; contradiction
  | ok r' =>
    rw [hq] at hread
    obtain rfl : r' = r := Option.some.inj hread
    rfl

/-- The bars that are found are written without their stack, and as their chart with it: the count of
rows is a field there. -/
theorem countedBars_found : ∃ d c,
    (generate (countedBars (.autoCount (.fixed .x) (.fixed true)) none)
      ⟨threeFields, { stylize := false }⟩).outcome = .ok [d] ∧
      d.query = countedBars (.autoCount (.fixed .x) (.fixed true)) none ∧ d.toChart? = some c ∧
      c.shorthand ≠ .ok d.shorthand := by
  obtain ⟨d, c, hfound, hd, hc, hread⟩ := exists_chart_of_found
    (countedBars (.autoCount (.fixed .x) (.fixed true)) none) ⟨threeFields, { stylize := false }⟩
    (countedBars (.field (.countOfRows (.fixed .x))) (some ({} : Config).defaultSpecConfig))
    (by decide)
  refine ⟨d, c, hfound, hd, hc, fun hsame => ?_⟩
  have htext := Except.ok.inj (hread.symm.trans hsame)
  rw [shorthand, hd, ChartQuery.shorthand_of_sorted (m := .bar) rfl rfl (by decide) (by decide),
    ChartQuery.shorthand_of_sorted (m := .bar) rfl rfl (by decide) (by decide)] at htext
  exact absurd htext (by decide)

/-- The rows that are found are written with their scale, which their chart does not have. -/
theorem pointsInRows_found : ∃ d c,
    (generate (pointsInRows (some (.on { round := some (.fixed true) })) none)
      ⟨threeFields, { stylize := false }⟩).outcome = .ok [d] ∧
      d.query = pointsInRows (some (.on { round := some (.fixed true) })) none ∧ d.toChart? = some c ∧
      c.shorthand ≠ .ok d.shorthand := by
  obtain ⟨d, c, hfound, hd, hc, hread⟩ := exists_chart_of_found
    (pointsInRows (some (.on { round := some (.fixed true) })) none) ⟨threeFields, { stylize := false }⟩
    (pointsInRows none (some ({} : Config).defaultSpecConfig)) (by decide)
  refine ⟨d, c, hfound, hd, hc, fun hsame => ?_⟩
  have htext := Except.ok.inj (hread.symm.trans hsame)
  rw [shorthand, hd, ChartQuery.shorthand_of_sorted (m := .point) rfl rfl (by decide) (by decide),
    ChartQuery.shorthand_of_sorted (m := .point) rfl rfl (by decide) (by decide)] at htext
  exact absurd htext (by decide)

/-- The two texts differ for a count of rows that accumulates, and for a scale on a channel without. -/
theorem generate_shorthand_chart_limits :
    (¬ ∀ (q : ChartQuery) (ctx : Context) (drafts : List Draft),
      ctx.config.defaultSpecConfig.lookup "stack" = none → (generate q ctx).outcome = .ok drafts →
      ∀ d ∈ drafts, ∀ c, d.toChart? = some c → d.query.ChannelsApart → d.query.IsChartable →
        (∀ e ∈ d.query.active, e.KeepsScale) → c.shorthand = .ok d.shorthand) ∧
    (¬ ∀ (q : ChartQuery) (ctx : Context) (drafts : List Draft),
      ctx.config.defaultSpecConfig.lookup "stack" = none → (generate q ctx).outcome = .ok drafts →
      ∀ d ∈ drafts, ∀ c, d.toChart? = some c → d.query.ChannelsApart → d.query.IsChartable →
        d.query.StacksField → c.shorthand = .ok d.shorthand) := by
  have hnone {α : Type} {P : α → Prop} : ∀ a, none = some a → P a := fun _ h =>
    absurd h (Option.not_mem_none _)
  have hplain (name : String) (hname : name ≠ Wildcard.mark) (channel : Slot Channel) (type : Slot FieldType) :
      FieldEncoding.IsChartable { channel, field := .fixed name, type } :=
    ⟨fun h => hname (Slot.fixed.inj h), hnone, hnone, hnone, hnone⟩
  refine ⟨fun h => ?_, fun h => ?_⟩
  · obtain ⟨d, c, hfound, hd, hc, hne⟩ := countedBars_found
    refine hne (h _ _ _ (by decide) hfound d (List.mem_singleton_self d) c hc (hd ▸ by decide) ?_ ?_)
    · rw [hd]
      refine ⟨hnone, fun e he => ?_, hnone⟩
      have he := (List.mem_filter.mp he).1
      simp only [countedBars, List.mem_cons, List.not_mem_nil, or_false] at he
      rcases he with rfl | rfl
      · exact hplain "N" (by decide) _ _
      · trivial
    · rw [hd]
      intro e he
      have he := (List.mem_filter.mp he).1
      simp only [countedBars, List.mem_cons, List.not_mem_nil, or_false] at he
      rcases he with rfl | rfl
      · exact hnone
      · trivial
  · obtain ⟨d, c, hfound, hd, hc, hne⟩ := pointsInRows_found
    refine hne (h _ _ _ (by decide) hfound d (List.mem_singleton_self d) c hc (hd ▸ by decide) ?_ ?_)
    · rw [hd]
      refine ⟨hnone, fun e he => ?_, hnone⟩
      have he := (List.mem_filter.mp he).1
      simp only [pointsInRows, List.mem_cons, List.not_mem_nil, or_false] at he
      rcases he with rfl | rfl
      · refine ⟨by decide, hnone, ?_, hnone, hnone⟩
        rintro s hs p x hx
        obtain rfl := Option.some.inj hs
        cases p <;> try contradiction
        obtain rfl := Slot.fixed.inj (Option.some.inj hx)
        exact ⟨.bool true, id⟩
      · exact hplain "Q" (by decide) _ _
    · rw [hd]
      exact hnone

end Draft
end ChartAdvisor
