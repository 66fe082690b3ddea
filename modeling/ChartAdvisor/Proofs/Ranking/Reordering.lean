import Mathlib.Algebra.BigOperators.Group.Finset.Basic
import Mathlib.Order.Bounds.Basic
import ChartAdvisor.Proofs.Charting
import ChartAdvisor.Proofs.Ranking.Styling

/-!
# Scores of drafts in another order

Two rankings judge the encodings of a draft as they come: whether one of them is such and such, what
each of them costs, and which is the best. Where several are best, their order decides which of them gives
the reason, but not what it is worth. So the sums stay when the encodings come in another order, and what
the channels are worth is told without an order: for each definition, the most that a channel of it is worth.
-/
namespace ChartAdvisor

theorem Feature.exactSum_perm {fs gs : List Feature} (h : fs.Perm gs) : exactSum fs = exactSum gs :=
  (h.map _).sum_eq

/-- The encodings that show data: constants show none, and what is switched off shows nothing. -/
def Draft.shown (d : Draft) : List Encoding := d.active.filter (!·.isValue)

namespace Effectiveness

/-! ## The best channel of each definition -/

/-- The text by which it is told whether two encodings show one thing. -/
abbrev definition (e : Encoding) : String := Shorthand.definition Include.all [] e none

/-- What an encoding is worth, by the type that it shows and the channel on which it does. -/
def channelWorth? (e : Encoding) : Option ℚ := do
  let t ← e.extendedType?
  let c ← e.channel?
  return (Binary64.ofThousandths (t.channelScore c)).toRat

/-- The definitions of what a draft shows. -/
def definitions (d : Draft) : Finset String := (d.shown.map definition).toFinset

/-- All numbers that channels are worth. -/
def channelScores : List Int :=
  [-20000, -10000, -4000, -3200, -3100, -3000, -2000, -800, -750, -725, -700, -650, -600, -575, 0]

theorem channelScore_mem (t : ExtendedType) (c : Channel) : t.channelScore c ∈ channelScores := by
  cases t <;> cases c <;> decide

/-- Rounding keeps the order of what channels are worth. -/
theorem toRat_channelScores_mono : ∀ n ∈ channelScores, ∀ m ∈ channelScores, n ≤ m →
    (Binary64.ofThousandths n).toRat ≤ (Binary64.ofThousandths m).toRat := by decide +kernel

theorem channelWorth?_eq_some_iff {e : Encoding} {w : ℚ} : channelWorth? e = some w ↔
    ∃ t c, e.extendedType? = some t ∧ e.channel? = some c ∧
      (Binary64.ofThousandths (t.channelScore c)).toRat = w := by
  unfold channelWorth?
  cases e.extendedType? <;> cases e.channel? <;> simp

theorem mem_typedChannels {d : Draft} {m : Mapping} : m ∈ typedChannels d ↔
    m.1 ∈ d.active ∧ m.1.extendedType? = some m.2.1 ∧ m.1.channel? = some m.2.2 := by
  obtain ⟨e, t, c⟩ := m
  unfold typedChannels
  simp only [List.mem_filterMap]
  constructor
  · rintro ⟨f, hf, heq⟩
    cases ht : f.extendedType? <;> cases hc : f.channel? <;> simp [ht, hc] at heq
    obtain ⟨rfl, rfl, rfl⟩ := heq
    exact ⟨hf, ht, hc⟩
  · rintro ⟨he, ht, hc⟩
    exact ⟨e, he, by simp [ht, hc]⟩

theorem mem_shown {d : Draft} {e : Encoding} {t : ExtendedType} (he : e ∈ d.active)
    (ht : e.extendedType? = some t) : e ∈ d.shown := by
  refine List.mem_filter.mpr ⟨he, ?_⟩
  cases e with
  | value => simp [Encoding.extendedType?] at ht
  | field | autoCount => rfl

/-- What the encodings of a definition are worth. -/
def worthsOf (d : Draft) (k : String) : Set ℚ :=
  {w | ∃ e ∈ d.shown, definition e = k ∧ channelWorth? e = some w}

/-- The most that an encoding of a definition is worth. -/
def bestOf (d : Draft) (k : String) : ℚ :=
  (Binary64.ofThousandths (bestUnder definitionOf worth (typedChannels d) k).1).toRat

theorem isGreatest_bestOf {d : Draft} {k : String} (hk : k ∈ (typedChannels d).map definitionOf) :
    IsGreatest (worthsOf d k) (bestOf d k) := by
  have hbest : bestUnder definitionOf worth (typedChannels d) k ∈
      ((typedChannels d).filter (definitionOf · = k)).map worth := by
    obtain ⟨m, hm, rfl⟩ := List.mem_map.mp hk
    exact best_mem (List.ne_nil_of_mem (List.mem_map_of_mem (List.mem_filter.mpr ⟨hm, by simp⟩)))
  obtain ⟨m, hm, hworth⟩ := List.mem_map.mp hbest
  obtain ⟨hmem, hkey⟩ := List.mem_filter.mp hm
  constructor
  · obtain ⟨hactive, ht, hc⟩ := mem_typedChannels.mp hmem
    refine ⟨m.1, mem_shown hactive ht, of_decide_eq_true hkey, ?_⟩
    exact channelWorth?_eq_some_iff.mpr ⟨m.2.1, m.2.2, ht, hc, by rw [bestOf, ← hworth]; rfl⟩
  · rintro w ⟨e, he, rfl, hw⟩
    obtain ⟨t, c, ht, hc, rfl⟩ := channelWorth?_eq_some_iff.mp hw
    have hother : (e, t, c) ∈ (typedChannels d).filter (definitionOf · = definition e) :=
      List.mem_filter.mpr ⟨mem_typedChannels.mpr ⟨(List.mem_filter.mp he).1, ht, hc⟩, by simp [definitionOf]⟩
    have hle : t.channelScore c ≤ (bestUnder definitionOf worth (typedChannels d) (definition e)).1 :=
      le_best (List.mem_map_of_mem (f := worth) hother)
    refine toRat_channelScores_mono _ (channelScore_mem t c) _ ?_ hle
    rw [← hworth]
    exact channelScore_mem m.2.1 m.2.2

/-- What the best channels are worth together does not depend on an order. -/
theorem exactSum_typeChannel_eq (d : Draft) : Feature.exactSum (typeChannel d) =
    ∑ k ∈ ((typedChannels d).map definitionOf).toFinset, bestOf d k := by
  have hkeys : ((typedChannels d).map definitionOf).eraseDups.toFinset =
      ((typedChannels d).map definitionOf).toFinset := by
    ext k
    simp
  rw [typeChannel_eq, ← hkeys, List.sum_toFinset _ (nodup_eraseDups _)]
  unfold bestFeatures Feature.exactSum
  rw [List.map_map]
  rfl

/-! ## The best dimension -/

/-- What a dimension on a chosen channel is worth. -/
def dimensionScore? (e : Encoding) : Option Int :=
  match e.field?, e.channel? with
  | some q, some c => if q.aggregate?.isNone then some (if c.isFacet then -2000 else 0) else none
  | _, _ => none

/-- One step of the search for the best dimension: a reason stays until there is a better one. -/
def keepDimension (best : Int × String) (e : Encoding) : Int × String :=
  match e.field?, e.channel? with
  | some q, some c =>
    let score : Int := if c.isFacet then -2000 else 0
    if q.aggregate?.isNone ∧ best.1 < score then (score, Vocabulary.name c) else best
  | _, _ => best

theorem keepDimension_fst (best : Int × String) (e : Encoding) :
    (keepDimension best e).1 = (dimensionScore? e).elim best.1 (max best.1) := by
  unfold keepDimension dimensionScore?
  cases e.field? with
  | none => rfl
  | some q =>
    cases e.channel? with
    | none => rfl
    | some c =>
      cases hq : q.aggregate? with
      | some _ => simp [hq]
      | none =>
        simp only [hq, Option.isNone_none, true_and, if_true, Option.elim_some]
        generalize (if c.isFacet then (-2000 : Int) else 0) = score
        split
        · next hlt => exact (max_eq_right hlt.le).symm
        · next hle => exact (max_eq_left (not_lt.mp hle)).symm

/-- The search ends at the maximum, whichever encoding it is found at. -/
theorem foldl_keepDimension_fst (es : List Encoding) (best : Int × String) :
    (es.foldl keepDimension best).1 = (es.filterMap dimensionScore?).foldl max best.1 := by
  induction es generalizing best with
  | nil => rfl
  | cons e rest ih =>
    rw [List.foldl_cons, ih, keepDimension_fst, List.filterMap_cons]
    cases dimensionScore? e <;> rfl

theorem dimension_eq (d : Draft) : dimension d = if d.isAggregate then
    [feature "dimension" (d.active.foldl keepDimension (-5000, "No Dimension")).2
      (d.active.foldl keepDimension (-5000, "No Dimension")).1] else [] := by
  unfold dimension
  cases d.isAggregate <;> rfl

theorem exactSum_dimension (d : Draft) : Feature.exactSum (dimension d) =
    if d.isAggregate then
      (Binary64.ofThousandths ((d.active.filterMap dimensionScore?).foldl max (-5000))).toRat
    else 0 := by
  rw [dimension_eq]
  split
  · simp [Feature.exactSum, feature, foldl_keepDimension_fst]
  · rfl

/-! ## Drafts in another order -/

section Perm

variable {d d' : Draft} (horder : d'.query.encodings.Perm d.query.encodings)
include horder

theorem active_perm : d'.active.Perm d.active := horder.filter _

theorem shown_perm : d'.shown.Perm d.shown := (active_perm horder).filter _

theorem typedChannels_perm : (typedChannels d').Perm (typedChannels d) := (active_perm horder).filterMap _

theorem isAggregate_perm : d'.isAggregate = d.isAggregate := horder.any_eq

theorem exactSum_typeChannel_perm :
    Feature.exactSum (typeChannel d') = Feature.exactSum (typeChannel d) := by
  have htyped := typedChannels_perm horder
  have hkeys : ((typedChannels d').map definitionOf).toFinset = ((typedChannels d).map definitionOf).toFinset :=
    List.toFinset_eq_of_perm _ _ (htyped.map _)
  -- Which encoding is the best of its definition may change, but not the greatest of what they are worth.
  have hworths (k : String) : worthsOf d' k = worthsOf d k := by
    unfold worthsOf
    simp only [(shown_perm horder).mem_iff]
  rw [exactSum_typeChannel_eq, exactSum_typeChannel_eq, hkeys]
  refine Finset.sum_congr rfl fun k hk => ?_
  have hmem := List.mem_toFinset.mp hk
  have hbest := isGreatest_bestOf ((htyped.map definitionOf).mem_iff.mpr hmem)
  rw [hworths] at hbest
  exact hbest.unique (isGreatest_bestOf hmem)

theorem exactSum_preferredAxis_perm (config : Config) :
    Feature.exactSum (preferredAxis config d') = Feature.exactSum (preferredAxis config d) :=
  Feature.exactSum_perm ((typedChannels_perm horder).filterMap _)

theorem exactSum_preferredFacet_perm (config : Config) :
    Feature.exactSum (preferredFacet config d') = Feature.exactSum (preferredFacet config d) := by
  refine Feature.exactSum_perm ?_
  unfold preferredFacet
  split
  · exact ((active_perm horder).filter _).map _
  · exact ((active_perm horder).filter _).map _
  · rfl

theorem exactSum_markChannel_perm (hmark : d'.query.mark = d.query.mark) :
    Feature.exactSum (markChannel d') = Feature.exactSum (markChannel d) := by
  have hchannels := (active_perm horder).filterMap Encoding.channel?
  refine Feature.exactSum_perm ?_
  unfold markChannel
  rw [hmark]
  split
  · exact hchannels.filterMap _
  · exact hchannels.filterMap _
  · rfl

theorem exactSum_dimension_perm :
    Feature.exactSum (dimension d') = Feature.exactSum (dimension d) := by
  have hbest := ((active_perm horder).filterMap dimensionScore?).foldl_eq (f := max) (-5000)
  rw [exactSum_dimension, exactSum_dimension, isAggregate_perm horder, hbest]

theorem exactSum_features_perm (config : Config) (hmark : d'.query.mark = d.query.mark) :
    Feature.exactSum (features config d') = Feature.exactSum (features config d) := by
  simp only [features, Feature.exactSum_append, exactSum_typeChannel_perm horder,
    exactSum_preferredAxis_perm horder, exactSum_preferredFacet_perm horder,
    exactSum_markChannel_perm horder hmark, exactSum_dimension_perm horder]

end Perm

/-! ## Drafts in which nothing is open -/

/-- What is shown where nothing is open has a type and a channel. -/
theorem channelWorth?_isSome {d : Draft} (resolved : d.query.hasOpen [] = false) {e : Encoding}
    (he : e ∈ d.shown) : (channelWorth? e).isSome = true := by
  obtain ⟨hactive, hdata⟩ := List.mem_filter.mp he
  have hany : d.query.encodings.any (·.hasOpen []) = false := (Bool.or_eq_false_iff.mp resolved).2
  have closed : ∀ p, e.isOpen p = false := Encoding.hasOpen_eq_false_iff.mp <| Bool.eq_false_iff.mpr <|
    List.any_eq_false.mp hany e (List.mem_filter.mp hactive).1
  have htype : e.extendedType?.isSome = true := by
    cases e with
    | value => simp [Encoding.isValue] at hdata
    | autoCount => rfl
    | field q =>
      have htype : q.type.value?.isSome = true := (Encoding.value?_isSome_iff q.type).mpr (closed .type)
      simp only [Encoding.extendedType?]
      split
      · rfl
      · split
        · rfl
        · rwa [Option.isSome_map]
  obtain ⟨t, ht⟩ := Option.isSome_iff_exists.mp htype
  obtain ⟨c, hc⟩ := Encoding.exists_channel_of_closed closed
  exact Option.isSome_of_mem (channelWorth?_eq_some_iff.mpr ⟨t, c, ht, hc, rfl⟩)

theorem definitions_eq {d : Draft} (resolved : d.query.hasOpen [] = false) :
    definitions d = ((typedChannels d).map definitionOf).toFinset := by
  ext k
  simp only [definitions, List.mem_toFinset, List.mem_map]
  constructor
  · rintro ⟨e, he, rfl⟩
    obtain ⟨w, hw⟩ := Option.isSome_iff_exists.mp (channelWorth?_isSome resolved he)
    obtain ⟨t, c, ht, hc, -⟩ := channelWorth?_eq_some_iff.mp hw
    exact ⟨(e, t, c), mem_typedChannels.mpr ⟨(List.mem_filter.mp he).1, ht, hc⟩, rfl⟩
  · rintro ⟨m, hm, rfl⟩
    obtain ⟨hactive, ht, -⟩ := mem_typedChannels.mp hm
    exact ⟨m.1, mem_shown hactive ht, rfl⟩

end Effectiveness

namespace Ranking

theorem aggregation_perm {d d' : Draft} (horder : d'.query.encodings.Perm d.query.encodings) :
    aggregation d' = aggregation d := by
  have hactive := Effectiveness.active_perm horder
  simp only [aggregation, Effectiveness.isAggregate_perm horder, hactive.any_eq]

/-- How well aggregation is used and how well channels show data are the same sums in whatever order the
encodings of a draft come. Where nothing is open, everything that is shown has a worth, and what the channels
are worth together is the sum, over the definitions of what is shown, of the most that an encoding of the
definition is worth. -/
theorem exactScore_reordered (ctx : Context) {d d' : Draft} (hmark : d'.query.mark = d.query.mark)
    (horder : d'.query.encodings.Perm d.query.encodings) :
    (∀ r : Ranking, r = .aggregationQuality ∨ r = .effectiveness →
      r.exactScore ctx d' = r.exactScore ctx d) ∧
    (d.query.hasOpen [] = false →
      (∀ e ∈ d.shown, (Effectiveness.channelWorth? e).isSome = true) ∧
      ∃ best : String → ℚ,
        (∀ k ∈ Effectiveness.definitions d, IsGreatest (Effectiveness.worthsOf d k) (best k)) ∧
        Feature.exactSum (Effectiveness.typeChannel d) = ∑ k ∈ Effectiveness.definitions d, best k) := by
  refine ⟨?_, fun resolved => ⟨fun e he => Effectiveness.channelWorth?_isSome resolved he,
    Effectiveness.bestOf d, fun k hk => ?_, ?_⟩⟩
  · rintro r (rfl | rfl)
    · simp [exactScore, score, features, aggregationFeature, aggregation_perm horder]
    · simpa [exactScore, score, features, Score.ofFeatures] using
        Effectiveness.exactSum_features_perm horder ctx.config hmark
  · rw [Effectiveness.definitions_eq resolved, List.mem_toFinset] at hk
    exact Effectiveness.isGreatest_bestOf hk
  · rw [Effectiveness.definitions_eq resolved]
    exact Effectiveness.exactSum_typeChannel_eq d

/-- A count of rows across names that are on both facets, and another count that is switched off. -/
def namesOnFacets : ChartQuery where
  mark := .fixed .bar
  encodings := [
    .field { channel := .fixed .row, field := .fixed "N", type := .fixed .nominal },
    .autoCount (.fixed .x) (.fixed true),
    .autoCount (.fixed .color) (.fixed false),
    .field { channel := .fixed .column, field := .fixed "N", type := .fixed .nominal }]

/-- The two facets are worth the same: another one gives the reason when the encodings are turned around,
and the sums stay. -/
theorem exactScore_reordered_facets : ∃ d d' : Draft,
    Draft.build namesOnFacets Draft.crowdedFields {} = .ok d ∧
      Draft.build { namesOnFacets with encodings := namesOnFacets.encodings.reverse } Draft.crowdedFields {} =
        .ok d' ∧
      d'.query.mark = d.query.mark ∧ d'.query.encodings.Perm d.query.encodings ∧
      d.query.hasOpen [] = false ∧
      Effectiveness.features {} d' ≠ Effectiveness.features {} d ∧
      (∀ r : Ranking, r = .aggregationQuality ∨ r = .effectiveness →
        r.exactScore ⟨Draft.crowdedFields, {}⟩ d' = r.exactScore ⟨Draft.crowdedFields, {}⟩ d) ∧
      ∃ best : String → ℚ,
        (∀ k ∈ Effectiveness.definitions d, IsGreatest (Effectiveness.worthsOf d k) (best k)) ∧
        Feature.exactSum (Effectiveness.typeChannel d) = ∑ k ∈ Effectiveness.definitions d, best k := by
  obtain ⟨d, hd⟩ : ∃ d, Draft.build namesOnFacets Draft.crowdedFields {} = .ok d := ⟨_, rfl⟩
  obtain ⟨d', hd'⟩ : ∃ d',
      Draft.build { namesOnFacets with encodings := namesOnFacets.encodings.reverse } Draft.crowdedFields {} =
        .ok d' := ⟨_, rfl⟩
  have hmark : d'.query.mark = d.query.mark := by
    cases hd
    cases hd'
    rfl
  have horder : d'.query.encodings.Perm d.query.encodings := by
    cases hd
    cases hd'
    decide
  have resolved : d.query.hasOpen [] = false := by
    cases hd
    decide
  have hreason : Effectiveness.features {} d' ≠ Effectiveness.features {} d := by
    cases hd
    cases hd'
    decide
  obtain ⟨hsame, hsum⟩ := exactScore_reordered ⟨Draft.crowdedFields, {}⟩ hmark horder
  exact ⟨d, d', hd, hd', hmark, horder, resolved, hreason, hsame, (hsum resolved).2⟩

end Ranking
end ChartAdvisor
