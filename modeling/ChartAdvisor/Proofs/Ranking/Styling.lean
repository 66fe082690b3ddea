import ChartAdvisor.Proofs.Ranking.Sharing
import ChartAdvisor.Proofs.Rules.Styling
import Mathlib.Tactic.Ring

/-!
# Styled drafts in rankings

No ranking asks for the scale of a field but one, and that one only by the way: the best channel of each
definition counts, and a definition is the text of a field with its scale. Where styling keeps apart what
was apart and together what was together, the scores stay. Where two encodings show one field and only
one of them is styled, they no longer have one definition, and the second one counts as well.
-/
namespace ChartAdvisor

/-! ## What rankings ask for -/

/-- The properties that rankings read, what a definition is made of apart. -/
def Ranking.inputs : List Property :=
  [.mark, .channel, .autoCount, .aggregate, .bin, .timeUnit, .type, .field]

namespace Encoding.Agree

variable {e f : Encoding} {ps : List Property}

theorem extendedType? (h : e.Agree ps f) (ht : .type ∈ ps) (hb : .bin ∈ ps) (hu : .timeUnit ∈ ps) :
    e.extendedType? = f.extendedType? := by
  obtain ⟨hk, hs⟩ := h
  cases e <;> cases f <;> first | contradiction | rfl | skip
  have hs : FieldEncoding.Agree ps _ _ := hs
  simp only [Encoding.extendedType?, FieldEncoding.isBinned_congr hs hb,
    FieldEncoding.timeUnit?_congr hs hu, FieldEncoding.type_congr hs ht]

end Encoding.Agree

namespace Draft.Agree

variable {d d' : Draft} (h : d.Agree Ranking.inputs d')
include h

theorem sameChannels : Effectiveness.SameChannels d d' := by
  refine List.rel_filterMap ?_ (h.active (by decide))
  intro e f he
  simp only [he.extendedType? (by decide) (by decide) (by decide), he.channel? (by decide)]
  cases f.extendedType? with
  | none => exact .none
  | some t =>
    cases f.channel? with
    | none => exact .none
    | some c => exact .some rfl

theorem aggregation_eq : Ranking.aggregation d = Ranking.aggregation d' := by
  have ha := h.active (by decide)
  have hmeasure := any_eq_of_forall₂ ha fun _ _ he =>
    he.isMeasure (by decide) (by decide) (by decide)
  have hdimension := any_eq_of_forall₂ ha fun _ _ he =>
    he.isDimension (by decide) (by decide) (by decide)
  have hraw : d.active.any Ranking.isRawContinuous = d'.active.any Ranking.isRawContinuous :=
    any_eq_of_forall₂ ha fun _ _ he => he.field?_any fun q r hqr => by
      rw [FieldEncoding.type_is_congr hqr (by decide), FieldEncoding.type_is_congr hqr (by decide),
        FieldEncoding.isBinned_congr hqr (by decide), FieldEncoding.aggregate?_congr hqr (by decide),
        FieldEncoding.timeUnit?_congr hqr (by decide)]
  have hcount : d.active.any Ranking.isCount = d'.active.any Ranking.isCount :=
    any_eq_of_forall₂ ha fun _ _ he => he.field?_any fun q r hqr => by
      rw [FieldEncoding.aggregate?_congr hqr (by decide)]
  simp only [Ranking.aggregation, h.isAggregate (by decide) (by decide), hmeasure, hdimension, hraw, hcount]

/-- The same encodings hold fields, and where they are chosen they are the same. -/
theorem fields_at (is : List Nat) :
    List.Forall₂ (fun a b : Nat × FieldEncoding => a.1 = b.1 ∧ a.2.field.value? = b.2.field.value?)
      (is.filterMap fun i => ((d.encoding? i).bind Encoding.field?).map (i, ·))
      (is.filterMap fun i => ((d'.encoding? i).bind Encoding.field?).map (i, ·)) := by
  refine List.rel_filterMap (R := Eq) ?_ (List.forall₂_refl is)
  rintro i _ rfl
  have hi := h.encoding? i
  beta_reduce
  generalize d.encoding? i = a, d'.encoding? i = b at hi
  cases hi with
  | none => exact .none
  | some he =>
    rcases he.field_cases with ⟨q, r, rfl, rfl, hqr⟩ | ⟨hq, hr⟩
    · exact .some ⟨rfl, FieldEncoding.field_congr hqr (by decide)⟩
    · simp only [Option.bind_some, hq, hr]
      exact .none

theorem fieldOrderFeatures_eq (hslots : d.slots = d'.slots) (schema : Schema) :
    Ranking.fieldOrderFeatures schema d = Ranking.fieldOrderFeatures schema d' := by
  unfold Ranking.fieldOrderFeatures
  rw [hslots]
  refine congrArg Prod.fst (foldl_eq_of_forall₂ (h.fields_at _) ?_ _)
  rintro ⟨found, weight⟩ ⟨i, q⟩ ⟨j, r⟩ ⟨rfl, hqr⟩
  simp only [hqr]

theorem preferredAxis_eq (config : Config) :
    Effectiveness.preferredAxis config d = Effectiveness.preferredAxis config d' :=
  filterMap_eq_of_forall₂ h.sameChannels fun m m' hm => by
    obtain ⟨e, t, c⟩ := m
    obtain ⟨e', t', c'⟩ := m'
    obtain ⟨rfl, rfl⟩ := Prod.mk.inj hm
    rfl

theorem preferredFacet_eq (config : Config) :
    Effectiveness.preferredFacet config d = Effectiveness.preferredFacet config d' := by
  have hlength (c : Channel) :
      (d.active.filter (·.channel.is c)).length = (d'.active.filter (·.channel.is c)).length :=
    (filter_rel_of_forall₂ (h.active (by decide)) fun _ _ he => he.channel_is (by decide) c).length_eq
  simp only [Effectiveness.preferredFacet, List.map_const', hlength]

theorem markChannel_eq : Effectiveness.markChannel d = Effectiveness.markChannel d' := by
  have hchannels : d.active.filterMap Encoding.channel? = d'.active.filterMap Encoding.channel? :=
    h.channels (by decide) (by decide)
  simp only [Effectiveness.markChannel, h.mark_value? (by decide), hchannels]

theorem dimension_eq : Effectiveness.dimension d = Effectiveness.dimension d' := by
  unfold Effectiveness.dimension
  rw [h.isAggregate (by decide) (by decide)]
  split
  · rfl
  · refine congrArg (fun best : Int × String => [Effectiveness.feature "dimension" best.2 best.1])
      (foldl_eq_of_forall₂ (h.active (by decide)) (fun best e f he => ?_) _)
    rw [he.channel? (by decide)]
    rcases he.field_cases with ⟨q, r, rfl, rfl, hqr⟩ | ⟨he, hf⟩
    · have hfunction : q.aggregate? = r.aggregate? := FieldEncoding.aggregate?_congr hqr (by decide)
      cases (Encoding.field r).channel? <;> simp only [Encoding.field?, hfunction]
    · rw [he, hf]

end Draft.Agree
/-! ## Scores of styled drafts -/

/-- The exact sum of the reasons that a score adds up. -/
def Ranking.exactScore (r : Ranking) (ctx : Context) (d : Draft) : ℚ :=
  Feature.exactSum (r.score ctx d).features

namespace Draft

theorem stylable_rankedAlike (schema : Schema) (d : Draft) :
    Stylable schema (fun d' => d.slots = d'.slots ∧ d.Agree Ranking.inputs d') fun _ => True where
  put h hi _ hf := ⟨h.1, h.2.trans (hf.agree_putField hi (by decide))⟩
  counts _ _ _ := trivial

/-- Styling changes nothing that rankings ask for. -/
theorem rankedAlike_of_stylize {schema : Schema} {config : Config} {d d' : Draft}
    (h : d.stylize schema config = .ok d') : d.slots = d'.slots ∧ d.Agree Ranking.inputs d' :=
  ((stylable_rankedAlike schema d).stylize ⟨rfl, .refl _ d⟩ config).kept d' h

section Features

variable {d d' : Draft} (hslots : d.slots = d'.slots) (h : d.Agree Ranking.inputs d')
include h

/-- Of how well channels show data, styling touches no part but the best channels. -/
theorem effectiveness_features (config : Config) : ∃ others,
    Effectiveness.features config d = Effectiveness.typeChannel d ++ others ∧
      Effectiveness.features config d' = Effectiveness.typeChannel d' ++ others := by
  refine ⟨Effectiveness.preferredAxis config d' ++ Effectiveness.preferredFacet config d' ++
    Effectiveness.markChannel d' ++ Effectiveness.dimension d', ?_, ?_⟩ <;>
    simp only [Effectiveness.features, h.preferredAxis_eq, h.preferredFacet_eq, h.markChannel_eq,
      h.dimension_eq, List.append_assoc]

include hslots

/-- Two rankings do not ask for channels. -/
theorem score_eq (ctx : Context) {r : Ranking} (hr : r = .aggregationQuality ∨ r = .fieldOrder) :
    r.score ctx d = r.score ctx d' := by
  rcases hr with rfl | rfl
  · simp only [Ranking.score, Ranking.features, Ranking.aggregationFeature, h.aggregation_eq, hslots]
  · simp only [Ranking.score, Ranking.features, h.fieldOrderFeatures_eq hslots, hslots]

/-- The other two see the best channels among reasons that stay. -/
theorem score_features (ctx : Context) {r : Ranking} (hr : r = .effectiveness ∨ r = .overall) :
    ∃ before after,
      r.score ctx d = .ofFeatures (before ++ Effectiveness.typeChannel d ++ after) ∧
        r.score ctx d' = .ofFeatures (before ++ Effectiveness.typeChannel d' ++ after) := by
  obtain ⟨others, hd, hd'⟩ := effectiveness_features h ctx.config
  rcases hr with rfl | rfl
  · refine ⟨[], others, ?_, ?_⟩ <;>
      simp [Ranking.score, Ranking.features, hd, hd']
  · refine ⟨[Ranking.aggregationFeature d'], others ++ Ranking.fieldOrderFeatures ctx.schema d', ?_, ?_⟩ <;>
      simp [Ranking.score, Ranking.features, Ranking.aggregationFeature, hd, hd', h.aggregation_eq,
        h.fieldOrderFeatures_eq hslots]

end Features

/-- Styling leaves alone the scores that do not ask for channels. The other ones change by what the
best channels are worth, and by nothing else. That stays as long as the same encodings off the axes
share a definition; and if the same encodings share one throughout, nothing of the scores changes. -/
theorem score_of_stylize {ctx : Context} {d d' : Draft}
    (h : d.stylize ctx.schema ctx.config = .ok d') :
    (∀ r : Ranking, r = .aggregationQuality ∨ r = .fieldOrder → r.score ctx d' = r.score ctx d) ∧
    (∀ r : Ranking, r = .effectiveness ∨ r = .overall →
      r.exactScore ctx d' - Feature.exactSum (Effectiveness.typeChannel d') =
        r.exactScore ctx d - Feature.exactSum (Effectiveness.typeChannel d)) ∧
    (Effectiveness.SharesOffAxes d d' → ∀ r : Ranking, r.exactScore ctx d' = r.exactScore ctx d) ∧
    (Effectiveness.Shares d d' → ∀ r : Ranking, r.score ctx d' = r.score ctx d) := by
  obtain ⟨hslots, hagree⟩ := rankedAlike_of_stylize h
  have same (r : Ranking) (hr : r = .aggregationQuality ∨ r = .fieldOrder) :
      r.score ctx d' = r.score ctx d := (score_eq hslots hagree ctx hr).symm
  have change (r : Ranking) (hr : r = .effectiveness ∨ r = .overall) :
      r.exactScore ctx d' - Feature.exactSum (Effectiveness.typeChannel d') =
        r.exactScore ctx d - Feature.exactSum (Effectiveness.typeChannel d) := by
    obtain ⟨before, after, hd, hd'⟩ := score_features hslots hagree ctx hr
    simp only [Ranking.exactScore, hd, hd', Score.ofFeatures, Feature.exactSum_append]
    ring
  have split (r : Ranking) : (r = .aggregationQuality ∨ r = .fieldOrder) ∨ r = .effectiveness ∨ r = .overall := by
    cases r <;> simp
  refine ⟨same, change, fun hshare r => ?_, fun hshare r => ?_⟩
  · rcases split r with hr | hr
    · rw [Ranking.exactScore, same r hr, Ranking.exactScore]
    · have hsum := hagree.sameChannels.exactSum_typeChannel hshare
      have hr := change r hr
      rw [hsum] at hr
      exact sub_left_injective hr
  · rcases split r with hr | hr
    · exact same r hr
    · obtain ⟨before, after, hd, hd'⟩ := score_features hslots hagree ctx hr
      rw [hd, hd', hagree.sameChannels.typeChannel_congr hshare]

/-- With different fields on the axis and on colour, no two encodings share a definition, so that small
bands and a palette leave the scores as they are. -/
theorem score_of_stylize_crowdedNames : ∃ d d' : Draft,
    build crowdedNames crowdedFields {} = .ok d ∧ d.stylize crowdedFields {} = .ok d' ∧
      Effectiveness.Shares d d' ∧ Effectiveness.SharesOffAxes d d' ∧
      (∀ r : Ranking, r.score ⟨crowdedFields, {}⟩ d' = r.score ⟨crowdedFields, {}⟩ d) ∧
      ∀ r : Ranking, r.exactScore ⟨crowdedFields, {}⟩ d' = r.exactScore ⟨crowdedFields, {}⟩ d := by
  obtain ⟨d, hd⟩ : ∃ d, build crowdedNames crowdedFields {} = .ok d := ⟨_, rfl⟩
  obtain ⟨d', hstyle⟩ : ∃ d', d.stylize crowdedFields {} = .ok d' := by
    cases hd
    exact ⟨_, rfl⟩
  have hshares : Effectiveness.Shares d d' := by
    cases hd
    cases hstyle
    decide
  obtain ⟨-, -, hexact, hsame⟩ := @score_of_stylize ⟨crowdedFields, {}⟩ d d' hstyle
  have hoff : Effectiveness.SharesOffAxes d d' := fun m hm _ n hn => hshares m hm n hn
  exact ⟨d, d', hd, hstyle, hshares, hoff, hsame hshares, hexact hoff⟩

/-- Names on an axis, and once more on colour. -/
def namesTwice : ChartQuery where
  mark := .fixed .point
  encodings := [
    .field { channel := .fixed .y, field := .fixed "N", type := .fixed .nominal },
    .field { channel := .fixed .color, field := .fixed "N", type := .fixed .nominal }]

/-- The colour shows what the axis shows, and adds nothing; with a palette of its own it counts as
something else, and costs what names on colour cost. -/
theorem score_follows_style : ∃ d d' : Draft,
    build namesTwice crowdedFields {} = .ok d ∧ d.query.hasOpen [] = false ∧
      d.stylize crowdedFields {} = .ok d' ∧
      Ranking.effectiveness.exactScore ⟨crowdedFields, {}⟩ d = 0 ∧
      Ranking.effectiveness.exactScore ⟨crowdedFields, {}⟩ d' < 0 ∧
      (Ranking.effectiveness.score ⟨crowdedFields, {}⟩ d).total.toRat = 0 ∧
      (Ranking.effectiveness.score ⟨crowdedFields, {}⟩ d').total.toRat < 0 := by
  obtain ⟨d, hd⟩ : ∃ d, build namesTwice crowdedFields {} = .ok d := ⟨_, rfl⟩
  obtain ⟨d', hstyle⟩ : ∃ d', d.stylize crowdedFields {} = .ok d' := by
    cases hd
    exact ⟨_, rfl⟩
  refine ⟨d, d', hd, ?_, hstyle, ?_⟩ <;> cases hd
  · decide
  · cases hstyle
    decide +kernel

end Draft
end ChartAdvisor
