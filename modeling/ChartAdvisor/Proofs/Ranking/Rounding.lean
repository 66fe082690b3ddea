import ChartAdvisor.Proofs.Number.Rounding
import ChartAdvisor.Proofs.Ranking.FieldOrder
import ChartAdvisor.Proofs.Ranking.Order
import ChartAdvisor.Proofs.Ranking.Reordering
import ChartAdvisor.Proofs.Ranking.Styling

/-!
# Totals beside exact scores

Drafts are compared by totals that are rounded after each addition. Charts have few encodings and schemas are
no longer than tables are wide, so that the reasons of a score are far from the ends of the format. So none of
them is cut off there, a total is near to the exact sum of its reasons, and of two drafts the one with the
clearly higher exact score comes first.
-/
namespace ChartAdvisor

/-! ## Few and small reasons -/

/-- Reasons of which there are no more than a number, and none above a power of two. -/
structure Feature.Bounded (size count : Nat) (features : List Feature) : Prop where
  few : features.length ≤ count
  small : ∀ f ∈ features, |f.score.toRat| ≤ 2 ^ size

namespace Feature.Bounded

variable {size count : Nat} {features : List Feature}

theorem mono (h : Bounded size count features) {size' count' : Nat} (hsize : size ≤ size')
    (hcount : count ≤ count') : Bounded size' count' features :=
  ⟨h.few.trans hcount, fun f hf => (h.small f hf).trans (pow_le_pow_right₀ one_le_two hsize)⟩

theorem append (h : Bounded size count features) {count' : Nat} {more : List Feature}
    (h' : Bounded size count' more) : Bounded size (count + count') (features ++ more) := by
  refine ⟨?_, fun f hf => (List.mem_append.mp hf).elim (h.small f) (h'.small f)⟩
  rw [List.length_append]
  exact Nat.add_le_add h.few h'.few

theorem nil : Bounded size count [] := ⟨Nat.zero_le _, List.forall_mem_nil _⟩

/-- The total of few and small reasons is near to their exact sum. -/
theorem total_near (h : Bounded size count features) {bits : Nat} (hcount : count ≤ 2 ^ bits)
    (hbits : bits ≤ 52) (hrange : size + bits ≤ 1022) :
    |(Score.ofFeatures features).total.toRat - exactSum features| ≤ count * (2 ^ (size + bits) / 2 ^ 52) := by
  have htotal : (Score.ofFeatures features).total =
      (features.map Feature.score).foldl Binary64.add (.zero true) := List.foldl_map.symm
  have hlength : (features.map Feature.score).length ≤ 2 ^ bits := by
    rw [List.length_map]
    exact h.few.trans hcount
  have hsum : |(0 : ℚ)| + ((features.map Feature.score).map (|·.toRat|)).sum ≤ 2 ^ (size + bits) := by
    have hsmall := List.sum_le_card_nsmul ((features.map Feature.score).map (|·.toRat|)) (2 ^ size)
      (by simpa using h.small)
    rw [abs_zero, zero_add, pow_add, mul_comm]
    refine hsmall.trans ?_
    rw [List.length_map, nsmul_eq_mul]
    exact mul_le_mul_of_nonneg_right (mod_cast hlength) (by positivity)
  have hzero : (Binary64.zero true).toRat = 0 := by decide +kernel
  have hstart : |(Binary64.zero true).toRat - 0| ≤ (0 : Nat) * (2 ^ (size + bits) / 2 ^ 52) := by
    rw [hzero, sub_zero, abs_zero, Nat.cast_zero, zero_mul]
  have hsteps : 0 + (features.map Feature.score).length ≤ 2 ^ 52 := by
    rw [Nat.zero_add]
    exact hlength.trans (Nat.pow_le_pow_right two_pos hbits)
  have hnear := Binary64.foldl_add_near hrange (features.map Feature.score) hsteps hsum hstart
  rw [zero_add, Nat.zero_add, List.length_map, List.map_map, ← htotal] at hnear
  exact hnear.trans (mul_le_mul_of_nonneg_right (mod_cast h.few) (by positivity))

end Feature.Bounded

/-! ## The reasons of the rankings -/

theorem Binary64.abs_ofThousandths_le {n : Int} (h : |n| ≤ 20000) : |(ofThousandths n).toRat| ≤ 2 ^ 5 := by
  refine (ofRat_near _ (by decide) ?_).2.2
  have hn : (|n| : ℚ) ≤ 20000 := mod_cast h
  rw [Rat.mkRat_eq_div, abs_div, div_le_iff₀ (by norm_num)]
  norm_num
  linarith

theorem Feature.bounded_filterMap {α : Type} {f : α → Option Feature} (l : List α)
    (h : ∀ a ∈ l, ∀ feature ∈ f a, |feature.score.toRat| ≤ 2 ^ 5) : Bounded 5 l.length (l.filterMap f) := by
  refine ⟨List.length_filterMap_le .., fun feature hfeature => ?_⟩
  obtain ⟨a, ha, hfeature⟩ := List.mem_filterMap.mp hfeature
  exact h a ha feature hfeature

namespace Effectiveness

theorem abs_channelScore_le (t : ExtendedType) (c : Channel) : |t.channelScore c| ≤ 20000 := by
  cases t <;> cases c <;> decide

variable (config : Config) (d : Draft)

theorem bounded_typeChannel : Feature.Bounded 5 (typedChannels d).length (typeChannel d) := by
  rw [typeChannel_eq]
  constructor
  · unfold bestFeatures
    rw [List.length_map, ← List.length_map definitionOf]
    exact (List.subperm_of_subset (nodup_eraseDups _) fun k => List.mem_eraseDups.mp).length_le
  · intro f hf
    obtain ⟨k, hk, rfl⟩ := List.mem_map.mp hf
    obtain ⟨m, hm, rfl⟩ := List.mem_map.mp (List.mem_eraseDups.mp hk)
    have hmem : bestUnder definitionOf worth (typedChannels d) (definitionOf m) ∈ _ := best_mem
      (List.ne_nil_of_mem (List.mem_map_of_mem (List.mem_filter.mpr ⟨hm, decide_eq_true rfl⟩)))
    obtain ⟨n, -, hn⟩ := List.mem_map.mp hmem
    rw [← hn]
    exact Binary64.abs_ofThousandths_le (abs_channelScore_le _ _)

theorem bounded_preferredAxis : Feature.Bounded 5 (typedChannels d).length (preferredAxis config d) := by
  refine Feature.bounded_filterMap _ fun ⟨_, t, c⟩ _ f hf => ?_
  dsimp only at hf
  split at hf
  · cases hf
    exact Binary64.abs_ofThousandths_le (by decide)
  · contradiction

theorem bounded_preferredFacet : Feature.Bounded 5 d.active.length (preferredFacet config d) := by
  have hpenalise (other : Channel) : Feature.Bounded 5 d.active.length
      ((d.active.filter (·.channel.is other)).map fun _ =>
        feature "preferredFacet" (Vocabulary.name other) lessPreferred) := by
    refine ⟨by simpa using List.length_filter_le .., fun f hf => ?_⟩
    obtain ⟨_, -, rfl⟩ := List.mem_map.mp hf
    exact Binary64.abs_ofThousandths_le (by decide)
  unfold preferredFacet
  split
  · exact hpenalise _
  · exact hpenalise _
  · exact .nil

theorem bounded_markChannel : Feature.Bounded 5 d.active.length (markChannel d) := by
  have hpenalise (m : Mark) : Feature.Bounded 5 d.active.length
      ((d.active.filterMap Encoding.channel?).filterMap fun c =>
        if c = .size then some (feature "markChannel" (Vocabulary.name m ++ "_" ++ Vocabulary.name c) (-2000))
        else none) := by
    refine (Feature.bounded_filterMap _ fun c _ f hf => ?_).mono le_rfl (List.length_filterMap_le ..)
    split at hf
    · cases hf
      exact Binary64.abs_ofThousandths_le (by decide)
    · contradiction
  unfold markChannel
  split
  · exact hpenalise _
  · exact hpenalise _
  · exact .nil

theorem abs_keepDimension_le {best : Int × String} (h : |best.1| ≤ 20000) (e : Encoding) :
    |(keepDimension best e).1| ≤ 20000 := by
  unfold keepDimension
  split
  · dsimp only
    split_ifs <;> first | exact h | norm_num
  · exact h

theorem bounded_dimension : Feature.Bounded 5 1 (dimension d) := by
  rw [dimension_eq]
  split
  · refine ⟨le_rfl, List.forall_mem_singleton.mpr (Binary64.abs_ofThousandths_le ?_)⟩
    exact List.foldlRecOn (motive := fun best : Int × String => |best.1| ≤ 20000) d.active keepDimension
      (by decide) fun best hbest e _ => abs_keepDimension_le hbest e
  · exact .nil

theorem bounded_features : Feature.Bounded 5 (4 * d.query.encodings.length + 1) (features config d) := by
  have hactive : d.active.length ≤ d.query.encodings.length := List.length_filter_le ..
  have htyped : (typedChannels d).length ≤ d.query.encodings.length := (List.length_filterMap_le ..).trans hactive
  refine (((((bounded_typeChannel d).append (bounded_preferredAxis config d)).append
    (bounded_preferredFacet config d)).append (bounded_markChannel d)).append (bounded_dimension d)).mono le_rfl ?_
  omega

end Effectiveness

namespace Ranking

theorem abs_aggregation_le (d : Draft) : |(aggregation d).1| ≤ 20000 := by
  unfold aggregation
  split_ifs <;> decide

theorem bounded_aggregationFeature (d : Draft) : Feature.Bounded 5 1 [aggregationFeature d] :=
  ⟨le_rfl, List.forall_mem_singleton.mpr (Binary64.abs_ofThousandths_le (abs_aggregation_le d))⟩

theorem length_slotReasons_le {α : Type} (a : Arithmetic α) (schema : Schema) (d : Draft) (weight : α)
    (slots : List (Nat × FieldEncoding)) : (slotReasons a schema d weight slots).length ≤ slots.length := by
  induction slots generalizing weight with
  | nil => exact le_rfl
  | cons slot rest ih =>
    rw [slotReasons, List.length_append, List.length_cons, Nat.add_comm]
    exact Nat.add_le_add (ih _) Option.length_toList_le

section FieldOrder

variable {schema : Schema} {b : Nat} (hfields : max 1 schema.fields.length ≤ 2 ^ b)
include hfields

/-- From slot to slot, weights and reasons grow by the bits of the number of fields, so that none is beyond the
format. -/
theorem abs_slotReasons_le (d : Draft) {slots : List (Nat × FieldEncoding)} {weight : Binary64} {k : Nat}
    (hweight : |weight.toRat| ≤ 2 ^ k) (hrange : k + b * slots.length ≤ 1023) :
    ∀ reason ∈ slotReasons .rounded schema d weight slots, |reason.2.toRat| ≤ 2 ^ (k + b * slots.length) := by
  induction slots generalizing weight k with
  | nil => exact List.forall_mem_nil _
  | cons slot rest ih =>
    rw [List.length_cons] at hrange ⊢
    have hnext : k + b * (rest.length + 1) = k + b + b * rest.length := by ring
    rw [hnext] at hrange ⊢
    have hnumber {n : Nat} (hn : n ≤ max 1 schema.fields.length) :
        |(Arithmetic.rounded.ofNat n).toRat| ≤ 2 ^ b := by
      refine (Binary64.ofRat_near false (by omega) ?_).2.2
      rw [abs_of_nonneg (Nat.cast_nonneg _)]
      exact_mod_cast hn.trans hfields
    intro reason hreason
    rcases List.mem_append.mp hreason with hreason | hreason
    · obtain ⟨field, -, rfl⟩ := Option.map_eq_some_iff.mp (Option.mem_toList.mp hreason)
      have hposition : (schema.index? field).getD 0 ≤ max 1 schema.fields.length := by
        cases hindex : schema.index? field with
        | none => exact Nat.zero_le _
        | some p => exact (lt_of_index? hindex).le.trans (Nat.le_max_right ..)
      have hneg : |(Binary64.neg (Arithmetic.rounded.ofNat ((schema.index? field).getD 0))).toRat| ≤ 2 ^ b := by
        rw [Binary64.toRat_neg, abs_neg]
        exact hnumber hposition
      refine (Binary64.abs_mul_le hneg hweight (by omega)).trans ?_
      exact pow_le_pow_right₀ one_le_two (by omega)
    · exact ih (Binary64.abs_mul_le hweight (hnumber le_rfl) (by omega)) hrange reason hreason

theorem bounded_fieldOrderFeatures (d : Draft) {n : Nat} (hslots : (d.slots.indices .field).length ≤ n)
    (hrange : b * n ≤ 1023) : Feature.Bounded (b * n) n (fieldOrderFeatures schema d) := by
  have hcount : (fieldSlots d).length ≤ n := by
    refine (List.length_filterMap_le ..).trans ?_
    rwa [List.length_reverse]
  have hbits : b * (fieldSlots d).length ≤ b * n := Nat.mul_le_mul_left b hcount
  have hone : |Arithmetic.rounded.one.toRat| ≤ 2 ^ 0 := by decide +kernel
  rw [fieldOrderFeatures_eq]
  refine ⟨?_, fun f hf => ?_⟩
  · rw [List.length_map]
    exact (length_slotReasons_le ..).trans hcount
  · obtain ⟨reason, hreason, rfl⟩ := List.mem_map.mp hf
    refine (abs_slotReasons_le hfields d hone (by omega) reason hreason).trans ?_
    exact pow_le_pow_right₀ one_le_two (by omega)

end FieldOrder

end Ranking

/-! ## Totals and exact scores -/

/-- Bounds on what is scored that keep all numbers far from the ends of the format: the bits of the number of
fields, the number of encodings, and the bits of the number of reasons. -/
structure Extent where
  fieldBits : Nat
  encodings : Nat
  reasonBits : Nat
  reasons : 5 * encodings + 2 ≤ 2 ^ reasonBits
  few : reasonBits ≤ 52
  range : max 5 (fieldBits * encodings) + reasonBits ≤ 1022

namespace Extent

/-- No score has a reason above this power of two. -/
def size (x : Extent) : Nat := max 5 (x.fieldBits * x.encodings)

/-- What all roundings of a total cost together, at most. -/
def rounding (x : Extent) : ℚ := (5 * x.encodings + 2 : Nat) * (2 ^ (x.size + x.reasonBits) / 2 ^ 52)

end Extent

/-- A draft within bounds, in a schema within bounds. -/
structure Draft.WithinExtent (x : Extent) (schema : Schema) (d : Draft) : Prop where
  fields : max 1 schema.fields.length ≤ 2 ^ x.fieldBits
  encodings : d.query.encodings.length ≤ x.encodings
  slots : (d.slots.indices .field).length ≤ x.encodings

section WithinExtent

variable {x : Extent} {ctx : Context} {d d' : Draft} (h : d.WithinExtent x ctx.schema)
include h

/-- The reasons of every ranking are few and small, so that none is beyond the format. -/
theorem Draft.WithinExtent.bounded (r : Ranking) : Feature.Bounded x.size (5 * x.encodings + 2) (r.features ctx d) := by
  have hrange := x.range
  have heffectiveness := (Effectiveness.bounded_features ctx.config d).mono le_rfl
    (Nat.succ_le_succ (Nat.mul_le_mul_left 4 h.encodings))
  have haggregation := Ranking.bounded_aggregationFeature d
  have horder := Ranking.bounded_fieldOrderFeatures h.fields d h.slots (by omega)
  cases r with
  | aggregationQuality => exact haggregation.mono (le_max_left ..) (by omega)
  | effectiveness => exact heffectiveness.mono (le_max_left ..) (by omega)
  | fieldOrder => exact horder.mono (le_max_right ..) (by omega)
  | overall =>
    exact (((haggregation.append heffectiveness).mono (le_max_left ..) le_rfl).append
      (horder.mono (le_max_right ..) le_rfl)).mono le_rfl (by omega)

/-- The total by which a draft is compared is as near to its exact score as the roundings allow. -/
theorem Ranking.total_near (r : Ranking) :
    |(r.score ctx d).total.toRat - r.exactScore ctx d| ≤ x.rounding := by
  unfold exactScore score
  split
  · have hzero : (Binary64.zero false).toRat = 0 := by decide +kernel
    simp only [Score.empty, hzero, Feature.exactSum, List.map_nil, List.sum_nil, sub_zero, abs_zero]
    unfold Extent.rounding
    positivity
  · exact (h.bounded r).total_near x.reasons x.few x.range

/-- Of two drafts, the one with the clearly higher exact score comes first. -/
theorem Draft.compareBy_of_exactScore_lt (h' : d'.WithinExtent x ctx.schema) {r : Ranking} {rankings : List Ranking}
    (hr : r ∈ rankings) (hclear : r.exactScore ctx d + 2 * x.rounding < r.exactScore ctx d') :
    (d'.withScores ctx rankings).compareBy (d.withScores ctx rankings) [r.name] = .lt := by
  have hlow := (abs_le.mp (r.total_near h)).2
  have hhigh := (abs_le.mp (r.total_near h')).1
  have hless : (r.score ctx d).total.toRat < (r.score ctx d').total.toRat := by linarith
  have hstored (d : Draft) : ((d.withScores ctx rankings).scoreOf r.name).toRat = (r.score ctx d).total.toRat := by
    rw [toRat_scoreOf, exactScore_of_lookup (lookup_withScores ctx hr d)]
  simp only [compareBy, Binary64.compare, hstored, if_pos hless, Ordering.then]

end WithinExtent

/-- With sixteen fields and five encodings, roundings cost less than a thousandth of a thousandth. -/
example : (⟨4, 5, 5, by decide, by decide, by decide⟩ : Extent).rounding < 1 / 1000000 := by
  decide +kernel

end ChartAdvisor
