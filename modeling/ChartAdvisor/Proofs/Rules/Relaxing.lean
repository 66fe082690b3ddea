import ChartAdvisor.Proofs.Outcome
import ChartAdvisor.Proofs.Rules.Verdict

/-!
# Configurations that ask for less

A configuration is relaxed when rules are switched off, ceilings are raised or lifted, fewer values are
asked of a field that is binned, or values that the query fixes are no longer checked. Whatever is kept
under a configuration is kept under a relaxed one. The rule about counts of rows stays as it is, because
its switch also says whether such counts are added.
-/
namespace ChartAdvisor

namespace Config

/-- The configuration with all that only rules consult as loose as it can be. -/
def loosest (c : Config) : Config :=
  { c with
    hasAppropriateGraphicTypeForMark := false
    omitAggregate := false
    omitAggregatePlotWithDimensionOnlyOnFacet := false
    omitAggregatePlotWithoutDimension := false
    omitBarLineAreaWithOcclusion := false
    omitBarTickWithSize := false
    omitFacetOverPositionalChannels := false
    omitMultipleNonPositionalChannels := false
    omitNonSumStack := false
    omitRaw := false
    omitRawContinuousFieldForAggregatePlot := false
    omitRepeatedField := false
    omitNonPositionalOverPositionalChannels := false
    omitTableWithOcclusionIfAutoAddCount := false
    omitVerticalDotPlot := false
    minCardinalityForBin := 0
    maxCardinalityForCategoricalColor := none
    maxCardinalityForFacet := none
    maxCardinalityForShape := none
    typeMatchesSchemaType := false
    constraintManuallySpecifiedValue := false }

/-- The second configuration is the first one with rules switched off, ceilings raised or lifted, and
less asked otherwise. -/
structure Relaxes (a b : Config) : Prop where
  same : a.loosest = b.loosest
  enabled : ∀ rule, b.isEnabled rule = true → a.isEnabled rule = true
  color : ∀ m ∈ b.maxCardinalityForCategoricalColor, ∃ n ∈ a.maxCardinalityForCategoricalColor, n ≤ m
  facet : ∀ m ∈ b.maxCardinalityForFacet, ∃ n ∈ a.maxCardinalityForFacet, n ≤ m
  shape : ∀ m ∈ b.maxCardinalityForShape, ∃ n ∈ a.maxCardinalityForShape, n ≤ m
  bins : b.minCardinalityForBin ≤ a.minCardinalityForBin
  manual : b.constraintManuallySpecifiedValue = true → a.constraintManuallySpecifiedValue = true

end Config

variable {a b : Config} {schema : Schema}

namespace Rule

variable {α : Type} [Judged α] {ctx ctx' : Context} {r : Rule α}

/-- A rule waits whatever the context, so that it is kept wherever its verdict is. -/
theorem check_ne_false {x : α} (h : r.holds ctx x = .ok true → r.holds ctx' x ≠ .ok false)
    (hkept : r.check ctx x = .ok true) : r.check ctx' x ≠ .ok false := by
  unfold check at hkept ⊢
  split at hkept
  · next hwaits => rw [if_pos hwaits]; nofun
  · next hwaits => rw [if_neg hwaits]; exact h hkept

omit [Judged α] in
theorem isActive_of_relaxes (h : a.Relaxes b) (hb : r.isActive b = true) : r.isActive a = true := by
  unfold isActive at hb ⊢
  rcases Bool.or_eq_true_iff.mp hb with hstrict | henabled
  · rw [hstrict, Bool.true_or]
  · rw [h.enabled _ henabled, Bool.or_true]

end Rule

/-- Of a configuration rules about charts consult no more than whether counts of rows are added. -/
theorem ChartRule.holds_congr (h : a.autoAddCount = b.autoAddCount) {r : ChartRule} (hr : r ∈ all)
    (d : Draft) : r.holds ⟨schema, a⟩ d = r.holds ⟨schema, b⟩ d := by
  simp only [all, List.mem_cons, List.not_mem_nil, or_false] at hr
  rcases hr with rfl | rfl | rfl | rfl | rfl | rfl | rfl | rfl | rfl | rfl | rfl | rfl | rfl | rfl |
    rfl | rfl | rfl | rfl | rfl | rfl | rfl | rfl | rfl
  all_goals try rfl
  simp only [omitTableWithOcclusionIfAutoAddCount, h]

namespace EncodingRule

/-- The rules about encodings that consult the configuration. -/
def configured : List EncodingRule :=
  [minCardinalityForBin, typeMatchesPrimitiveType, typeMatchesSchemaType,
    maxCardinalityForCategoricalColor, maxCardinalityForFacet, maxCardinalityForShape]

theorem holds_congr_or_configured {r : EncodingRule} (hr : r ∈ all) (schema : Schema) (a b : Config) :
    (∀ s, r.holds ⟨schema, a⟩ s = r.holds ⟨schema, b⟩ s) ∨ r ∈ configured := by
  simp only [all, List.mem_cons, List.not_mem_nil, or_false] at hr
  rcases hr with rfl | rfl | rfl | rfl | rfl | rfl | rfl | rfl | rfl | rfl | rfl | rfl | rfl | rfl |
    rfl | rfl | rfl | rfl
  all_goals first | exact .inl fun _ => rfl | exact .inr (by simp [configured])

variable {s : Place}

/-- What passes a test does not fail one that asks for less. -/
theorem map_decide_ne_false {x : Except RuleError Nat} {P Q : Nat → Prop} [DecidablePred P]
    [DecidablePred Q] (h : ∀ k, P k → Q k) (hkept : x.map (fun k => decide (P k)) = .ok true) :
    x.map (fun k => decide (Q k)) ≠ .ok false := by
  intro hfalse
  obtain ⟨k, rfl, hk⟩ := map_eq_ok.mp hkept
  obtain ⟨k', hk', hfails⟩ := map_eq_ok.mp hfalse
  obtain rfl := Except.ok.inj hk'
  exact of_decide_eq_false hfails (h k (of_decide_eq_true hk))

/-- A field that takes no fewer values than are asked takes no fewer than a smaller number. -/
theorem minCardinalityForBin_ne_false (h : b.minCardinalityForBin ≤ a.minCardinalityForBin)
    (hkept : minCardinalityForBin.holds ⟨schema, a⟩ s = .ok true) :
    minCardinalityForBin.holds ⟨schema, b⟩ s ≠ .ok false := by
  simp only [minCardinalityForBin, cardinality] at hkept ⊢
  cases hq : s.encoding.field? with
  | none => simp
  | some q =>
    rw [hq] at hkept
    simp only at hkept ⊢
    split
    · next hbinned =>
      rw [if_pos hbinned] at hkept
      exact map_decide_ne_false (fun _ => Nat.le_trans h) hkept
    · simp

/-- A field within a ceiling is within a higher one. -/
theorem withinCeiling_ne_false {low high : Option Nat} (h : ∀ m ∈ high, ∃ n ∈ low, n ≤ m)
    (hkept : withinCeiling ⟨schema, a⟩ s low = .ok true) :
    withinCeiling ⟨schema, b⟩ s high ≠ .ok false := by
  unfold withinCeiling cardinality at hkept ⊢
  cases hq : s.encoding.field? with
  | none => nofun
  | some q =>
    cases high with
    | none => nofun
    | some m =>
      obtain ⟨n, rfl, hnm⟩ := h m rfl
      rw [hq] at hkept
      exact map_decide_ne_false (fun _ hk => Nat.le_trans hk hnm) hkept

/-- So it is where the ceilings are for some encodings alone. -/
theorem withinCeilingIf_ne_false {low high : Option Nat} (h : ∀ m ∈ high, ∃ n ∈ low, n ≤ m) (meant : Bool)
    (hkept : (if meant then withinCeiling ⟨schema, a⟩ s low else .ok true) = .ok true) :
    (if meant then withinCeiling ⟨schema, b⟩ s high else .ok true) ≠ .ok false := by
  cases meant with
  | false => simp
  | true => exact withinCeiling_ne_false h hkept

theorem checksChoice_of_relaxes (h : a.Relaxes b) (hb : checksChoice ⟨schema, b⟩ s = true) :
    checksChoice ⟨schema, a⟩ s = true := by
  unfold checksChoice at hb ⊢
  rcases Bool.or_eq_true_iff.mp hb with hopen | hmanual
  · rw [hopen, Bool.true_or]
  · rw [h.manual hmanual, Bool.or_true]

/-- A test of a field is kept if one that says less often no is. -/
theorem onField_ne_false (ctx ctx' : Context) {test test' : FieldEncoding → Bool}
    (h : ∀ q, test q = true → test' q = true) (hkept : onField test ctx s = .ok true) :
    onField test' ctx' s ≠ .ok false := by
  intro hfalse
  have hall : s.encoding.field?.all test = true := Except.ok.inj hkept
  have hnot : s.encoding.field?.all test' = false := Except.ok.inj hfalse
  cases hq : s.encoding.field? with
  | none => rw [hq] at hnot; contradiction
  | some q =>
    rw [hq] at hall hnot
    rw [Option.all_some, h q hall] at hnot
    contradiction

/-- What a rule about encodings lets pass, it does not refuse under a relaxed configuration. -/
theorem holds_ne_false (h : a.Relaxes b) {r : EncodingRule} (hr : r ∈ all)
    (hkept : r.holds ⟨schema, a⟩ s = .ok true) : r.holds ⟨schema, b⟩ s ≠ .ok false := by
  rcases holds_congr_or_configured hr schema a b with hsame | hconfigured
  · rw [← hsame, hkept]
    nofun
  · have hchecks {x : Bool} (hx : (!checksChoice ⟨schema, a⟩ s || x) = true) :
        (!checksChoice ⟨schema, b⟩ s || x) = true := by
      cases hb : checksChoice ⟨schema, b⟩ s with
      | false => rfl
      | true => rwa [checksChoice_of_relaxes h hb] at hx
    simp only [configured, List.mem_cons, List.not_mem_nil, or_false] at hconfigured
    rcases hconfigured with rfl | rfl | rfl | rfl | rfl | rfl
    · exact minCardinalityForBin_ne_false h.bins hkept
    · refine onField_ne_false ⟨schema, a⟩ ⟨schema, b⟩ (fun q hq => ?_) hkept
      split at hq
      · rw [Bool.or_assoc] at hq ⊢
        rcases Bool.or_eq_true_iff.mp hq with hstar | hq
        · rw [hstar, Bool.true_or]
        · rw [hchecks hq, Bool.or_true]
      · rfl
    · refine onField_ne_false ⟨schema, a⟩ ⟨schema, b⟩ (fun q hq => ?_) hkept
      split at hq
      · exact hchecks hq
      · rfl
    · exact withinCeilingIf_ne_false h.color _ hkept
    · exact withinCeilingIf_ne_false h.facet _ hkept
    · exact withinCeilingIf_ne_false h.shape _ hkept

end EncodingRule

/-- A relaxed configuration makes a looser context. -/
theorem Config.Relaxes.looser (h : a.Relaxes b) (schema : Schema) :
    Draft.Looser ⟨schema, a⟩ ⟨schema, b⟩ := by
  have hadd : a.autoAddCount = b.autoAddCount := by
    have hsame := congrArg Config.autoAddCount h.same
    exact hsame
  refine Draft.looser_of_rules (fun r hr hb => ⟨Rule.isActive_of_relaxes h hb, fun d => ?_⟩)
    fun r hr hb => ⟨Rule.isActive_of_relaxes h hb, fun s => ?_⟩
  · refine Rule.check_ne_false fun hkept => ?_
    rw [← ChartRule.holds_congr hadd hr, hkept]
    nofun
  · exact Rule.check_ne_false (EncodingRule.holds_ne_false h hr)

end ChartAdvisor
