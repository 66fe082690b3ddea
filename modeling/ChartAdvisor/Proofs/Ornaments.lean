import ChartAdvisor.Proofs.Outcome
import ChartAdvisor.Proofs.Pointwise
import ChartAdvisor.Proofs.Rules.Dependence
import ChartAdvisor.Search.Generate

/-!
# Ornaments

A style is made of ornaments. Each is a value for one part of a scale, and is for the first field on a
channel of its own, if the field asks for it. To style a draft is to put one ornament after the other.
-/
namespace ChartAdvisor
namespace Draft

variable {d : Draft}

theorem fieldOn?_eq_some {c : Channel} {i : Nat} {q : FieldEncoding} (h : d.fieldOn? c = some (i, q)) :
    d.query.encodings[i]? = some (.field q) ∧ q.channel.is c = true := by
  obtain ⟨⟨e, j⟩, hmem, he⟩ := List.exists_of_findSome?_eq_some h
  cases e with
  | field r =>
    simp only at he
    split at he
    · next hc =>
      obtain ⟨rfl, rfl⟩ := Prod.mk.inj (Option.some.inj he)
      exact ⟨List.mem_zipIdx_iff_getElem?.mp hmem, hc⟩
    · contradiction
  | value | autoCount => contradiction

theorem getElem?_of_fieldOn? {c : Channel} {i : Nat} {q : FieldEncoding}
    (h : d.fieldOn? c = some (i, q)) : d.query.encodings[i]? = some (.field q) := (fieldOn?_eq_some h).1

/-- The changes that styling makes to the scale of a field: a band size on an axis, where the scale has
steps or may have, and a palette on a colour for names. -/
inductive Adorns (q : FieldEncoding) : (Scale → Scale) → Prop
  | bands {axis : Channel} (positional : axis.isPositional = true) (channel : q.channel.is axis = true)
      (steps : hasSteps q = true) (size : UInt32) :
      Adorns q fun s => { s with bandSize := s.bandSize.or (some (.fixed size)) }
  | palette (channel : q.channel.is .color = true) (type : q.type.is .nominal = true)
      (colours : String) :
      Adorns q fun s => { s with range := s.range.or (some (.fixed (.text colours))) }

/-- What styling goes by, the scale apart that it sets. -/
def stylingInputs : List Property :=
  [.channel, .autoCount, .field, .type, .bin, .maxBins, .timeUnit]

end Draft

/-- A value for a part of the scale of the first field on a channel. -/
structure Ornament (schema : Schema) where
  channel : Channel
  part : ScaleProperty
  value : part.Value
  /-- Whether a field asks for it, by the channels that are in use. -/
  asks : (Channel → Bool) → FieldEncoding → Except SchemaError Bool
  adorns : ∀ {used q}, q.channel.is channel = true → asks used q = .ok true →
    Draft.Adorns q fun s => s.put part ((s.get part).or (some (.fixed value)))
  /-- It cannot be told only where values cannot be counted. -/
  fails : ∀ {used q e}, asks used q = .error e → schema.cardinality q = .error e
  tells : ∀ {used q r asked}, q.Agree Draft.stylingInputs r → asks used r = .ok asked →
    ∃ asked', asks used q = .ok asked'
  /-- The scale has a say by the scale type in effect. -/
  congr : ∀ {used q r}, q.Agree Draft.stylingInputs r → q.scaleType? = r.scaleType? →
    asks used q = asks used r

/-- Small bands on an axis that is split by a facet or holds many values. -/
def SmallBands.ornament (style : SmallBands) (schema : Schema) (axis facet : Channel)
    (positional : axis.isPositional = true) : Ornament schema where
  channel := axis
  part := .bandSize
  value := style.bandSize
  asks used q :=
    if used facet then .ok (Draft.hasSteps q)
    else (schema.cardinality q).map fun count =>
      decide (style.maxCardinality < count) && Draft.hasSteps q
  adorns {used q} hc hasks := by
    refine .bands positional hc ?_ style.bandSize
    split at hasks
    · exact Except.ok.inj hasks
    · obtain ⟨count, -, hcount⟩ := map_eq_ok.mp hasks
      exact (Bool.and_eq_true_iff.mp hcount).2
  fails {used q e} hasks := by
    split at hasks
    · contradiction
    · exact map_eq_error.mp hasks
  tells {used q r asked} hqr hasks := by
    split at hasks
    · next hfacet => exact ⟨_, if_pos hfacet⟩
    · next hfacet =>
      obtain ⟨count, hcount, -⟩ := map_eq_ok.mp hasks
      rw [← hqr.cardinality_eq (by decide) (by decide) (by decide) (by decide)] at hcount
      rw [if_neg hfacet, hcount]
      exact ⟨_, rfl⟩
  congr {used q r} hqr ht := by
    have hsteps : Draft.hasSteps q = Draft.hasSteps r := by rw [Draft.hasSteps, Draft.hasSteps, ht]
    rw [hsteps, hqr.cardinality_eq (by decide) (by decide) (by decide) (by decide)]

/-- A large palette on a nominal colour with many values. -/
def LargePalette.ornament (style : LargePalette) (schema : Schema) : Ornament schema where
  channel := .color
  part := .range
  value := .text style.palette
  asks _ q :=
    if q.type.is .nominal then
      (schema.cardinality q).map fun count => decide (style.maxCardinality < count)
    else .ok false
  adorns {used q} hc hasks := by
    refine .palette hc ?_ style.palette
    split at hasks
    · assumption
    · contradiction
  fails {used q e} hasks := by
    split at hasks
    · exact map_eq_error.mp hasks
    · contradiction
  tells {used q r asked} hqr hasks := by
    refine ⟨asked, ?_⟩
    rwa [FieldEncoding.type_is_congr hqr (by decide),
      hqr.cardinality_eq (by decide) (by decide) (by decide) (by decide)]
  congr {used q r} hqr _ := by
    rw [FieldEncoding.type_is_congr hqr (by decide),
      hqr.cardinality_eq (by decide) (by decide) (by decide) (by decide)]

/-- The ornaments that a configuration asks for: small bands on both axes, and a large palette. -/
def Config.ornaments (config : Config) (schema : Schema) : List (Ornament schema) :=
  (config.smallBandSizeForHighCardinalityOrFacet.elim [] fun style =>
    [style.ornament schema .y .row (by decide), style.ornament schema .x .column (by decide)]) ++
  config.nominalColorScaleForHighCardinality.elim [] fun style => [style.ornament schema]

/-- They are for different channels. -/
theorem Config.ornaments_pairwise (config : Config) (schema : Schema) :
    (config.ornaments schema).Pairwise fun o o' => o.channel ≠ o'.channel := by
  unfold ornaments
  cases config.smallBandSizeForHighCardinalityOrFacet <;>
    cases config.nominalColorScaleForHighCardinality <;>
    simp [SmallBands.ornament, LargePalette.ornament]

/-! ## Putting ornaments -/

namespace Ornament

variable {schema : Schema} {o : Ornament schema} {d d' : Draft} {i : Nat} {q : FieldEncoding}

/-- A field with an ornament, unless it has the part or its scale is off or open. -/
def adorn (o : Ornament schema) (q : FieldEncoding) : FieldEncoding :=
  Draft.withScale q fun s => s.put o.part ((s.get o.part).or (some (.fixed o.value)))

/-- Puts an ornament on the first field on its channel, if the field asks for it. -/
def put (o : Ornament schema) (d : Draft) : Except SchemaError Draft :=
  match d.fieldOn? o.channel with
  | none => return d
  | some (i, q) => do
    if ← o.asks d.channelUsed q then return d.putField i (o.adorn q) else return d

theorem put_of_none (h : d.fieldOn? o.channel = none) : o.put d = .ok d := by
  rw [put, h]
  rfl

theorem put_of_error {e : SchemaError} (h : d.fieldOn? o.channel = some (i, q))
    (hasks : o.asks d.channelUsed q = .error e) : o.put d = .error e := by
  rw [put, h]
  simp only [hasks]
  rfl

theorem put_of_ok {asked : Bool} (h : d.fieldOn? o.channel = some (i, q))
    (hasks : o.asks d.channelUsed q = .ok asked) :
    o.put d = .ok (if asked then d.putField i (o.adorn q) else d) := by
  rw [put, h]
  simp only [hasks]
  cases asked <;> rfl

theorem put_cases (h : o.put d = .ok d') :
    (d.fieldOn? o.channel = none ∧ d' = d) ∨ ∃ i q asked, d.fieldOn? o.channel = some (i, q) ∧
      o.asks d.channelUsed q = .ok asked ∧ d' = if asked then d.putField i (o.adorn q) else d := by
  cases hq : d.fieldOn? o.channel with
  | none => exact .inl ⟨rfl, (Except.ok.inj ((put_of_none hq).symm.trans h)).symm⟩
  | some found =>
    obtain ⟨i, q⟩ := found
    cases hasks : o.asks d.channelUsed q with
    | error e => exact nomatch (put_of_error hq hasks).symm.trans h
    | ok asked =>
      exact .inr ⟨i, q, asked, rfl, hasks, (Except.ok.inj ((put_of_ok hq hasks).symm.trans h)).symm⟩

/-- Puts one ornament after the other. -/
def putAll (os : List (Ornament schema)) (d : Draft) : Except SchemaError Draft :=
  os.foldlM (fun d o => o.put d) d

theorem putAll_cons (o : Ornament schema) (os : List (Ornament schema)) (d : Draft) :
    putAll (o :: os) d = o.put d >>= putAll os := List.foldlM_cons ..

theorem putAll_singleton (o : Ornament schema) (d : Draft) : putAll [o] d = o.put d :=
  bind_pure (o.put d)

theorem putAll_append (os os' : List (Ornament schema)) (d : Draft) :
    putAll (os ++ os') d = putAll os d >>= putAll os' := List.foldlM_append ..

end Ornament

/-! ## Styles -/

namespace Draft

theorem withSmallBandsOn_eq_put (style : SmallBands) (schema : Schema) {axis : Channel} (facet : Channel)
    (positional : axis.isPositional = true) (d : Draft) :
    d.withSmallBandsOn schema style axis facet = (style.ornament schema axis facet positional).put d := by
  simp only [withSmallBandsOn, Ornament.put, SmallBands.ornament]
  cases d.fieldOn? axis with
  | none => rfl
  | some found =>
    obtain ⟨i, q⟩ := found
    cases d.channelUsed facet with
    | true => rfl
    | false =>
      simp only [Bool.false_eq_true, if_false]
      cases schema.cardinality q <;> rfl

theorem withLargePalette_eq_put (style : LargePalette) (schema : Schema) (d : Draft) :
    d.withLargePalette schema style = (style.ornament schema).put d := by
  unfold withLargePalette Ornament.put
  show _ = match d.fieldOn? .color with | none => _ | some (i, q) => _
  cases d.fieldOn? .color with
  | none => rfl
  | some found =>
    obtain ⟨i, q⟩ := found
    show (if q.type.is .nominal = true then _ else _) =
      Except.bind (if q.type.is .nominal = true then _ else _) _
    split
    · cases schema.cardinality q with
      | error e => rfl
      | ok n =>
        show (if style.maxCardinality < n then _ else _) =
          if decide (style.maxCardinality < n) = true then _ else _
        simp only [decide_eq_true_eq]
        rfl
    · rfl

theorem withSmallBands_eq_putAll (style : SmallBands) (schema : Schema) (d : Draft) :
    d.withSmallBands schema style = Ornament.putAll
      [style.ornament schema .y .row (by decide), style.ornament schema .x .column (by decide)] d := by
  rw [Ornament.putAll_cons, ← withSmallBandsOn_eq_put, withSmallBands]
  refine congrArg (Except.bind _) (funext fun d => ?_)
  rw [Ornament.putAll_singleton, ← withSmallBandsOn_eq_put]

/-- To style a draft is to put one ornament after the other. -/
theorem stylize_eq_putAll (schema : Schema) (config : Config) (d : Draft) :
    d.stylize schema config = Ornament.putAll (config.ornaments schema) d := by
  unfold stylize Config.ornaments
  extract_lets rest
  have hrest (d : Draft) : rest d = Ornament.putAll (config.nominalColorScaleForHighCardinality.elim []
      fun style => [style.ornament schema]) d := by
    unfold rest
    cases config.nominalColorScaleForHighCardinality with
    | none => rfl
    | some style => exact (withLargePalette_eq_put ..).trans (Ornament.putAll_singleton ..).symm
  rw [Ornament.putAll_append]
  cases config.smallBandSizeForHighCardinalityOrFacet with
  | none => exact hrest d
  | some style =>
    show d.withSmallBands schema style >>= rest = _
    rw [withSmallBands_eq_putAll]
    exact congrArg (Except.bind _) (funext hrest)

end Draft
end ChartAdvisor
