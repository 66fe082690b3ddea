import ChartAdvisor.Proofs.Rules.Relaxing
import ChartAdvisor.Proofs.Search.Interchange
import ChartAdvisor.Proofs.Shorthand.Shown

/-!
# Orders that find the same charts

The rules do not consult the order in which the properties are resolved; it only says when they are run.
Two orders find the same charts if they agree on all open slots of which one is neglected by a rule that is
run for the other one.
-/
namespace ChartAdvisor

/-! ## What is written -/

/-- A part of a scale that is fixed at null is not written. -/
theorem Encoding.shown_withoutNulls (e : Encoding) : e.withoutNulls.shown = e.shown := by
  cases e with
  | value | autoCount => rfl
  | field q =>
    have hscale : q.withoutNulls.scale.map (fun t => (t.mapInner Scale.dropNulls).shown) =
        q.scale.map fun t => (t.mapInner Scale.dropNulls).shown := by
      unfold FieldEncoding.withoutNulls
      rcases q.scale with _ | _ | s | ⟨w, s⟩ <;> simp [Toggle.mapInner]
    exact congrArg (fun t => field { q.shown with scale := t.filter Toggle.isWritten }) hscale

/-! ## What does not depend on the order -/

section Reordered

variable (schema : Schema) (config : Config) (order : List Property)

/-- The configuration with the properties resolved in another order. -/
def Config.reordered : Config := { config with propertyPrecedence := order }

theorem ChartRule.check_reordered {r : ChartRule} (hr : r ∈ all) (d : Draft) :
    r.check ⟨schema, config.reordered order⟩ d = r.check ⟨schema, config⟩ d := by
  have hcounts : (config.reordered order).autoAddCount = config.autoAddCount := rfl
  rw [Rule.check, holds_congr hcounts hr, Rule.check]

theorem EncodingRule.check_reordered {r : EncodingRule} (hr : r ∈ all) (a : Place) :
    r.check ⟨schema, config.reordered order⟩ a = r.check ⟨schema, config⟩ a := by
  have hholds : r.holds ⟨schema, config.reordered order⟩ a = r.holds ⟨schema, config⟩ a := by
    simp only [all, List.mem_cons, List.not_mem_nil, or_false] at hr
    rcases hr with rfl | rfl | rfl | rfl | rfl | rfl | rfl | rfl | rfl | rfl | rfl | rfl | rfl | rfl |
      rfl | rfl | rfl | rfl
    all_goals rfl
  rw [Rule.check, hholds, Rule.check]

theorem Rule.about_reordered {α : Type} (rules : List (Rule α)) (p : Property) :
    about rules p (config.reordered order) = about rules p config := rfl

namespace Draft

/-- The rules do not consult the order in which properties are resolved. -/
theorem verdictAt_reordered (d : Draft) (s : Spot) :
    d.verdictAt ⟨schema, config.reordered order⟩ s = d.verdictAt ⟨schema, config⟩ s := by
  have hchart (p : Property) :
      d.refused? ⟨schema, config.reordered order⟩ p = d.refused? ⟨schema, config⟩ p := by
    unfold refused? violated?
    rw [Rule.about_reordered, Rule.firstViolated?_congr fun r hr =>
      ChartRule.check_reordered schema config order (Rule.mem_about.mp hr).1 d]
  cases s with
  | mark => exact hchart .mark
  | slot i p =>
    have hencoding : d.refusedByEncoding? ⟨schema, config.reordered order⟩ i p =
        d.refusedByEncoding? ⟨schema, config⟩ i p := by
      unfold refusedByEncoding? violatedByEncoding?
      cases d.encoding? i with
      | none => rfl
      | some e =>
        simp only
        rw [Rule.about_reordered, Rule.firstViolated?_congr fun r hr =>
          EncodingRule.check_reordered schema config order (Rule.mem_about.mp hr).1 _]
    show d.verdict _ i p = d.verdict _ i p
    unfold verdict
    rw [hencoding, hchart]

theorem explored_reordered : Explored ⟨schema, config.reordered order⟩ = Explored ⟨schema, config⟩ := by
  unfold Explored
  simp only [verdictAt_reordered]

end Draft
end Reordered

/-! ## The spots in an order of the properties -/

/-- A configuration has one spot resolved before another one. -/
def Config.ResolvesFirst (config : Config) (s t : Spot) : Prop :=
  config.propertyPrecedence.idxOf s.property < config.propertyPrecedence.idxOf t.property

instance (config : Config) (s t : Spot) : Decidable (config.ResolvesFirst s t) :=
  inferInstanceAs (Decidable (_ < _))

namespace Draft

variable {ctx : Context} {q : ChartQuery} {schema : Schema} {config config' : Config} {d₀ d : Draft}
  {s t : Spot}

/-- The open spots of a draft in an order of the properties. -/
def openSpots (d : Draft) (order : List Property) : List Spot := (order.filter d.slots.has).flatMap d.spots

theorem openSpots_perm (hd : d.Coherent) {order order' : List Property} (nodup : order.Nodup)
    (nodup' : order'.Nodup) (listed : ∀ p ∈ Property.precedence, p ∈ order)
    (listed' : ∀ p ∈ Property.precedence, p ∈ order') : (d.openSpots order).Perm (d.openSpots order') := by
  refine List.Perm.flatMap_right _ ?_
  rw [List.perm_ext_iff_of_nodup (nodup.filter _) (nodup'.filter _)]
  intro p
  rw [List.mem_filter, List.mem_filter]
  constructor
  · exact fun ⟨_, hp⟩ => ⟨listed' p (hd.mem_precedence hp), hp⟩
  · exact fun ⟨_, hp⟩ => ⟨listed p (hd.mem_precedence hp), hp⟩

theorem IsBuilt.due_openSpots (h : IsBuilt q schema config d₀) {order : List Property}
    (nodup : order.Nodup) : Due (d₀.openSpots order) d₀ := by
  refine ⟨h.coherent, h.due.asBuilt, nodup_spots d₀ (nodup.filter _), fun _ => h.due.mark ?_⟩
  exact List.mem_flatMap.mpr ⟨.mark, by decide, mem_spots_iff.mpr (by rw [if_pos rfl])⟩

/-- One spot comes before another one because its property does, or because its encoding does. -/
theorem pairwise_openSpots (d : Draft) (nodup : config.propertyPrecedence.Nodup) :
    (d.openSpots config.propertyPrecedence).Pairwise fun s t => config.ResolvesFirst s t ∨
      ∃ p i j, i < j ∧ s = .slot i p ∧ t = .slot j p := by
  have hindex : config.propertyPrecedence.Pairwise fun p q =>
      config.propertyPrecedence.idxOf p < config.propertyPrecedence.idxOf q := by
    refine List.pairwise_iff_getElem.mpr fun i j hi hj hij => ?_
    rwa [nodup.idxOf_getElem, nodup.idxOf_getElem]
  unfold openSpots
  rw [List.pairwise_flatMap]
  refine ⟨fun p _ => ?_, (hindex.filter _).imp fun {p r} hpr s hs t ht => .inl ?_⟩
  · unfold spots
    split
    · exact List.pairwise_singleton _ _
    · rw [List.pairwise_map]
      exact (List.pairwise_lt_range.filter _).imp fun hij => .inr ⟨p, _, _, hij, rfl, rfl⟩
  · unfold Config.ResolvesFirst
    rwa [property_of_mem_spots hs, property_of_mem_spots ht]

/-- No spot comes before the one in which it lies. -/
theorem pairwise_parent?_openSpots (d : Draft) {order : List Property} (inOrder : Property.InOrder order) :
    (d.openSpots order).Pairwise fun s t => s.parent? ≠ some t := by
  have hself (p : Property) : p.parent? ≠ some p := by cases p <;> exact nofun
  have hpairs := pairwise_spots hself d ((inOrder.imp And.right).filter d.slots.has)
  refine hpairs.imp fun {s t} hst hparent => ?_
  cases s with
  | mark => contradiction
  | slot i p =>
    obtain ⟨r, hr, rfl⟩ := Option.map_eq_some_iff.mp hparent
    exact hst hr

/-- Spots that two orders resolve differently may be visited in either order, if the orders agree on
whatever is neglected. -/
theorem interchanges_of_openSpots (inOrder : Property.InOrder config.propertyPrecedence)
    (inOrder' : Property.InOrder config'.propertyPrecedence)
    (agree : ∀ s ∈ d.openSpots config.propertyPrecedence, ∀ t ∈ d.openSpots config.propertyPrecedence,
      config.Neglects s t → (config.ResolvesFirst s t ↔ config'.ResolvesFirst s t))
    (hst : [s, t].Sublist (d.openSpots config.propertyPrecedence))
    (hts : [t, s].Sublist (d.openSpots config'.propertyPrecedence)) : config.Interchanges s t := by
  have nodup := inOrder.imp And.left
  have before := List.pairwise_iff_forall_sublist.mp (pairwise_openSpots d nodup) hst
  have after := List.pairwise_iff_forall_sublist.mp (pairwise_openSpots d (inOrder'.imp And.left)) hts
  obtain ⟨hfirst, hsecond⟩ : config.ResolvesFirst s t ∧ config'.ResolvesFirst t s := by
    rcases before with hfirst | ⟨p, i, j, hij, rfl, rfl⟩
    · rcases after with hsecond | ⟨p, i, j, hij, rfl, rfl⟩
      · exact ⟨hfirst, hsecond⟩
      · exact absurd hfirst (Nat.lt_irrefl _)
    · rcases after with hsecond | ⟨r, k, l, hkl, hk, hl⟩
      · exact absurd hsecond (Nat.lt_irrefl _)
      · obtain ⟨rfl, -⟩ := Spot.slot.inj hk
        obtain ⟨rfl, -⟩ := Spot.slot.inj hl
        omega
  have hs : s ∈ d.openSpots config.propertyPrecedence := hst.subset (by simp)
  have ht : t ∈ d.openSpots config.propertyPrecedence := hst.subset (by simp)
  refine ⟨?_, ?_, ?_, fun hneglects => ?_, fun hneglects => ?_⟩
  · rintro rfl
    exact Nat.lt_irrefl _ hfirst
  · exact List.pairwise_iff_forall_sublist.mp (pairwise_parent?_openSpots d inOrder) hst
  · exact List.pairwise_iff_forall_sublist.mp (pairwise_parent?_openSpots d inOrder') hts
  · exact Nat.lt_asymm hsecond ((agree s hs t ht hneglects).mp hfirst)
  · exact Nat.lt_asymm hfirst ((agree t ht s hs hneglects).mpr hsecond)

/-! ## What is written of twins -/

/-- Twins are written alike, for a part at null is not written. -/
theorem Alike.shorthand_eq {d' : Draft} (h : d.Alike d') : d.shorthand = d'.shorthand := by
  have hencodings : d.query.encodings.map Encoding.shown = d'.query.encodings.map Encoding.shown := by
    refine List.ext_getElem? fun i => ?_
    have hi := congrArg (Option.map Encoding.shown) (h.encodings i)
    simp only [Option.map_map, Function.comp_def, Encoding.shown_withoutNulls] at hi
    rw [List.getElem?_map, List.getElem?_map]
    exact hi
  have hshown : d.query.shown = d'.query.shown := by
    have hset := congrArg (fun q => { q.shown with encodings := d.query.encodings.map Encoding.shown })
      h.settings
    exact hset.trans (congrArg (fun es => { d'.query.shown with encodings := es }) hencodings)
  rw [shorthand, ← ChartQuery.shorthand_shown, hshown, ChartQuery.shorthand_shown, shorthand]

/-- Whatever chart a search finds, another one finds that visits the same spots in another order, if the
spots that have changed places may be visited in either order. -/
theorem Stage.texts_subset (built : IsBuilt q ctx.schema ctx.config d₀) {order order' : List Property}
    {drafts drafts' : List Draft} (h : Stage ctx d₀ (order.filter d₀.slots.has) drafts)
    (h' : Stage ctx d₀ (order'.filter d₀.slots.has) drafts') (nodup : order.Nodup)
    (perm : (d₀.openSpots order).Perm (d₀.openSpots order'))
    (free : ∀ s t, [s, t].Sublist (d₀.openSpots order) → [t, s].Sublist (d₀.openSpots order') →
      ctx.config.Interchanges s t) : drafts.map shorthand ⊆ drafts'.map shorthand := by
  intro text ht
  obtain ⟨f, hf, rfl⟩ := List.mem_map.mp ht
  obtain ⟨c, hfc, hc⟩ := h.sound f hf
  obtain ⟨c', hc', htwin⟩ := explored_perm hc (built.due_openSpots nodup) perm free
  obtain ⟨f', hf', htwin'⟩ := h'.complete c' hc'
  have halike := (hfc.trans (htwin.trans htwin'.symm)).alike
  exact List.mem_map.mpr ⟨f', hf', halike.shorthand_eq.symm⟩

/-- A search in another order visits the drafts of the same configuration. -/
theorem Stage.of_reordered {order done : List Property} {drafts : List Draft}
    (h : Stage ⟨schema, config.reordered order⟩ d₀ done drafts) : Stage ⟨schema, config⟩ d₀ done drafts := by
  have heq := explored_reordered schema config order
  exact ⟨fun f hf => heq ▸ h.sound f hf, fun c hc => h.complete c (heq ▸ hc)⟩

/-- Two orders of the properties find the same charts, if they resolve in the same order whatever two slots
are open of which one is neglected by a rule that is run for the other one. -/
theorem generate_same_of_agreeing_orders {drafts drafts' : List Draft} (valid : config.validate = .ok ())
    (valid' : config'.validate = .ok ()) (nodup : config.propertyPrecedence.Nodup)
    (nodup' : config'.propertyPrecedence.Nodup)
    (same : config' = { config with propertyPrecedence := config'.propertyPrecedence })
    (plain : config.stylize = false) (hb : build q schema config = .ok d₀)
    (agree : ∀ s ∈ d₀.openSpots config.propertyPrecedence, ∀ t ∈ d₀.openSpots config.propertyPrecedence,
      config.Neglects s t → (config.ResolvesFirst s t ↔ config'.ResolvesFirst s t))
    (h : (generate q ⟨schema, config⟩).outcome = .ok drafts)
    (h' : (generate q ⟨schema, config'⟩).outcome = .ok drafts') (text : String) :
    text ∈ drafts.map Draft.shorthand ↔ text ∈ drafts'.map Draft.shorthand := by
  have inOrder := Config.inOrder_of_validate valid nodup
  have inOrder' := Config.inOrder_of_validate valid' nodup'
  have free := fun s t => interchanges_of_openSpots (s := s) (t := t) inOrder inOrder' agree
  have built : IsBuilt q schema config d₀ := isBuilt_of_build hb
  have perm := openSpots_perm built.coherent nodup nodup' (fun p => Config.mem_propertyPrecedence valid)
    fun p => Config.mem_propertyPrecedence valid'
  obtain ⟨d, hd, hstage⟩ := stage_of_generate_inOrder inOrder plain h
  obtain rfl := Except.ok.inj (hd.symm.trans hb)
  obtain ⟨order, rfl⟩ : ∃ order, config' = config.reordered order := ⟨_, same⟩
  obtain ⟨d', hd', hstage'⟩ := stage_of_generate_inOrder inOrder' plain h'
  obtain rfl := Except.ok.inj (hd'.symm.trans hb)
  replace hstage' := hstage'.of_reordered
  have hsub := hstage.texts_subset built hstage' nodup perm free
  have hsub' := hstage'.texts_subset built hstage nodup' perm.symm fun s t hst hts => (free t s hts hst).symm
  exact ⟨fun ht => hsub ht, fun ht => hsub' ht⟩

/-- Numbers on one of the axes, with a mark and a type that are open. -/
def openAxis : ChartQuery where
  mark := .wild (.ofCandidates [.point, .tick])
  encodings := [
    .field {
      channel := .wild (.ofCandidates [.x, .y])
      field := .fixed "Q"
      type := .wild (.ofCandidates [.nominal, .quantitative]) }]

/-- The mark is chosen before everything else. -/
def markFirst : List Property := .mark :: Property.precedence.erase .mark

/-- No rule that is run for another slot neglects the mark, so that it may as well be chosen first: the same
charts are found, one mark after the other. -/
theorem generate_same_of_markFirst :
    ∃ drafts drafts', (generate openAxis ⟨threeFields, { stylize := false }⟩).outcome = .ok drafts ∧
      (generate openAxis ⟨threeFields, { stylize := false, propertyPrecedence := markFirst }⟩).outcome =
        .ok drafts' ∧
      drafts.map (·.query.mark) ≠ drafts'.map (·.query.mark) ∧
      ∀ text, text ∈ drafts.map Draft.shorthand ↔ text ∈ drafts'.map Draft.shorthand := by
  let config : Config := { stylize := false }
  let config' : Config := { config with propertyPrecedence := markFirst }
  have hmarks : ((generate openAxis ⟨threeFields, config⟩).outcome.map
      (·.map (·.query.mark.value?))).toOption =
        some [some .point, some .tick, some .point, some .tick] := by decide
  have hmarks' : ((generate openAxis ⟨threeFields, config'⟩).outcome.map
      (·.map (·.query.mark.value?))).toOption =
        some [some .point, some .point, some .tick, some .tick] := by decide
  obtain ⟨drafts, hdrafts, hmap⟩ := exists_of_map_toOption hmarks
  obtain ⟨drafts', hdrafts', hmap'⟩ := exists_of_map_toOption hmarks'
  obtain ⟨d₀, hd₀⟩ : ∃ d₀, build openAxis threeFields config = .ok d₀ := ⟨_, rfl⟩
  have hagree : ∀ s ∈ d₀.openSpots config.propertyPrecedence,
      ∀ t ∈ d₀.openSpots config.propertyPrecedence,
        config.Neglects s t → (config.ResolvesFirst s t ↔ config'.ResolvesFirst s t) := by
    cases hd₀
    decide
  refine ⟨drafts, drafts', hdrafts, hdrafts', fun heq => ?_,
    generate_same_of_agreeing_orders (by decide) (by decide) (by decide) (by decide) rfl rfl hd₀ hagree
      hdrafts hdrafts'⟩
  have hvalues := congrArg (List.map Slot.value?) heq
  simp only [List.map_map, Function.comp_def, hmap, hmap'] at hvalues
  simp at hvalues

end Draft
end ChartAdvisor
