import ChartAdvisor.Proofs.Encoding.Offering

/-!
# What filling lists

An open slot keeps the name and the candidates that the query gives it, and gets those that it lacks.
Filling reaches the open slots of an encoding through its fields, its parts and their settings; what it
lists is told here by property alone: the slots that `Encoding.choices?` finds, in one fixed order, each
with the wildcard that the filled encoding has there.
-/
namespace ChartAdvisor

/-- The order in which filling lists the open slots of an encoding. -/
def Property.listingOrder : List Property :=
  [.channel, .aggregate, .autoCount, .bin, .maxBins, .timeUnit, .field, .type, .scale] ++
    Property.scaleParts.map .scaleOf ++ [.sort, .axis, .legend]

namespace Filling

variable (f : Filling) {α : Type}

/-- The name and the values of an open slot once it is filled. -/
def complete (p : Property) (w : Wildcard Choice) : Candidates Choice where
  name := w.name.getD (p.slotName f.index)
  values := w.candidates.getD (p.defaults f.schema f.config)

/-- What is listed of a slot of a property, by its wildcard. -/
def entry (p : Property) (w : Option (Wildcard Choice)) : OpenSlots :=
  (w.map fun w => (p, f.complete p w)).toList

/-- The wildcard of a slot once it is filled. -/
def filled (p : Property) (w : Option (Wildcard Choice)) : Option (Wildcard Choice) :=
  w.map fun w => (f.complete p w).toWildcard

@[simp]
theorem entry_none (p : Property) : f.entry p none = [] := rfl

/-- What a property tries by default are values of its slots. -/
def Suits (α : Type) [Choosable α] (p : Property) : Prop :=
  ((p.defaults f.schema f.config).filterMap (ofChoice? : Choice → Option α)).map toChoice =
    p.defaults f.schema f.config

theorem suits_of_eq_map [Choosable α] (vs : List α) (back : ∀ v : α, ofChoice? (toChoice v) = some v)
    {p : Property} (h : p.defaults f.schema f.config = vs.map toChoice) : f.Suits α p := by
  unfold Suits
  rw [h]
  exact Wildcard.map_filterMap_choices back (w := .ofCandidates vs) ⟨_, rfl, fun _ hc => hc⟩

theorem suits_switch {p : Property} (h : p.holdsSettings = true) : f.Suits Bool p := by
  cases p <;> first | contradiction | rfl

theorem suits_channel : f.Suits Channel .channel :=
  f.suits_of_eq_map f.config.channels (fun _ => rfl) rfl

theorem suits_aggregate : f.Suits (Option Aggregate) .aggregate :=
  f.suits_of_eq_map f.config.aggregates (fun _ => rfl) rfl

theorem suits_timeUnit : f.Suits (Option TimeUnit) .timeUnit :=
  f.suits_of_eq_map f.config.timeUnits (fun _ => rfl) rfl

theorem suits_field : f.Suits String .field :=
  f.suits_of_eq_map f.schema.names (fun _ => rfl) rfl

theorem suits_type : f.Suits FieldType .type :=
  f.suits_of_eq_map f.config.types (fun _ => rfl) rfl

theorem suits_sort : f.Suits Sorting .sort :=
  f.suits_of_eq_map (f.config.sortOrders.map .order) (fun _ => rfl) (by rw [List.map_map]; rfl)

theorem suits_maxBins : f.Suits UInt32 .maxBins :=
  f.suits_of_eq_map f.config.maxBinsList (fun _ => rfl) rfl

theorem suits_scaleOf (part : ScaleProperty) : f.Suits part.Value (.scaleOf part) := by
  cases part with
  | type => exact f.suits_of_eq_map (α := ScaleType) _ (fun _ => rfl) rfl
  | bandSize => exact f.suits_of_eq_map (α := UInt32) _ (fun _ => rfl) rfl
  | domain | range => exact f.suits_of_eq_map (α := Json) _ (fun _ => rfl) rfl
  | exponent => exact f.suits_of_eq_map (α := Number) _ (fun _ => rfl) rfl
  | clamp | nice | round | useRawDomain | zero => rfl

/-- What is listed of the slots of several properties is found by property. -/
theorem lookup_flatMap_entry (order : List Property) (w : Property → Option (Wildcard Choice))
    (p : Property) : (order.flatMap fun r => f.entry r (w r)).lookup p =
      if p ∈ order then (w p).map (f.complete p) else none := by
  induction order with
  | nil => rfl
  | cons r rest ih =>
    rw [List.flatMap_cons]
    cases hr : w r with
    | none =>
      rw [entry_none, List.nil_append, ih]
      by_cases hp : p = r
      · simp [hp, hr]
      · simp [hp]
    | some v =>
      refine (Table.lookup_cons_eq_ite r p (f.complete r v) _).trans ?_
      by_cases hp : p = r
      · simp [hp, hr]
      · simp [hp, ih]

theorem keys_flatMap_entry (order : List Property) (w : Property → Option (Wildcard Choice)) :
    (order.flatMap fun r => f.entry r (w r)).map Prod.fst = order.filter fun r => (w r).isSome := by
  induction order with
  | nil => rfl
  | cons r rest ih =>
    rw [List.flatMap_cons, List.map_append, ih, List.filter_cons]
    cases w r <;> rfl

/-! ## Slots and parts -/

section Slots

variable [Choosable α] {p : Property}

theorem values_candidates (h : f.Suits α p) (w : Wildcard α) :
    (f.candidates p w).values.map toChoice = (f.complete p w.choices).values := by
  unfold candidates complete Wildcard.choices Wildcard.map
  cases w.candidates with
  | none => exact h
  | some vs => rfl

theorem opened_slot (h : f.Suits α p) (s : Slot α) : (f.slot p s).2 = f.entry p s.choices? := by
  cases s with
  | fixed v => rfl
  | wild w =>
    have hvalues := f.values_candidates h w
    exact congrArg (fun vs => [(p, Candidates.mk (f.candidates p w).name vs)]) hvalues

theorem choices?_slot (h : f.Suits α p) (s : Slot α) :
    (f.slot p s).1.choices? = f.filled p s.choices? := by
  cases s with
  | fixed v => rfl
  | wild w =>
    have hvalues := f.values_candidates h w
    exact congrArg (fun vs => some (Candidates.mk (f.candidates p w).name vs).toWildcard) hvalues

theorem opened_slot? (h : f.Suits α p) (s : Option (Slot α)) :
    (f.slot? p s).2 = f.entry p (s.bind Slot.choices?) := by
  cases s with
  | none => rfl
  | some s => exact f.opened_slot h s

theorem choices?_slot? (h : f.Suits α p) (s : Option (Slot α)) :
    (f.slot? p s).1.bind Slot.choices? = f.filled p (s.bind Slot.choices?) := by
  cases s with
  | none => rfl
  | some s => exact f.choices?_slot h s

end Slots

/-- The switch of a part comes before what is open in its settings. -/
theorem opened_toggle {p : Property} (h : f.Suits Bool p) (inner : α → α × OpenSlots)
    (t : Option (Toggle α)) :
    (f.toggle p inner t).2 = f.entry p (t.bind (·.flag.choices?)) ++
      (t.bind Toggle.inner?).elim [] fun a => (inner a).2 := by
  rcases t with _ | _ | _ | ⟨w, a⟩
  · rfl
  · rfl
  · rfl
  · exact congrArg (· ++ (inner a).2) (f.opened_slot h (.wild w))

theorem choices?_toggle {p : Property} (h : f.Suits Bool p) (inner : α → α × OpenSlots)
    (t : Option (Toggle α)) :
    (f.toggle p inner t).1.bind (·.flag.choices?) = f.filled p (t.bind (·.flag.choices?)) := by
  rcases t with _ | _ | _ | ⟨w, a⟩
  · rfl
  · rfl
  · rfl
  · exact f.choices?_slot h (.wild w)

theorem opened_scale (s : Scale) :
    (f.scale s).2 = Property.scaleParts.flatMap fun part => f.entry (.scaleOf part) (s.choices? part) := by
  rw [scale, opened_scaleParts f _ (by decide)]
  exact List.flatMap_congr fun part _ => f.opened_slot? (f.suits_scaleOf part) _

theorem choices?_scale (s : Scale) (part : ScaleProperty) :
    (f.scale s).1.choices? part = f.filled (.scaleOf part) (s.choices? part) := by
  have hmem : part ∈ Property.scaleParts := by cases part <;> decide
  rw [Scale.choices?, scale, get_scaleParts f _ (by decide), if_pos hmem,
    f.choices?_slot? (f.suits_scaleOf part)]
  rfl

/-! ## Encodings -/

/-- A filled field lists its open slots in the order of their properties. -/
theorem opened_field (q : FieldEncoding) :
    (f.field q).2 = Property.listingOrder.flatMap fun p => f.entry p (q.choices? p) := by
  have hchannel := f.opened_slot f.suits_channel q.channel
  have haggregate := f.opened_slot f.suits_aggregate q.aggregate
  have htimeUnit := f.opened_slot f.suits_timeUnit q.timeUnit
  have hfield := f.opened_slot f.suits_field q.field
  have htype := f.opened_slot f.suits_type q.type
  have hsort := f.opened_slot? f.suits_sort q.sort
  have hbin := f.opened_toggle (f.suits_switch (p := .bin) rfl) f.bin (q.bin.filter Toggle.isPresent)
  have hmaxBins (b : Bin) : (f.bin b).2 = f.entry .maxBins (b.maxbins.bind Slot.choices?) :=
    f.opened_slot? f.suits_maxBins b.maxbins
  have hscale := f.opened_toggle (f.suits_switch (p := .scale) rfl) f.scale q.scale
  have hguide (p : Property) (h : p.holdsSettings = true) := f.opened_toggle (f.suits_switch h) guide
  simp only [field, hchannel, haggregate, htimeUnit, hfield, htype, hsort, hbin, hscale,
    hguide .axis rfl, hguide .legend rfl, Toggle.choices?_filter_isPresent, inner?_filter_isPresent]
  have hbins : (q.bin.bind Toggle.inner?).elim [] (fun b => (f.bin b).2) =
      f.entry .maxBins (q.choices? .maxBins) := by
    unfold FieldEncoding.choices? FieldEncoding.bin?
    cases q.bin.bind Toggle.inner? with
    | none => rfl
    | some b => exact hmaxBins b
  have hscales : (q.scale.bind Toggle.inner?).elim [] (fun s => (f.scale s).2) =
      Property.scaleParts.flatMap fun part => f.entry (.scaleOf part) (q.choices? (.scaleOf part)) := by
    unfold FieldEncoding.choices? FieldEncoding.scale?
    cases q.scale.bind Toggle.inner? with
    | none => rfl
    | some s => exact f.opened_scale s
  have hguides (t : Option (Toggle Guide)) :
      (t.bind Toggle.inner?).elim [] (fun g => (guide g).2) = [] := by
    cases t.bind Toggle.inner? <;> rfl
  rw [hbins, hscales, hguides, hguides]
  simp [Property.listingOrder, FieldEncoding.choices?, List.flatMap_append, List.flatMap_map]

theorem choices?_field (q : FieldEncoding) (p : Property) :
    (f.field q).1.choices? p = f.filled p (q.choices? p) := by
  cases p with
  | channel => exact f.choices?_slot f.suits_channel q.channel
  | aggregate => exact f.choices?_slot f.suits_aggregate q.aggregate
  | timeUnit => exact f.choices?_slot f.suits_timeUnit q.timeUnit
  | field => exact f.choices?_slot f.suits_field q.field
  | type => exact f.choices?_slot f.suits_type q.type
  | sort => exact f.choices?_slot? f.suits_sort q.sort
  | bin =>
    refine (f.choices?_toggle (f.suits_switch rfl) f.bin _).trans ?_
    rw [Toggle.choices?_filter_isPresent]
    rfl
  | scale => exact f.choices?_toggle (f.suits_switch rfl) f.scale q.scale
  | axis => exact f.choices?_toggle (f.suits_switch rfl) guide q.axis
  | legend => exact f.choices?_toggle (f.suits_switch rfl) guide q.legend
  | maxBins =>
    simp only [FieldEncoding.choices?, FieldEncoding.bin?, field, inner?_toggle, inner?_filter_isPresent]
    cases q.bin.bind Toggle.inner? with
    | none => rfl
    | some b => exact f.choices?_slot? f.suits_maxBins b.maxbins
  | scaleOf part =>
    simp only [FieldEncoding.choices?, FieldEncoding.scale?, field, inner?_toggle]
    cases q.scale.bind Toggle.inner? with
    | none => rfl
    | some s => exact f.choices?_scale s part
  | _ => rfl

end Filling

namespace Encoding

variable (f : Filling)

/-- Filling lists the open slots of an encoding in the order of their properties. -/
theorem opened_fill (e : Encoding) :
    (e.fill f).2 = Property.listingOrder.flatMap fun p => f.entry p (e.choices? p) := by
  have hchannel := f.opened_slot f.suits_channel
  have hswitch := f.opened_slot (α := Bool) (p := .autoCount) rfl
  cases e with
  | field q => exact f.opened_field q
  | value c v =>
    refine (hchannel c).trans ?_
    simp [Property.listingOrder, choices?, List.flatMap_append, List.flatMap_map]
  | autoCount c b =>
    refine (congrArg₂ (· ++ ·) (hchannel c) (hswitch b)).trans ?_
    simp [Property.listingOrder, choices?, List.flatMap_append, List.flatMap_map]

/-- An open slot of a filled encoding has the name and the candidates with which it is listed. -/
theorem choices?_fill (e : Encoding) (p : Property) :
    (e.fill f).1.choices? p = f.filled p (e.choices? p) := by
  have hchannel := f.choices?_slot f.suits_channel
  have hswitch := f.choices?_slot (α := Bool) (p := .autoCount) rfl
  cases e with
  | field q => exact f.choices?_field q p
  | value c v =>
    cases p with
    | channel => exact hchannel c
    | _ => rfl
  | autoCount c b =>
    cases p with
    | channel => exact hchannel c
    | autoCount => exact hswitch b
    | _ => rfl

theorem choices?_eq_none {p : Property} (hp : p ∉ Property.listingOrder) (e : Encoding) :
    e.choices? p = none := by
  cases p with
  | mark | transform | stack | hasFunction => cases e <;> rfl
  | scaleOf part => cases part <;> exact absurd (by decide) hp
  | _ => exact absurd (by decide) hp

/-- An open slot is listed under its property, and no other slot is. -/
theorem lookup_fill_eq (e : Encoding) (p : Property) :
    (e.fill f).2.lookup p = (e.choices? p).map (f.complete p) := by
  rw [opened_fill, f.lookup_flatMap_entry]
  split
  · rfl
  · next hp => rw [choices?_eq_none hp, Option.map_none]

/-- The properties of the slots that are listed. -/
theorem keys_fill (e : Encoding) :
    (e.fill f).2.map Prod.fst = Property.listingOrder.filter fun p => e.isOpen p := by
  rw [opened_fill, f.keys_flatMap_entry]
  exact List.filter_congr fun p _ => e.isSome_choices? p

/-- No property is listed twice. -/
theorem nodup_keys_fill (e : Encoding) : ((e.fill f).2.map Prod.fst).Nodup := by
  rw [keys_fill]
  exact List.Nodup.sublist List.filter_sublist (by decide)

end Encoding

end ChartAdvisor
