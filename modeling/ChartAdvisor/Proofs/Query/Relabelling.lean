import Mathlib.Data.List.Nodup
import Mathlib.Logic.Equiv.Basic
import ChartAdvisor.Proofs.Rules.Agreement
import ChartAdvisor.Proofs.Stacking

/-!
# Charts on other channels

A query can be moved to other channels: every channel that is fixed gives way to its image under some
map, and what is open stays open. Only the channels of the encodings change. Where the map tells
channels apart, what was first on a channel is first on its image, and where it takes axes to axes and
facets to facets and keeps the rest, the tables of channels do not tell a channel from its image.
-/
namespace ChartAdvisor

/-- A fixed value gives way to its image. -/
def Slot.mapFixed {α : Type} (f : α → α) : Slot α → Slot α
  | .fixed v => .fixed (f v)
  | .wild w => .wild w

namespace Slot

variable {α : Type} {f : α → α}

@[simp]
theorem value?_mapFixed (s : Slot α) : (s.mapFixed f).value? = s.value?.map f := by
  cases s <;> rfl

@[simp]
theorem isOpen_mapFixed (s : Slot α) : (s.mapFixed f).isOpen = s.isOpen := by
  cases s <;> rfl

theorem is_mapFixed [DecidableEq α] (hf : Function.Injective f) (s : Slot α) (v : α) :
    (s.mapFixed f).is (f v) = s.is v := by
  cases s with
  | fixed u => exact decide_eq_decide.mpr hf.eq_iff
  | wild w => rfl

end Slot

/-! ## Permutations of the channels -/

/-- A permutation that takes axes to axes keeps the two or swaps them. -/
theorem Channel.axes_cases {σ : Equiv.Perm Channel} (axes : ∀ c, (σ c).isPositional = c.isPositional) :
    (σ .x = .x ∧ σ .y = .y) ∨ (σ .x = .y ∧ σ .y = .x) := by
  have hx := axes .x
  have hy := axes .y
  have hne : σ .x ≠ σ .y := fun h => nomatch σ.injective h
  revert hx hy hne
  cases σ .x <;> cases σ .y <;> simp [isPositional]

/-- A permutation of the channels that takes axes to axes and facets to facets and keeps the rest. -/
structure Channel.KeepsPlaces (σ : Equiv.Perm Channel) : Prop where
  axes : ∀ c, (σ c).isPositional = c.isPositional
  facets : ∀ c, (σ c).isFacet = c.isFacet
  others : ∀ c, c.isPositional = false → c.isFacet = false → σ c = c

namespace Channel.KeepsPlaces

variable {σ : Equiv.Perm Channel} (hσ : KeepsPlaces σ)
include hσ

/-- A table that tells neither the axes apart nor the facets tells no channel from its image. -/
theorem apply_eq {α : Type} {f : Channel → α} (haxes : f .x = f .y) (hfacets : f .row = f .column)
    (c : Channel) : f (σ c) = f c := by
  have ha := hσ.axes c
  have hf := hσ.facets c
  cases c with
  | x | y =>
    revert ha
    cases σ _ <;> simp [isPositional, haxes]
  | row | column =>
    revert hf
    cases σ _ <;> simp [isFacet, hfacets]
  | size | color | shape | detail | text | opacity => rw [hσ.others _ rfl rfl]

theorem axes_cases : (σ .x = .x ∧ σ .y = .y) ∨ (σ .x = .y ∧ σ .y = .x) := Channel.axes_cases hσ.axes

theorem facets_cases : (σ .row = .row ∧ σ .column = .column) ∨ (σ .row = .column ∧ σ .column = .row) := by
  have hr := hσ.facets .row
  have hc := hσ.facets .column
  have hne : σ .row ≠ σ .column := fun h => nomatch σ.injective h
  revert hr hc hne
  cases σ .row <;> cases σ .column <;> simp [isFacet]

end Channel.KeepsPlaces

/-! ## Fields -/

namespace FieldEncoding

/-- The field on the image of its channel. -/
def relabelled (σ : Channel → Channel) (q : FieldEncoding) : FieldEncoding :=
  { q with channel := q.channel.mapFixed σ }

variable (σ : Channel → Channel) (q : FieldEncoding)

@[simp] theorem aggregate?_relabelled : (q.relabelled σ).aggregate? = q.aggregate? := rfl
@[simp] theorem mayAggregate_relabelled : (q.relabelled σ).mayAggregate = q.mayAggregate := rfl
@[simp] theorem field_relabelled : (q.relabelled σ).field = q.field := rfl
@[simp] theorem type_relabelled : (q.relabelled σ).type = q.type := rfl
@[simp] theorem scale?_relabelled : (q.relabelled σ).scale? = q.scale? := rfl
@[simp] theorem scaleOn?_relabelled : (q.relabelled σ).scaleOn? = q.scaleOn? := rfl
@[simp] theorem isBinned_relabelled : (q.relabelled σ).isBinned = q.isBinned := rfl
@[simp] theorem timeUnit?_relabelled : (q.relabelled σ).timeUnit? = q.timeUnit? := rfl

@[simp]
theorem channel_relabelled : (q.relabelled σ).channel = q.channel.mapFixed σ := rfl

theorem isOpen_relabelled (p : Property) : (q.relabelled σ).isOpen p = q.isOpen p := by
  cases p with
  | channel => exact Slot.isOpen_mapFixed q.channel
  | _ => rfl

/-- The scale type in effect is that on the image of the channel. -/
theorem scaleType?_relabelled {σ : Equiv.Perm Channel} (hσ : Channel.KeepsPlaces σ)
    (q : FieldEncoding) : (q.relabelled σ).scaleType? = q.scaleType? := by
  have hinferred (c : Channel) (t : FieldType) :
      (q.relabelled σ).inferredScaleType (σ c) t = q.inferredScaleType c t :=
    hσ.apply_eq (f := fun c => q.inferredScaleType c t) (by cases t <;> rfl) (by cases t <;> rfl) c
  unfold scaleType?
  simp only [scale?_relabelled, type_relabelled, channel_relabelled, Slot.isOpen_mapFixed]
  split
  · rw [if_pos (by assumption)]
  · rw [if_neg (by assumption)]
    rcases q.scale?.bind Scale.type with _ | _ | _ <;> rcases q.channel with c | w <;>
      rcases q.type with t | w' <;> first | rfl | (simp only [Slot.mapFixed, hinferred]; rfl)

end FieldEncoding

/-! ## Encodings -/

namespace Encoding

/-- The encoding on the image of its channel. -/
def relabelled (σ : Channel → Channel) : Encoding → Encoding
  | field q => field (q.relabelled σ)
  | value c v => value (c.mapFixed σ) v
  | autoCount c b => autoCount (c.mapFixed σ) b

variable (σ : Channel → Channel) (e : Encoding)

@[simp]
theorem channel_relabelled : (e.relabelled σ).channel = e.channel.mapFixed σ := by cases e <;> rfl

@[simp]
theorem channel?_relabelled : (e.relabelled σ).channel? = e.channel?.map σ := by
  rw [channel?, channel_relabelled, Slot.value?_mapFixed, channel?]

@[simp]
theorem field?_relabelled : (e.relabelled σ).field? = e.field?.map (·.relabelled σ) := by
  cases e <;> rfl

@[simp]
theorem isDisabledAutoCount_relabelled :
    (e.relabelled σ).isDisabledAutoCount = e.isDisabledAutoCount := by
  cases e <;> rfl

@[simp]
theorem isAggregate_relabelled : (e.relabelled σ).isAggregate = e.isAggregate := by cases e <;> rfl

@[simp]
theorem mayAggregate_relabelled : (e.relabelled σ).mayAggregate = e.mayAggregate := by
  cases e <;> rfl

@[simp]
theorem isDimension_relabelled : (e.relabelled σ).isDimension = e.isDimension := by cases e <;> rfl

@[simp]
theorem isMeasure_relabelled : (e.relabelled σ).isMeasure = e.isMeasure := by cases e <;> rfl

@[simp]
theorem isOpen_relabelled (p : Property) : (e.relabelled σ).isOpen p = e.isOpen p := by
  cases e with
  | field q => exact q.isOpen_relabelled σ p
  | value c v => simp [relabelled, isOpen]
  | autoCount c b => simp [relabelled, isOpen]

/-- Nothing but the channel changes. -/
theorem agree_relabelled {ps : List Property} (hps : .channel ∉ ps) : (e.relabelled σ).Agree ps e where
  kind := by cases e <;> rfl
  standing p hp := by
    have hne : p ≠ .channel := fun h => hps (h ▸ hp)
    cases e with
    | field q =>
      cases p with
      | channel => contradiction
      | _ => rfl
    | value c v => simp [relabelled, standing, hne]
    | autoCount c b => simp [relabelled, standing, hne]

@[simp]
theorem countedChannel?_relabelled :
    (e.relabelled σ).countedChannel? = e.countedChannel?.map σ := by
  unfold countedChannel?
  rw [isDisabledAutoCount_relabelled, channel?_relabelled]
  split <;> rfl

theorem channel_is_relabelled {σ : Channel → Channel} (hσ : Function.Injective σ) (c : Channel) :
    (e.relabelled σ).channel.is (σ c) = e.channel.is c := by
  rw [channel_relabelled, Slot.is_mapFixed hσ]

/-- The first encoding on a channel goes with the channel. -/
theorem find?_relabelled {σ : Channel → Channel} (hσ : Function.Injective σ) (es : List Encoding) (c : Channel) :
    (es.map (·.relabelled σ)).find? (·.channel.is (σ c)) = (es.find? (·.channel.is c)).map (·.relabelled σ) := by
  rw [List.find?_map]
  exact congrArg (fun test => (es.find? test).map _) (funext fun e => e.channel_is_relabelled hσ c)

end Encoding

/-! ## Queries -/

namespace ChartQuery

/-- The query on the images of its channels. -/
def relabelled (σ : Channel → Channel) (q : ChartQuery) : ChartQuery :=
  { q with encodings := q.encodings.map (·.relabelled σ) }

variable (σ : Channel → Channel) (q : ChartQuery)

@[simp] theorem mark_relabelled : (q.relabelled σ).mark = q.mark := rfl

@[simp]
theorem encodings_relabelled :
    (q.relabelled σ).encodings = q.encodings.map (·.relabelled σ) := rfl

@[simp]
theorem isAggregate_relabelled : (q.relabelled σ).isAggregate = q.isAggregate := by
  simp [isAggregate, Function.comp_def]

@[simp]
theorem active_relabelled : (q.relabelled σ).active = q.active.map (·.relabelled σ) := by
  simp [active, List.filter_map, Function.comp_def]

section Injective

variable {σ : Channel → Channel} (hσ : Function.Injective σ)
include hσ

theorem position?_relabelled (c : Channel) : (q.relabelled σ).position? (σ c) = q.position? c := by
  simp [position?, List.findIdx?_map, Function.comp_def, -Encoding.channel_relabelled,
    Encoding.channel_is_relabelled _ hσ]

theorem aggregatesOn_relabelled (c : Channel) :
    (q.relabelled σ).aggregatesOn (σ c) = q.aggregatesOn c := by
  rw [aggregatesOn, encodings_relabelled, Encoding.find?_relabelled hσ, Option.any_map]
  exact congrArg (Option.any · _) (funext fun e => e.mayAggregate_relabelled σ)

end Injective

variable {σ : Equiv.Perm Channel} (hσ : Channel.KeepsPlaces σ)
include hσ

/-- Stacks are split by the same channels. -/
theorem stackGroup?_relabelled (e : Encoding) : stackGroup? (e.relabelled σ) = stackGroup? e := by
  have hgroup : (e.channel?.map σ).filter Channel.isStackGroup = e.channel?.filter Channel.isStackGroup := by
    cases e.channel? with
    | none => rfl
    | some c =>
      have hsame := hσ.apply_eq (f := fun c => if c.isStackGroup then some c else none) rfl rfl c
      simpa only [Option.map_some, Option.filter_some] using hsame
  unfold stackGroup?
  rw [Encoding.channel?_relabelled, hgroup]
  cases e <;> rfl

end ChartQuery

/-- The stack on the images of its axes. -/
def Stack.relabelled (σ : Channel → Channel) (s : Stack) : Stack :=
  { s with groupbyChannel := s.groupbyChannel.map σ, fieldChannel := σ s.fieldChannel }

namespace ChartQuery

/-- A query stacks along the image of the axis along which it stacked, by the same channels. -/
theorem stack?_relabelled {σ : Equiv.Perm Channel} (hσ : Channel.KeepsPlaces σ) (q : ChartQuery) :
    (q.relabelled σ).stack? = q.stack?.map (Stack.relabelled σ) := by
  have hoff : (q.relabelled σ).stackOffset = q.stackOffset := rfl
  have hgroups : (q.relabelled σ).encodings.filterMap stackGroup? = q.encodings.filterMap stackGroup? := by
    rw [encodings_relabelled, List.filterMap_map]
    exact congrArg (List.filterMap · _) (funext (stackGroup?_relabelled hσ))
  have hpx := q.position?_relabelled σ.injective .x
  have hpy := q.position?_relabelled σ.injective .y
  have hax := q.aggregatesOn_relabelled σ.injective .x
  have hay := q.aggregatesOn_relabelled σ.injective .y
  unfold stack?
  rw [hoff, mark_relabelled, isAggregate_relabelled, hgroups]
  cases q.stackOffset with
  | error v => rfl
  | ok o =>
    cases o with
    | none => rfl
    | some offset =>
      rcases hσ.axes_cases with ⟨hx, hy⟩ | ⟨hx, hy⟩ <;> rw [hx] at hpx hax <;> rw [hy] at hpy hay <;>
        simp only [hpx, hpy, hax, hay]
      all_goals
        cases q.mark.value?.any Mark.isStackable && q.isAggregate
        · rfl
        · cases (q.encodings.filterMap stackGroup?).isEmpty <;> cases q.aggregatesOn .x <;>
            cases q.aggregatesOn .y <;> cases q.position? .x <;> cases q.position? .y <;>
            simp [Stack.relabelled, hx, hy]

end ChartQuery

/-! ## Drafts -/

/-- The counts on the images of the channels. -/
def ChannelCount.relabelled (σ : Channel → Channel) (n : ChannelCount) : ChannelCount :=
  ⟨n.entries.map fun (c, k) => (σ c, k)⟩

theorem ChannelCount.get_relabelled {σ : Channel → Channel} (hσ : Function.Injective σ)
    (n : ChannelCount) (c : Channel) : (n.relabelled σ).get (σ c) = n.get c := by
  unfold get relabelled
  congr 1
  induction n.entries with
  | nil => rfl
  | cons entry rest ih =>
    obtain ⟨k, v⟩ := entry
    rw [List.map_cons, List.lookup_cons, List.lookup_cons, ih]
    have hkey : (σ c == σ k) = (c == k) := decide_eq_decide.mpr hσ.eq_iff
    rw [hkey]

namespace Draft

/-- The draft, and what it was built from, on the images of the channels that are fixed, with its
counter. -/
def relabelled (σ : Channel → Channel) (d : Draft) : Draft :=
  { d with
    origin := d.origin.relabelled σ
    query := d.query.relabelled σ
    channelCount := d.channelCount.relabelled σ }

variable (σ : Channel → Channel) (d : Draft)

@[simp] theorem slots_relabelled : (d.relabelled σ).slots = d.slots := rfl
@[simp] theorem query_relabelled : (d.relabelled σ).query = d.query.relabelled σ := rfl

@[simp]
theorem active_relabelled : (d.relabelled σ).active = d.active.map (·.relabelled σ) :=
  d.query.active_relabelled σ

@[simp]
theorem isAggregate_relabelled : (d.relabelled σ).isAggregate = d.isAggregate :=
  d.query.isAggregate_relabelled σ

@[simp]
theorem encoding?_relabelled (i : Nat) :
    (d.relabelled σ).encoding? i = (d.encoding? i).map (·.relabelled σ) := by
  simp [encoding?]

theorem fields_relabelled :
    ChartRule.fields (d.relabelled σ) = (ChartRule.fields d).map (·.relabelled σ) := by
  unfold ChartRule.fields
  rw [active_relabelled, List.filterMap_map, List.map_filterMap]
  exact congrArg (List.filterMap · _) (funext fun e => e.field?_relabelled σ)

theorem channels_relabelled : ChartRule.channels (d.relabelled σ) = (ChartRule.channels d).map σ := by
  unfold ChartRule.channels
  rw [active_relabelled, List.filterMap_map, List.map_filterMap]
  exact congrArg (List.filterMap · _) (funext fun e => e.channel?_relabelled σ)

section Injective

variable {σ : Channel → Channel} (hσ : Function.Injective σ)
include hσ

theorem channelUsed_relabelled (c : Channel) : (d.relabelled σ).channelUsed (σ c) = d.channelUsed c :=
  congrArg (decide <| 0 < ·) (d.channelCount.get_relabelled hσ c)

theorem onChannel?_relabelled (c : Channel) :
    (d.relabelled σ).onChannel? (σ c) = (d.onChannel? c).map (·.relabelled σ) := by
  rw [onChannel?, active_relabelled, Encoding.find?_relabelled hσ, onChannel?]

theorem isDimension_relabelled (c : Channel) : (d.relabelled σ).isDimension (σ c) = d.isDimension c := by
  simp [isDimension, d.onChannel?_relabelled hσ, Option.any_map]

theorem isMeasure_relabelled (c : Channel) : (d.relabelled σ).isMeasure (σ c) = d.isMeasure c := by
  simp [isMeasure, d.onChannel?_relabelled hσ, Option.any_map]

/-- As many encodings sit on the image of a channel. -/
theorem occupancy_relabelled (encodings : List Encoding) (c : Channel) :
    occupancy (encodings.map (·.relabelled σ)) (σ c) = occupancy encodings c := by
  unfold occupancy
  rw [List.countP_map]
  refine List.countP_congr fun e _ => ?_
  cases h : e.countedChannel? <;> simp [h, hσ.eq_iff]

end Injective

/-- Counters that count the encodings of a draft count those of the relabelled one when relabelled. -/
theorem counts_relabelled {d : Draft} (h : ∀ c, d.channelCount.get c = occupancy d.query.encodings c)
    (σ : Equiv.Perm Channel) (c : Channel) :
    (d.relabelled σ).channelCount.get c = occupancy (d.relabelled σ).query.encodings c := by
  obtain ⟨c, rfl⟩ := σ.surjective c
  rw [query_relabelled, ChartQuery.encodings_relabelled, occupancy_relabelled σ.injective, ← h]
  exact d.channelCount.get_relabelled σ.injective c

end Draft
end ChartAdvisor
