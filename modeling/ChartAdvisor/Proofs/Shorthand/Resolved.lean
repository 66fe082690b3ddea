import ChartAdvisor.Proofs.Charting
import ChartAdvisor.Proofs.Encoding.Recoding
import ChartAdvisor.Proofs.Shorthand.Shown

/-!
# Resolved queries read back

In a query that is a chart some things are not written: a bin that is switched off, a scale or a guide
that is switched on with nothing set in it, a part of a scale that is `null`, a guide on a channel that
has none, and whether a field had to have a function. Without them the query is written as before and
is legible, so that its shorthand reads back.
-/
namespace ChartAdvisor

/-- A field without what is not written of it. -/
def FieldEncoding.asWritten (q : FieldEncoding) : FieldEncoding where
  channel := q.channel
  aggregate := q.aggregate
  timeUnit := q.timeUnit
  bin := q.bin.filter Toggle.isOn
  scale := (q.scale.map (·.mapInner Scale.dropNulls)).filter Toggle.isWritten
  sort := q.sort
  field := q.field
  type := q.type
  axis := if q.channel.value?.all Channel.supportsAxis then q.axis.filter Toggle.isWritten else none
  legend :=
    if q.channel.value?.all Channel.supportsLegend then q.legend.filter Toggle.isWritten else none

def Encoding.asWritten : Encoding → Encoding
  | field q => field q.asWritten
  | e => e

/-- A query without what is not written of it. -/
def ChartQuery.asWritten (q : ChartQuery) : ChartQuery :=
  { q with
    transform := q.transform.filter (!·.isEmpty)
    encodings := q.encodings.map Encoding.asWritten }

/-! ## Texts -/

namespace Scale

/-- What is left is as it was, and not `null`. -/
theorem get_dropNulls {s : Scale} {p : ScaleProperty} {v : Slot p.Value}
    (h : s.dropNulls.get p = some v) : s.get p = some v ∧ ∀ x, v = .fixed x → encode x ≠ .null := by
  obtain ⟨hget, hkept⟩ := Option.filter_eq_some_iff.mp (s.get_dropNulls_eq p ▸ h)
  refine ⟨hget, ?_⟩
  rintro x rfl hnull
  rw [show encode (Slot.fixed x) = .null from hnull] at hkept
  contradiction

end Scale

/-- Of a field without open slots just that is written. -/
theorem FieldEncoding.asWritten_eq_shown {q : FieldEncoding} (closed : ∀ p, q.isOpen p = false) :
    q.asWritten = q.shown := by
  have hopen : q.hasOpenFunction = false := by
    rw [hasOpenFunction, show q.aggregate.isOpen = false from closed .aggregate,
      show q.timeUnit.isOpen = false from closed .timeUnit, show q.binIsOpen = false from closed .bin]
    rfl
  have hbin : q.bin.filter Toggle.isOn =
      (q.bin.filter Toggle.isPresent).map fun t => (t.mapInner Bin.nameless).nameless := by
    have hclosed := closed .bin
    have hmaxbins := closed .maxBins
    rcases hb : q.bin with _ | _ | b | ⟨w, b⟩
    · rfl
    · rfl
    · rw [isOpen, bin?, hb] at hmaxbins
      rw [Option.filter_some, Option.filter_some]
      exact congrArg (fun b => some (Toggle.on b)) (Bin.nameless_of_closed hmaxbins).symm
    · rw [isOpen, hb] at hclosed
      contradiction
  have hscale : (q.scale.map (·.mapInner Scale.dropNulls)) =
      q.scale.map fun t => (t.mapInner Scale.dropNulls).shown := by
    have hdropped : (q.scale.map (·.mapInner Scale.dropNulls)).any Toggle.isOpen = false := by
      have hclosed : q.scale.any Toggle.isOpen = false := closed .scale
      rw [Option.any_map, ← hclosed]
      congr 1
      funext t
      cases t <;> rfl
    rw [← Toggle.shown_of_closed hdropped, Option.map_map]
    rfl
  unfold asWritten shown
  rw [Slot.nameless_of_closed (closed .channel), Slot.nameless_of_closed (closed .aggregate),
    Slot.nameless_of_closed (closed .timeUnit), Slot.nameless_of_closed (closed .field),
    Slot.nameless_of_closed (closed .type), Slot.map_nameless_of_closed (closed .sort),
    Toggle.shown_of_closed (closed .axis), Toggle.shown_of_closed (closed .legend), hopen,
    Bool.and_false, hbin, hscale]

open Shorthand

namespace Encoding

theorem encodingWith_asWritten {e : Encoding} (closed : ∀ p, e.isOpen p = false) {incl : Include}
    (full : incl.IsFull) (stackOffset : Option String) :
    encodingWith incl [] e.asWritten stackOffset = encodingWith incl [] e stackOffset := by
  cases e with
  | value | autoCount => rfl
  | field q =>
    rw [asWritten, FieldEncoding.asWritten_eq_shown closed]
    exact encodingWith_shown full (.field q) stackOffset

@[simp]
theorem channel_asWritten (e : Encoding) : e.asWritten.channel = e.channel := by
  cases e <;> rfl

@[simp]
theorem isDisabledAutoCount_asWritten (e : Encoding) :
    e.asWritten.isDisabledAutoCount = e.isDisabledAutoCount := by
  cases e <;> rfl

theorem isAggregate_asWritten (e : Encoding) : e.asWritten.isAggregate = e.isAggregate := by
  cases e <;> rfl

theorem mayAggregate_asWritten (e : Encoding) : e.asWritten.mayAggregate = e.mayAggregate := by
  cases e <;> rfl

theorem stackGroup?_asWritten (e : Encoding) :
    ChartQuery.stackGroup? e.asWritten = ChartQuery.stackGroup? e := by
  cases e <;> rfl

end Encoding

namespace ChartQuery

variable {q : ChartQuery}

theorem stack?_asWritten (q : ChartQuery) : q.asWritten.stack? = q.stack? := by
  have hposition (c : Channel) : q.asWritten.position? c = q.position? c := by
    simp only [position?, asWritten, List.findIdx?_map, Function.comp_def, Encoding.channel_asWritten]
  have hon (c : Channel) : q.asWritten.aggregatesOn c = q.aggregatesOn c := by
    simp only [aggregatesOn, asWritten, List.find?_map, Function.comp_def, Encoding.channel_asWritten,
      Option.any_map, Encoding.mayAggregate_asWritten]
  have haggregate : q.asWritten.isAggregate = q.isAggregate := by
    simp only [isAggregate, asWritten, List.any_map, Function.comp_def,
      Encoding.isAggregate_asWritten]
  have hgroups : q.asWritten.encodings.filterMap stackGroup? = q.encodings.filterMap stackGroup? := by
    simp only [asWritten, List.filterMap_map, Function.comp_def, Encoding.stackGroup?_asWritten]
  unfold stack?
  simp only [hposition, hon, haggregate, hgroups]
  rfl

theorem active_asWritten (q : ChartQuery) : q.asWritten.active = q.active.map Encoding.asWritten := by
  simp only [active, asWritten, List.filter_map, Function.comp_def,
    Encoding.isDisabledAutoCount_asWritten]

/-- What is not written of a resolved query does not show in its shorthand. -/
theorem query_asWritten (resolved : ∀ e ∈ q.active, ∀ p, e.isOpen p = false) {incl : Include}
    (full : incl.IsFull) : query incl [] q.asWritten = query incl [] q := by
  have hencodings : Shorthand.encodings incl [] q.asWritten = Shorthand.encodings incl [] q := by
    have hzip : q.asWritten.encodings.zipIdx =
        q.encodings.zipIdx.map (Prod.map Encoding.asWritten id) := List.zipIdx_map ..
    unfold Shorthand.encodings
    simp only [stack?_asWritten, hzip, List.filter_map, List.map_map]
    have hshown : ((fun x : Encoding × Nat => !x.1.isDisabledAutoCount) ∘
        Prod.map Encoding.asWritten id) = fun x => !x.1.isDisabledAutoCount :=
      funext fun x => by simp
    rw [hshown]
    refine List.map_congr_left fun (e, i) he => ?_
    obtain ⟨hmem, hactive⟩ := List.mem_filter.mp he
    exact Encoding.encodingWith_asWritten
      (resolved e (List.mem_filter.mpr ⟨List.fst_mem_of_mem_zipIdx hmem, hactive⟩)) full _
  refine query_congr rfl ?_ (.of_eq hencodings)
  rcases ht : q.transform with _ | _ | _ <;> simp [asWritten, ht, Option.filter_some]

end ChartQuery

/-! ## What is read back -/

/-- No parameter of a bin is a text with a quote in it. -/
def Bin.IsPlain (b : Bin) : Prop := ∀ p s, b.get? p = some (.text s) → '"' ∉ s.toList

/-- Nothing in a field cuts a shorthand. -/
structure FieldEncoding.IsPlain (q : FieldEncoding) : Prop where
  name : ∀ n, q.field = .fixed n → IsPlainName n
  bin : ∀ b, q.bin? = some b → b.IsPlain

/-- What is read of a resolved field is what was written: it has one function at most, and its values
read back and look neither open nor like another function. -/
structure FieldEncoding.IsReadable (q : FieldEncoding) : Prop where
  single : [q.aggregate?.isSome, q.timeUnit?.isSome, q.isBinned].count true ≤ 1
  /-- The names of these two functions have a digit in them. -/
  aggregateName : q.aggregate? ≠ some .q1 ∧ q.aggregate? ≠ some .q3
  bin : ∀ b, q.bin? = some b → ∀ p v, b.get? p = some v → v.Legible Json.depthLimit
  scale : ∀ s, q.scale? = some s → ∀ p x, s.get p = some (.fixed x) →
    (encode x).Legible (Json.depthLimit - 1) ∧ ¬(encode x).LooksOpen
  axis : ∀ g, q.axis.bind Toggle.inner? = some g → g.IsReadable
  legend : ∀ g, q.legend.bind Toggle.inner? = some g → g.IsReadable

def Encoding.IsReadable : Encoding → Prop
  | field q => q.IsReadable
  | value _ v => ∀ x, v = .fixed x → x.Legible Json.depthLimit ∧ ¬x.LooksOpen
  | autoCount .. => True

structure ChartQuery.IsReadable (q : ChartQuery) : Prop where
  transform : ∀ steps ∈ q.transform, ∀ v ∈ steps, v.Legible (Json.depthLimit - 1)
  encodings : ∀ e ∈ q.active, e.IsReadable

namespace FieldEncoding

theorem isLegible_guide {guide : Option (Toggle Guide)} (closed : guide.any Toggle.isOpen = false)
    (readable : ∀ g, guide.bind Toggle.inner? = some g → g.IsReadable) {supported : Bool} :
    ∀ t ∈ if supported then guide.filter Toggle.isWritten else none,
      t.IsSettled Guide.IsLegible ∧ supported := by
  intro t ht
  cases supported with
  | false => contradiction
  | true =>
    refine ⟨?_, rfl⟩
    obtain ⟨rfl, hwritten⟩ := Option.filter_eq_some_iff.mp ht
    cases t with
    | off => trivial
    | wild w g => contradiction
    | on g =>
      have hg := readable g rfl
      exact ⟨hg.legible, by simpa [Toggle.isWritten, Settings.isEmpty] using hwritten, hg.keys⟩

theorem isLegible_scale {scale : Option (Toggle Scale)}
    (closed : ∀ s, scale.bind Toggle.inner? = some s → ∀ p, s.isOpen p = false)
    (settled : scale.any Toggle.isOpen = false)
    (readable : ∀ s, scale.bind Toggle.inner? = some s → ∀ p x, s.get p = some (.fixed x) →
      (encode x).Legible (Json.depthLimit - 1) ∧ ¬(encode x).LooksOpen) :
    ∀ t ∈ (scale.map (·.mapInner Scale.dropNulls)).filter Toggle.isWritten,
      t.IsSettled Scale.IsLegible := by
  intro t ht
  obtain ⟨hmap, hwritten⟩ := Option.filter_eq_some_iff.mp ht
  obtain ⟨t, rfl, rfl⟩ := Option.map_eq_some_iff.mp hmap
  cases t with
  | off => trivial
  | wild w s => contradiction
  | on s =>
    have hinner : (some (Toggle.on s)).bind Toggle.inner? = some s := rfl
    refine ⟨fun p v hv => ?_, ?_⟩
    · obtain ⟨hget, hnull⟩ := Scale.get_dropNulls hv
      have hclosed := closed s hinner p
      rw [Scale.isOpen, hget] at hclosed
      cases v with
      | wild w => contradiction
      | fixed x =>
        obtain ⟨hlegible, hopen⟩ := readable s hinner p x hget
        exact ⟨x, rfl, hlegible, hopen, hnull x rfl⟩
    · have hsome : s.dropNulls.isEmpty = false := (Bool.not_eq_true' _).mp hwritten
      obtain ⟨p, -, hp⟩ := List.all_eq_false.mp hsome
      refine ⟨p, ?_⟩
      have hjson : (s.dropNulls.json? p).isSome = true := by
        rwa [Scale.has, Bool.not_eq_true', Bool.not_eq_false] at hp
      obtain ⟨v, hv⟩ := Option.isSome_iff_exists.mp hjson
      obtain ⟨u, hu, -⟩ := Option.map_eq_some_iff.mp (Option.filter_eq_some_iff.mp hv).1
      rw [hu]
      rfl

theorem IsReadable.asWritten {q : FieldEncoding} (h : q.IsReadable)
    (closed : ∀ p, q.isOpen p = false) (plain : q.IsPlain) : q.asWritten.IsLegible where
  channel := closed .channel
  type := closed .type
  field := by
    have hclosed := closed .field
    cases hf : q.field with
    | fixed n => exact ⟨n, hf, plain.name n hf⟩
    | wild w => rw [isOpen, hf] at hclosed; contradiction
  hasFunction := rfl
  aggregate := closed .aggregate
  aggregateName := h.aggregateName
  timeUnit := closed .timeUnit
  bin t ht := by
    obtain ⟨hb, hon⟩ := Option.filter_eq_some_iff.mp ht
    cases t with
    | off => contradiction
    | wild w b => contradiction
    | on b =>
      have hinner : q.bin? = some b := by rw [bin?, hb]; rfl
      refine ⟨b, rfl, fun s hs => ?_, fun p v hv => ⟨h.bin b hinner p v hv, fun s hs => ?_⟩⟩
      · have hclosed := closed .maxBins
        simpa [isOpen, hinner, Option.mem_def.mp hs] using hclosed
      · exact plain.bin b hinner p s (hs ▸ hv)
  single := by
    have hbinned : (q.bin.filter Toggle.isOn).isSome = q.isBinned := by
      rcases hb : q.bin with _ | _ | _ | _ <;> simp [isBinned, hb, Toggle.isOn, Option.filter_some]
    have hsingle := h.single
    rw [← hbinned] at hsingle
    exact hsingle
  scale := isLegible_scale (fun s hs p => by simpa [isOpen, scale?, hs] using closed (.scaleOf p))
    (closed .scale) h.scale
  sort s hs := by
    have hclosed := closed .sort
    rwa [isOpen, show q.sort = some s from hs] at hclosed
  axis := isLegible_guide (closed .axis) h.axis
  legend := isLegible_guide (closed .legend) h.legend

end FieldEncoding

namespace ChartQuery

variable {q : ChartQuery}

theorem IsReadable.isTransparent (h : q.IsReadable) (mark : q.mark.isOpen = false)
    (complete : ∀ e ∈ q.active, e.IsComplete)
    (plain : ∀ f, .field f ∈ q.encodings → f.IsPlain) : q.asWritten.IsTransparent where
  mark := Slot.isNameless_of_closed mark
  transform steps hsteps := by
    obtain ⟨hmem, hne⟩ := Option.filter_eq_some_iff.mp hsteps
    exact ⟨by simpa using hne, h.transform steps hmem⟩
  encodings e he := by
    rw [active_asWritten] at he
    obtain ⟨e, hactive, rfl⟩ := List.mem_map.mp he
    have hreadable := h.encodings e hactive
    have hcomplete := complete e hactive
    have hmem := (List.mem_filter.mp hactive).1
    cases e with
    | field f =>
      exact (FieldEncoding.IsReadable.asWritten hreadable hcomplete.closed (plain f hmem)).isTransparent
    | value c v =>
      have hchannel : c.isOpen = false := by simpa [Encoding.isOpen] using hcomplete.closed .channel
      have hvalue := hcomplete.known c v rfl
      cases v with
      | wild w => contradiction
      | fixed x => exact ⟨Slot.isNameless_of_closed hchannel, hreadable x rfl⟩
    | autoCount c b =>
      have hchannel : c.isOpen = false := by simpa [Encoding.isOpen] using hcomplete.closed .channel
      have hcount : b.isOpen = false := by simpa [Encoding.isOpen] using hcomplete.closed .autoCount
      exact ⟨Slot.isNameless_of_closed hchannel, hcount⟩

theorem ChannelsApart.asWritten (h : q.ChannelsApart) : q.asWritten.ChannelsApart := by
  have hchannel : q.asWritten.encodings.filterMap Encoding.channel? =
      q.encodings.filterMap Encoding.channel? := by
    simp only [ChartQuery.asWritten, List.filterMap_map, Function.comp_def, Encoding.channel?,
      Encoding.channel_asWritten]
    rfl
  unfold ChannelsApart
  rwa [hchannel]

theorem StacksField.asWritten (h : q.StacksField) : q.asWritten.StacksField := by
  intro s hs c b hcount
  rw [stack?_asWritten] at hs
  obtain ⟨e, he, heq⟩ : ∃ e, q.encodings[s.fieldIndex]? = some e ∧ e.asWritten = .autoCount c b := by
    simpa [ChartQuery.asWritten] using hcount
  cases e with
  | field | value => contradiction
  | autoCount c' b' => exact h s hs c' b' he

/-- The shorthand of a query that is a chart reads back. What is read is written as it was, apart from
the stack, and where each channel has one encoding at most and what accumulates is a field, it is
written as the query would be without its settings. -/
theorem IsReadable.readsBack (h : q.IsReadable) {defaults : Json.Members}
    (chart : (q.toChart? defaults).isSome = true)
    (plain : ∀ f, .field f ∈ q.encodings → f.IsPlain) :
    ∃ r, ofShorthand q.shorthand = .ok r ∧
      query Include.withoutStack [] r = query Include.withoutStack [] q ∧
      (q.ChannelsApart → q.withoutSettings.StacksField →
        r.shorthand = q.withoutSettings.shorthand) := by
  obtain ⟨hmark, hcomplete⟩ := toChart?_isSome_iff.mp chart
  have htransparent := h.isTransparent hmark hcomplete plain
  have hclosed : ∀ e ∈ q.active, ∀ p, e.isOpen p = false := fun e he => (hcomplete e he).closed
  have hall : q.asWritten.shorthand = q.shorthand := query_asWritten hclosed fun _ _ => rfl
  refine ⟨q.asWritten.told, hall ▸ htransparent.isRecoverable.ofShorthand_eq, ?_, fun apart fields => ?_⟩
  · calc
      query Include.withoutStack [] q.asWritten.told
        = query Include.withoutStack [] q.asWritten :=
          q.asWritten.query_told Include.isFull_withoutStack rfl
      _ = query Include.withoutStack [] q := query_asWritten hclosed Include.isFull_withoutStack
  · calc
      q.asWritten.told.shorthand
        = q.asWritten.withoutSettings.shorthand :=
          apart.asWritten.stacksApart.shorthand_told fields.asWritten.stacksShown
      _ = q.withoutSettings.shorthand :=
          query_asWritten (q := q.withoutSettings) hclosed fun _ _ => rfl

end ChartQuery
end ChartAdvisor
