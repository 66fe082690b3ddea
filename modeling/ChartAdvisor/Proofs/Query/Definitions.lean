import ChartAdvisor.Proofs.Charting
import ChartAdvisor.Proofs.Query.Recoding
import ChartAdvisor.Proofs.Shorthand.Legible

/-!
# Definitions that are read as encodings

A chart has one definition for each channel. It is read as the encoding that it was made of, as far as a
chart keeps that: a scale, an axis or a legend only on channels that have one, a bin only while it is
switched on, a count of rows as a field.
-/
namespace ChartAdvisor

namespace ChartQuery

/-- A part that can be switched on and is `null` is switched off. -/
def asSwitch (key : String) (v : Json) : Json :=
  if v.isNull && ["bin", "scale", "axis", "legend"].contains key then .bool false else v

theorem lookup_encodingMembers {channel : String} {d : Json.Members} (nodup : (d.map Prod.fst).Nodup)
    (key : String) : (encodingMembers channel (.object d)).lookup key =
      (if isEncodingKey key then (d.lookup key).map (asSwitch key) else none).or
        (if key = "channel" then some (.text channel) else none) := by
  have hextend : encodingMembers channel (.object d) = Json.extend [("channel", .text channel)]
      ((d.filter fun m => isEncodingKey m.1).map fun m => (m.1, asSwitch m.1 m.2)) := by
    unfold encodingMembers Json.extend
    rw [List.foldl_map]
    rfl
  have hkeys : (((d.filter fun m => isEncodingKey m.1).map fun m =>
      (m.1, asSwitch m.1 m.2)).map Prod.fst).Nodup := by
    rw [List.map_map]
    exact nodup.sublist (List.filter_sublist.map Prod.fst)
  rw [hextend, Json.lookup_extend hkeys, Json.lookup_filter_map, Table.lookup_cons_eq_ite, List.lookup_nil]

end ChartQuery

namespace Encoding

section Parts

variable {α : Type} [Settings α]

/-- A switched part comes into a definition before other parts, which have other keys. -/
theorem withPart_eq_some {key : String} {t? : Option (Toggle α)} {d d' : Json.Members}
    {parts : List (String × Option Json)} (h : withPart key t? d = some d') (hkey : parts.lookup key = none)
    (hd : (Json.object d).Ordered ∧ ∀ k, d.lookup k = (parts.lookup k).join) :
    (Json.object d').Ordered ∧
      ∀ k, d'.lookup k = (((key, t?.bind definitionOf) :: parts).lookup k).join := by
  obtain ⟨hordered, hlookup⟩ := hd
  simp only [Table.lookup_cons_eq_ite]
  cases t? with
  | none =>
    obtain rfl := Option.some.inj h
    refine ⟨hordered, fun k => ?_⟩
    split
    · next hk => rw [hlookup, hk, hkey]; rfl
    · exact hlookup k
  | some t =>
    obtain ⟨v, hv, rfl⟩ := Option.map_eq_some_iff.mp h
    have hvordered : v.Ordered := by
      cases t with
      | off => exact Option.some.inj hv ▸ .null
      | on x => exact Option.some.inj hv ▸ Json.ordered_sorted _
      | wild w x => contradiction
    refine ⟨.object (hordered.of_object.1.insert key v) fun m hm => ?_, fun k => ?_⟩
    · rcases Table.mem_insert hm with rfl | hm
      · exact hvordered
      · exact hordered.of_object.2 m hm
    · rw [Table.lookup_insert, hlookup, Option.bind_some, hv]
      split <;> rfl

/-- A switched part reads back from its definition, with settings as they are read back. -/
theorem optional_definitionOf {r : Record} {key : String} {position : Nat} {t? : Option (Toggle α)}
    {g : α → α} (hkey : key ∈ ["bin", "scale", "axis", "legend"])
    (hget : r.get? key position = (t?.bind definitionOf).map (ChartQuery.asSwitch key))
    (h : ∀ t ∈ t?, t.isOpen = false ∧
      ∀ x, t = .on x → decode (encode t).sorted = Except.ok (Toggle.on (g x))) :
    r.optional key position = .ok (t?.map (·.mapInner g)) := by
  unfold Record.optional Record.orElse
  rw [hget]
  cases t? with
  | none => rfl
  | some t =>
    obtain ⟨hclosed, hread⟩ := h t rfl
    have hswitch : ChartQuery.asSwitch key .null = .bool false := by
      rw [ChartQuery.asSwitch, List.contains_iff_mem.mpr hkey]
      rfl
    cases t with
    | off =>
      change decode (ChartQuery.asSwitch key .null) = _
      rw [hswitch]
      rfl
    | on x =>
      have hread := hread x rfl
      have hnull : (encode (Toggle.on x)).sorted ≠ .null := by
        intro hnull
        rw [hnull] at hread
        cases Except.ok.inj (show Except.ok Toggle.off = Except.ok (Toggle.on (g x)) from hread)
      have hkept : ChartQuery.asSwitch key (encode (Toggle.on x)).sorted = (encode (Toggle.on x)).sorted := by
        unfold ChartQuery.asSwitch
        cases hv : (encode (Toggle.on x)).sorted with
        | null => exact absurd hv hnull
        | bool | number | text | list | object => rfl
      change decode (ChartQuery.asSwitch key (encode (Toggle.on x)).sorted) = _
      rw [hkept]
      exact decode_some hnull hread
    | wild w x => contradiction

end Parts

/-- The parts of the definition of a field. -/
def definitionParts (c : Channel) (q : FieldEncoding) : List (String × Option Json) := [
  ("legend", (q.legend.filter fun _ => c.supportsLegend).bind definitionOf),
  ("axis", (q.axis.filter fun _ => c.supportsAxis).bind definitionOf),
  ("scale", (q.scale.filter fun _ => c.supportsScale).bind definitionOf),
  ("bin", (q.bin.filter Toggle.isOn).bind definitionOf),
  ("aggregate", q.aggregate?.map encode), ("timeUnit", q.timeUnit?.map encode),
  ("field", q.field.value?.map encode), ("type", q.type.value?.map encode),
  ("sort", q.sort.map fun s => (encode s).sorted)]

/-- The parts of a definition that cannot be switched. -/
def fixedParts (q : FieldEncoding) (name : String) (type : FieldType) : List (String × Option Json) := [
  ("aggregate", q.aggregate?.map encode), ("timeUnit", q.timeUnit?.map encode),
  ("field", some (.text name)), ("type", some (encode type)),
  ("sort", q.sort.map fun s => (encode s).sorted)]

theorem ordered_fixedParts (q : FieldEncoding) (name : String) (type : FieldType) :
    (Json.object (Json.extend [] ((fixedParts q name type).filterMap fun (k, v) => v.map (k, ·)))).Ordered := by
  refine Json.Ordered.extend (.object List.Pairwise.nil (by simp)) fun m hm => ?_
  obtain ⟨n, hn, hnm⟩ := List.mem_filterMap.mp hm
  obtain ⟨v, hv, rfl⟩ := Option.map_eq_some_iff.mp hnm
  simp only [fixedParts, List.mem_cons, List.not_mem_nil, or_false] at hn
  rcases hn with rfl | rfl | rfl | rfl | rfl
  · obtain ⟨op, -, rfl⟩ := Option.map_eq_some_iff.mp hv
    exact .text _
  · obtain ⟨unit, -, rfl⟩ := Option.map_eq_some_iff.mp hv
    exact .text _
  · exact Option.some.inj hv ▸ .text _
  · exact Option.some.inj hv ▸ .text _
  · obtain ⟨s, -, rfl⟩ := Option.map_eq_some_iff.mp hv
    exact Json.ordered_sorted _

theorem definition?_field {c : Channel} {q : FieldEncoding} {d : Json.Members}
    (h : (field q).definition? c = some d) :
    (Json.object d).Ordered ∧ ∀ key, d.lookup key = ((definitionParts c q).lookup key).join := by
  dsimp only [definition?] at h
  split at h
  · contradiction
  · obtain ⟨name, hname, h⟩ := Option.bind_eq_some_iff.mp h
    obtain ⟨type, htype, h⟩ := Option.bind_eq_some_iff.mp h
    obtain ⟨d₁, h₁, h⟩ := Option.bind_eq_some_iff.mp h
    obtain ⟨d₂, h₂, h⟩ := Option.bind_eq_some_iff.mp h
    obtain ⟨d₃, h₃, h₄⟩ := Option.bind_eq_some_iff.mp h
    have hnodup : ((fixedParts q name type).map Prod.fst).Nodup := by
      change ["aggregate", "timeUnit", "field", "type", "sort"].Nodup
      decide
    have hfixed : (Json.object (Json.extend [] ((fixedParts q name type).filterMap fun (k, v) =>
        v.map (k, ·)))).Ordered ∧ ∀ k, (Json.extend [] ((fixedParts q name type).filterMap fun (k, v) =>
        v.map (k, ·))).lookup k = ((fixedParts q name type).lookup k).join :=
      ⟨ordered_fixedParts q name type, fun k => by
        rw [Json.lookup_extend (hnodup.sublist (Json.keys_present _)), Json.lookup_present hnodup,
          List.lookup_nil, Option.or_none]⟩
    have hbin := withPart_eq_some h₁ (show (fixedParts q name type).lookup "bin" = none from rfl) hfixed
    have hscale := withPart_eq_some h₂ (by rfl) hbin
    have haxis := withPart_eq_some h₃ (by rfl) hscale
    have hlegend := withPart_eq_some h₄ (by rfl) haxis
    rw [definitionParts, hname, htype]
    exact hlegend

end Encoding

/-! ## What a chart keeps -/

/-- A field as a chart keeps it. -/
def FieldEncoding.charted (q : FieldEncoding) : FieldEncoding where
  channel := q.channel
  aggregate := q.aggregate
  timeUnit := q.timeUnit
  bin := q.bin.filter Toggle.isOn
  scale := (q.scale.filter fun _ => q.channel.value?.all Channel.supportsScale).map
    (·.mapInner Scale.dropNulls)
  sort := q.sort
  field := q.field
  type := q.type
  axis := q.axis.filter fun _ => q.channel.value?.all Channel.supportsAxis
  legend := q.legend.filter fun _ => q.channel.value?.all Channel.supportsLegend

/-- An encoding as a chart keeps it: the count of rows is a field. -/
def Encoding.charted : Encoding → Encoding
  | field q => field q.charted
  | e => e.reread

/-- Settings that no switch takes for its own. -/
structure Guide.IsChartable (g : Guide) : Prop where
  ordered : (Json.object g.members).Ordered
  keys : ∀ key ∈ Wildcard.keys, g.members.lookup key = none

/-- Nothing in a field is read from a chart as something else. -/
structure FieldEncoding.IsChartable (q : FieldEncoding) : Prop where
  name : q.field ≠ .fixed Wildcard.mark
  bin : ∀ b, q.bin? = some b → ∀ p v, b.get? p = some v → v.Ordered ∧ v ≠ .null
  scale : ∀ s, q.scale? = some s → ∀ p x, s.get p = some (.fixed x) →
    (encode x).Ordered ∧ ¬(encode x).LooksOpen
  axis : ∀ g, q.axis.bind Toggle.inner? = some g →
    q.channel.value?.all Channel.supportsAxis = true → g.IsChartable
  legend : ∀ g, q.legend.bind Toggle.inner? = some g →
    q.channel.value?.all Channel.supportsLegend = true → g.IsChartable

def Encoding.IsChartable : Encoding → Prop
  | field q => q.IsChartable
  | value _ v => ∀ x, v = .fixed x → x.Ordered ∧ ¬x.LooksOpen
  | autoCount .. => True

/-! ## Settings of a definition -/

theorem Guide.IsChartable.readsBack {g : Guide} (h : g.IsChartable) : ReadsBack (Toggle.on g) :=
  Toggle.decode_encode_on h.ordered.sorted_eq rfl h.keys fun hempty =>
    congrArg Guide.mk (List.isEmpty_iff.mp hempty)

theorem Bin.readsBack_on {b : Bin} (closed : ∀ s ∈ b.maxbins, s.isOpen = false)
    (h : ∀ p v, b.get? p = some v → v.Ordered ∧ v ≠ .null) : ReadsBack (Toggle.on b) := by
  have hstable : b.IsStable := by
    refine ⟨fun s hs => ?_, fun p v _ hv => (h p v hv).1⟩
    cases s with
    | wild w => exact absurd (closed _ hs) Bool.noConfusion
    | fixed n => exact Slot.readsBack_fixed (readsBack_plain n) id
  obtain ⟨written, hwritten, hkeys⟩ := hstable.written fun p hp => (h p _ hp).2 rfl
  exact Toggle.readsBack_on hwritten hkeys

namespace Scale

/-- A scale is read without its nulls. -/
theorem decode_encode_on {s : Scale} (closed : ∀ p, s.isOpen p = false)
    (h : ∀ p x, s.get p = some (.fixed x) → (encode x).Ordered ∧ ¬(encode x).LooksOpen) :
    decode (encode (Toggle.on s)).sorted = Except.ok (Toggle.on s.dropNulls) := by
  obtain ⟨written, heq, hlookup, hother⟩ := sorted_named recordOrder (by decide)
    (fun p => by cases p <;> decide) fun p => (s.get p).map encode
  rw [← members_eq] at heq
  have hpart (p : ScaleProperty) (v : Slot p.Value) (hv : s.get p = some v) :
      (encode v).sorted = encode v ∧ ReadsBack v := by
    cases v with
    | wild w => exact absurd (closed p) (by simp [isOpen, hv, Slot.isOpen])
    | fixed x =>
      obtain ⟨hordered, hopen⟩ := h p x hv
      have hsorted : (encode x).sorted = encode x := hordered.sorted_eq
      exact ⟨hsorted, Slot.readsBack_fixed (StableCoded.readsBack hordered (decode_encode x)) (hsorted.symm ▸ hopen)⟩
  have hread (p : ScaleProperty) (position : Nat) :
      (Record.named written).optionalByName (Vocabulary.name p) position = .ok (s.dropNulls.get p) := by
    have hget : (Record.named written).get? (Vocabulary.name p) position =
        (s.get p).map fun v => (encode v).sorted := (hlookup p).trans (Option.map_map ..)
    unfold Record.optionalByName Record.optional Record.orElse
    rw [hget, get_dropNulls_eq]
    cases hv : s.get p with
    | none => rfl
    | some v =>
      obtain ⟨hsorted, hread⟩ := hpart p v hv
      rw [ReadsBack, hsorted] at hread
      rw [Option.map_some, Option.filter_some, hsorted]
      cases hx : encode v with
      | null => rfl
      | bool | number | text | list | object => exact decode_some Json.noConfusion (hx ▸ hread)
  refine Toggle.decode_encode_on heq ?_ (fun key hkey => hother key (name_notMem_keys key hkey)) ?_
  · have hparts := decode_parts hread recordOrder 0 {}
    rwa [foldl_put_get] at hparts
  · intro hempty
    refine eq_empty fun p => ?_
    have hhas : s.has p = false := by
      simpa using List.all_eq_true.mp hempty p (by cases p <;> decide)
    rw [get_dropNulls_eq]
    cases hv : s.get p with
    | none => rfl
    | some v =>
      have hnull : (encode v).isNull = true := by
        rw [has, json?, hv, Option.map_some, Option.filter_some, (hpart p v hv).1] at hhas
        cases hx : (encode v).isNull with
        | true => rfl
        | false => rw [hx] at hhas; contradiction
      rw [Option.filter_some, hnull]
      rfl

end Scale

/-! ## Encodings of a chart -/

theorem ChartQuery.asSwitch_of_not_mem {key : String} (hkey : key ∉ ["bin", "scale", "axis", "legend"])
    (v : Json) : asSwitch key v = v := by
  rw [asSwitch, Bool.eq_false_iff.mpr fun h => hkey (List.contains_iff_mem.mp h), Bool.and_false]
  rfl

theorem Slot.eq_fixed_of_closed {α : Type} {s : Slot α} (h : s.isOpen = false) : ∃ a, s = .fixed a := by
  cases s with
  | fixed a => exact ⟨a, rfl⟩
  | wild w => contradiction

namespace FieldEncoding

/-- The members hold the definition of a field on a channel, and nothing else that is read. -/
structure DefinedBy (q : FieldEncoding) (c : Channel) (members : Json.Members) : Prop where
  channel : members.lookup "channel" = some (.text (Vocabulary.name c))
  part : ∀ key, ChartQuery.isEncodingKey key = true → key ≠ "channel" →
    members.lookup key =
      ((Encoding.definitionParts c q).lookup key).join.map (ChartQuery.asSwitch key)
  other : ∀ key, ChartQuery.isEncodingKey key = false → key ≠ "channel" → members.lookup key = none

variable {q : FieldEncoding} {c : Channel} {members : Json.Members}

theorem definedBy_of_definition? {d : Json.Members} (hd : (Encoding.field q).definition? c = some d) :
    q.DefinedBy c (ChartQuery.encodingMembers (Vocabulary.name c) (.object d)) := by
  obtain ⟨hordered, hlookup⟩ := Encoding.definition?_field hd
  have hmembers (key : String) : (ChartQuery.encodingMembers (Vocabulary.name c) (.object d)).lookup key = _ :=
    ChartQuery.lookup_encodingMembers hordered.of_object.1.nodup key
  refine ⟨?_, fun key hkey hne => ?_, fun key hkey hne => ?_⟩
  · rw [hmembers, hlookup, if_pos rfl]
    rfl
  · rw [hmembers, if_pos hkey, if_neg hne, Option.or_none, hlookup]
  · rw [hmembers, if_neg (hkey ▸ Bool.false_ne_true), if_neg hne]
    rfl

namespace DefinedBy

variable (h : q.DefinedBy c members)
include h

/-- A part that cannot be switched is there as it was. -/
theorem fixedPart {key : String}
    (hkey : key ∈ ["aggregate", "timeUnit", "sort", "field", "type", "autoCount", "value"]) :
    members.lookup key = ((Encoding.definitionParts c q).lookup key).join := by
  have hkeys : ∀ key ∈ ["aggregate", "timeUnit", "sort", "field", "type", "autoCount", "value"],
      ChartQuery.isEncodingKey key = true ∧ key ≠ "channel" ∧
        key ∉ ["bin", "scale", "axis", "legend"] := by decide +kernel
  obtain ⟨hread, hne, hswitch⟩ := hkeys key hkey
  rw [h.part key hread hne, funext (ChartQuery.asSwitch_of_not_mem hswitch), Option.map_id']

theorem readChannel : (Record.named members).present "channel" 0 = .ok (some (Slot.fixed c)) :=
  Record.present_readsBack h.channel (Slot.readsBack_fixed (readsBack_plain c)
    (PlainCoded.not_looksOpen_encode c))

theorem readFunction {α : Type} [Vocabulary α] [PlainCoded α] (key : String) (position : Nat)
    (hkey : key ∈ ["aggregate", "timeUnit", "sort", "field", "type", "autoCount", "value"])
    {s : Slot (Option α)} (closed : s.isOpen = false)
    (hkept : (Encoding.definitionParts c q).lookup key = some (s.value?.join.map encode)) :
    (Record.named members).orElse key position (.fixed none) = .ok s := by
  obtain ⟨a, rfl⟩ := Slot.eq_fixed_of_closed closed
  have hpart : (Record.named members).get? key position = a.map encode :=
    (h.fixedPart hkey).trans (congrArg Option.join hkept)
  have hget : (Record.named members).get? key position =
      (encodeFunction (Slot.fixed a)).map Json.sorted := by
    rw [hpart]
    cases a with
    | none => rfl
    | some a => exact congrArg some (PlainCoded.sorted_encode a).symm
  exact orElse_function hget (Slot.readsBack_fixed (readsBack_option a) (not_looksOpen_option a))

theorem readHasFunction : (Record.named members).orElse "hasFn" 3 false = .ok false := by
  have hnone : (Record.named members).get? "hasFn" 3 = none := h.other "hasFn" (by decide +kernel) (by decide)
  rw [Record.orElse, hnone]

theorem readSort (closed : q.sort.any Slot.isOpen = false) :
    (Record.named members).optional "sort" 6 = .ok q.sort := by
  refine Record.optional_readsBack (h.fixedPart (by decide)) fun s hs => ?_
  rw [Option.mem_def.mp hs] at closed
  obtain ⟨x, rfl⟩ := Slot.eq_fixed_of_closed closed
  have hx : (encode (Slot.fixed x)).sorted = encode x := PlainCoded.sorted_encode x
  refine ⟨Slot.readsBack_fixed (readsBack_plain x) ?_,
    fun hnull => PlainCoded.encode_ne_null x (hx.symm.trans hnull)⟩
  rw [PlainCoded.sorted_encode]
  exact PlainCoded.not_looksOpen_encode x

theorem readField (name : q.field ≠ .fixed Wildcard.mark) (closed : q.field.isOpen = false) :
    (Record.named members).present "field" 7 = .ok (some q.field) := by
  obtain ⟨n, hn⟩ := Slot.eq_fixed_of_closed closed
  rw [hn]
  refine Record.present_readsBack ((h.fixedPart (by decide)).trans ?_)
    (Slot.readsBack_fixed (String.readsBack n) fun hopen => name ?_)
  · change q.field.value?.map encode = _
    rw [hn]
    rfl
  · rw [hn, show n = Wildcard.mark from hopen]

theorem readType (closed : q.type.isOpen = false) :
    (Record.named members).orElse "type" 8 (.wild .short) = .ok q.type := by
  obtain ⟨type, htype⟩ := Slot.eq_fixed_of_closed closed
  rw [htype]
  refine Record.orElse_readsBack ((h.fixedPart (by decide)).trans ?_)
    (Slot.readsBack_fixed (readsBack_plain type) (PlainCoded.not_looksOpen_encode type))
  change q.type.value?.map encode = _
  rw [htype]
  rfl

/-- A part that can be switched is read where its settings are. -/
theorem readSwitch {α : Type} [Settings α] (key : String) (position : Nat)
    (hkey : key ∈ ["bin", "scale", "axis", "legend"]) {t? : Option (Toggle α)} {keep : Toggle α → Bool}
    {g : α → α} (closed : t?.any Toggle.isOpen = false)
    (hkept : (Encoding.definitionParts c q).lookup key = some ((t?.filter keep).bind Encoding.definitionOf))
    (hread : ∀ x, t? = some (.on x) → keep (.on x) = true →
      decode (encode (Toggle.on x)).sorted = Except.ok (Toggle.on (g x))) :
    (Record.named members).optional key position = .ok ((t?.filter keep).map (·.mapInner g)) := by
  have hkeys : ∀ key ∈ ["bin", "scale", "axis", "legend"],
      ChartQuery.isEncodingKey key = true ∧ key ≠ "channel" := by decide +kernel
  refine Encoding.optional_definitionOf hkey ?_ fun t ht => ⟨?_, ?_⟩
  · exact (h.part key (hkeys key hkey).1 (hkeys key hkey).2).trans (by rw [hkept]; rfl)
  · have hany := Encoding.any_isOpen_filter closed keep
    rwa [Option.mem_def.mp ht] at hany
  · rintro x rfl
    obtain ⟨ht, hkeep⟩ := Option.filter_eq_some_iff.mp ht
    exact hread x ht hkeep

end DefinedBy

/-- The definition of a field is read as the field, as far as a chart keeps it. -/
theorem IsChartable.decode_definition (h : q.IsChartable) (hc : q.channel = .fixed c)
    (closed : ∀ p, q.isOpen p = false) {d : Json.Members}
    (hd : (Encoding.field q).definition? c = some d) :
    decode (.object (ChartQuery.encodingMembers (Vocabulary.name c) (.object d))) =
      Except.ok (Encoding.field q.charted) := by
  have hdefined := definedBy_of_definition? hd
  generalize ChartQuery.encodingMembers (Vocabulary.name c) (.object d) = members at hdefined
  have hchannel : (Record.named members).present "channel" 0 = .ok (some q.channel) :=
    hc ▸ hdefined.readChannel
  have haggregate := hdefined.readFunction "aggregate" 1 (by decide) (closed .aggregate) rfl
  have htimeUnit := hdefined.readFunction "timeUnit" 2 (by decide) (closed .timeUnit) rfl
  have hsupports (supports : Channel → Bool) : q.channel.value?.all supports = supports c := by
    rw [hc]
    rfl
  have hbin : (Record.named members).optional "bin" 4 = .ok q.charted.bin := by
    have hread := hdefined.readSwitch "bin" 4 (by decide) (g := id) (closed .bin) rfl fun b hb _ => ?_
    · simp only [Toggle.mapInner_id, Option.map_id'] at hread
      exact hread
    · have hb : q.bin? = some b := by rw [bin?, hb]; rfl
      refine Bin.readsBack_on (fun s hs => ?_) (h.bin b hb)
      have hmaxbins := closed .maxBins
      simpa [isOpen, hb, Option.mem_def.mp hs] using hmaxbins
  have hscale : (Record.named members).optional "scale" 5 = .ok q.charted.scale := by
    rw [charted, hsupports Channel.supportsScale]
    refine hdefined.readSwitch "scale" 5 (by decide) (closed .scale) rfl fun s hs _ => ?_
    have hs : q.scale? = some s := by rw [scale?, hs]; rfl
    exact Scale.decode_encode_on (fun p => by simpa [isOpen, hs] using closed (.scaleOf p)) (h.scale s hs)
  have haxis : (Record.named members).optional "axis" 9 = .ok q.charted.axis := by
    have hread := hdefined.readSwitch "axis" 9 (by decide) (g := id) (closed .axis) rfl fun g hg hkeep =>
      (h.axis g (by rw [hg]; rfl) ((hsupports _).trans hkeep)).readsBack
    simp only [Toggle.mapInner_id, Option.map_id'] at hread
    rw [charted, hsupports Channel.supportsAxis]
    exact hread
  have hlegend : (Record.named members).optional "legend" 10 = .ok q.charted.legend := by
    have hread := hdefined.readSwitch "legend" 10 (by decide) (g := id) (closed .legend) rfl fun g hg hkeep =>
      (h.legend g (by rw [hg]; rfl) ((hsupports _).trans hkeep)).readsBack
    simp only [Toggle.mapInner_id, Option.map_id'] at hread
    rw [charted, hsupports Channel.supportsLegend]
    exact hread
  have hread := ofRecord_eq (q := q.charted) hchannel haggregate htimeUnit hdefined.readHasFunction hbin
    hscale (hdefined.readSort (closed .sort)) (hdefined.readField h.name (closed .field))
    (hdefined.readType (closed .type)) haxis hlegend
  have hcount : (Json.lookup members "autoCount").isSome = false := by
    rw [Json.lookup, hdefined.fixedPart (by decide)]
    rfl
  have hvalue : (Json.lookup members "value").isSome = false := by
    rw [Json.lookup, hdefined.fixedPart (by decide)]
    rfl
  simp only [decode, hcount, hvalue, hread]
  rfl

end FieldEncoding

/-- The definition of an encoding is read as the encoding, as far as a chart keeps it. -/
theorem Encoding.IsChartable.decode_definition {e : Encoding} (h : e.IsChartable) {c : Channel}
    (hc : e.channel? = some c) {d : Json.Members} (hd : e.definition? c = some d) :
    (Json.object d).Ordered ∧
      decode (.object (ChartQuery.encodingMembers (Vocabulary.name c) (.object d))) = Except.ok e.charted := by
  have hchannel : e.channel = .fixed c := by
    cases hs : e.channel with
    | fixed c' => rw [channel?, hs] at hc; rw [Option.some.inj hc]
    | wild w => rw [channel?, hs] at hc; contradiction
  cases e with
  | field q =>
    have hclosed := (definition?_field_isSome_iff c q).mp (Option.isSome_of_eq_some hd)
    exact ⟨(definition?_field hd).1, FieldEncoding.IsChartable.decode_definition h hchannel hclosed hd⟩
  | value s v =>
    obtain ⟨x, hx, rfl⟩ := Option.map_eq_some_iff.mp hd
    obtain rfl : s = .fixed c := hchannel
    cases v with
    | wild w => contradiction
    | fixed y =>
      obtain rfl : y = x := Option.some.inj hx
      obtain ⟨hordered, hopen⟩ := h y rfl
      have hsorted : (encode (Slot.fixed y)).sorted = y := hordered.sorted_eq
      refine ⟨.object (List.pairwise_singleton _ _) (by simpa using hordered), ?_⟩
      let ms := ChartQuery.encodingMembers (Vocabulary.name c) (.object [("value", y)])
      have hmember (key : String) : ms.lookup key = _ :=
        ChartQuery.lookup_encodingMembers (d := [("value", y)]) (List.pairwise_singleton _ _) key
      have hcount : (Json.lookup ms "autoCount").isSome = false := by
        rw [Json.lookup, hmember]
        rfl
      have hvalue : ms.lookup "value" = some y := by
        rw [hmember, if_pos (by decide +kernel), funext (ChartQuery.asSwitch_of_not_mem (by decide))]
        rfl
      have hread : (Record.named ms).required "value" 1 = .ok (Slot.fixed y) := by
        refine Record.required_readsBack (hvalue.trans (congrArg some hsorted.symm)) ?_
        exact Slot.readsBack_fixed (congrArg Except.ok hsorted) (hsorted.symm ▸ hopen)
      have hchannel : (Record.named ms).required "channel" 0 = .ok (Slot.fixed c) :=
        Record.required_readsBack ((hmember "channel").trans rfl)
          (Slot.readsBack_fixed (readsBack_plain c) (PlainCoded.not_looksOpen_encode c))
      have hsome : (Json.lookup ms "value").isSome = true := by
        rw [Json.lookup, hvalue]
        rfl
      change decode (.object ms) = _
      simp only [decode, hcount, hsome, hchannel, hread]
      rfl
  | autoCount s b =>
    obtain rfl : s = .fixed c := hchannel
    dsimp only [definition?] at hd
    split at hd
    · contradiction
    · obtain rfl := Option.some.inj hd
      have hascending : Table.Ascending [("aggregate", Json.text "count"), ("field", .text "*"),
          ("type", encode FieldType.quantitative)] := by
        rw [Table.Ascending, ← List.pairwise_map (f := Prod.fst) (R := (· < ·))]
        decide
      refine ⟨.object hascending fun m hm => ?_, by cases c <;> rfl⟩
      simp only [List.mem_cons, List.not_mem_nil, or_false] at hm
      rcases hm with rfl | rfl | rfl <;> exact .text _

end ChartAdvisor
