import ChartAdvisor.Proofs.Encoding.Recoding
import ChartAdvisor.Query.Basic

/-!
# Queries that read back from their JSON form

A stable query has only parts that read back, but for what the JSON form cannot keep. Queries that were
read from JSON are stable.
-/
namespace ChartAdvisor

/-! ## Fields -/

namespace FieldEncoding

/-- Each part reads back; one that can be switched on does if its switch and its settings are kept. -/
structure IsStable (q : FieldEncoding) : Prop where
  channel : ReadsBack q.channel
  aggregate : ReadsBack q.aggregate
  timeUnit : ReadsBack q.timeUnit
  bin : ∀ t ∈ q.bin, t.losesSwitch = false → (∀ b, t.inner? = some b → b.NullFree) → ReadsBack t
  scale : ∀ t ∈ q.scale, t.losesSwitch = false → ReadsBack t
  sort : ∀ s ∈ q.sort, ReadsBack s ∧ (encode s).sorted ≠ .null
  field : ReadsBack q.field
  type : ReadsBack q.type
  axis : ∀ t ∈ q.axis, t.losesSwitch = false → ReadsBack t
  legend : ∀ t ∈ q.legend, t.losesSwitch = false → ReadsBack t

/-- No switch is lost, and no parameter of the bin is `null`. -/
structure KeepsInJson (q : FieldEncoding) : Prop where
  bin : ∀ t ∈ q.bin, t.losesSwitch = false ∧ ∀ b, t.inner? = some b → b.NullFree
  scale : ∀ t ∈ q.scale, t.losesSwitch = false
  axis : ∀ t ∈ q.axis, t.losesSwitch = false
  legend : ∀ t ∈ q.legend, t.losesSwitch = false

variable {q : FieldEncoding}

theorem orElse_function {α : Type} [Vocabulary α] {r : Record} {name : String} {position : Nat}
    {s : Slot (Option α)} (hget : r.get? name position = (encodeFunction s).map Json.sorted)
    (h : ReadsBack s) : r.orElse name position (.fixed none) = .ok s := by
  unfold encodeFunction at hget
  split at hget
  · unfold Record.orElse
    rw [hget]
    rfl
  · exact Record.orElse_readsBack hget h

/-- A field is made of its parts, each of which is read for itself. -/
theorem ofRecord_eq {r : Record} (channel : r.present "channel" 0 = .ok (some q.channel))
    (aggregate : r.orElse "aggregate" 1 (.fixed none) = .ok q.aggregate)
    (timeUnit : r.orElse "timeUnit" 2 (.fixed none) = .ok q.timeUnit)
    (function : r.orElse "hasFn" 3 false = .ok q.hasFunction) (bin : r.optional "bin" 4 = .ok q.bin)
    (scale : r.optional "scale" 5 = .ok q.scale) (sort : r.optional "sort" 6 = .ok q.sort)
    (field : r.present "field" 7 = .ok (some q.field))
    (type : r.orElse "type" 8 (.wild .short) = .ok q.type) (axis : r.optional "axis" 9 = .ok q.axis)
    (legend : r.optional "legend" 10 = .ok q.legend) : ofRecord r = .ok q := by
  unfold ofRecord
  simp only [channel, aggregate, timeUnit, function, bin, scale, sort, field, type, axis, legend]
  rfl

theorem IsStable.readsBack (h : q.IsStable) (hkeeps : q.KeepsInJson) : ReadsBack (Encoding.field q) := by
  obtain ⟨members, heq, hlookup⟩ := Json.sorted_ofPresent [
    ("channel", some (encode q.channel)),
    ("aggregate", encodeFunction q.aggregate),
    ("timeUnit", encodeFunction q.timeUnit),
    ("hasFn", if q.hasFunction then some (.bool true) else none),
    ("bin", q.bin.map encode),
    ("scale", q.scale.map encode),
    ("sort", q.sort.map encode),
    ("field", some (encode q.field)),
    ("type", some (encode q.type)),
    ("axis", q.axis.map encode),
    ("legend", q.legend.map encode)] (by
      change ["channel", "aggregate", "timeUnit", "hasFn", "bin", "scale", "sort", "field", "type",
        "axis", "legend"].Nodup
      decide)
  have htoggle {α : Type} [Settings α] {t? : Option (Toggle α)} (name : String) (position : Nat)
      (hget : members.lookup name = (t?.map encode).map Json.sorted) (hread : ∀ t ∈ t?, ReadsBack t) :
      (Record.named members).optional name position = .ok t? :=
    Record.optional_readsBack (hget.trans (Option.map_map ..)) fun t ht =>
      ⟨hread t ht, Toggle.ne_null_of_readsBack (hread t ht)⟩
  have hchannel : (Record.named members).present "channel" 0 = .ok (some q.channel) :=
    Record.present_readsBack (hlookup "channel") h.channel
  have haggregate : (Record.named members).orElse "aggregate" 1 _ = .ok q.aggregate :=
    orElse_function (hlookup "aggregate") h.aggregate
  have htimeUnit : (Record.named members).orElse "timeUnit" 2 _ = .ok q.timeUnit :=
    orElse_function (hlookup "timeUnit") h.timeUnit
  have hfunction : (Record.named members).orElse "hasFn" 3 false = .ok q.hasFunction := by
    have hget : (Record.named members).get? "hasFn" 3 = _ := hlookup "hasFn"
    unfold Record.orElse
    rw [hget]
    cases q.hasFunction <;> rfl
  have hbin := htoggle "bin" 4 (hlookup "bin") fun t ht => h.bin t ht (hkeeps.bin t ht).1 (hkeeps.bin t ht).2
  have hscale := htoggle "scale" 5 (hlookup "scale") fun t ht => h.scale t ht (hkeeps.scale t ht)
  have hsort : (Record.named members).optional "sort" 6 = .ok q.sort :=
    Record.optional_readsBack ((hlookup "sort").trans (Option.map_map ..)) h.sort
  have hfield : (Record.named members).present "field" 7 = .ok (some q.field) :=
    Record.present_readsBack (hlookup "field") h.field
  have htype : (Record.named members).orElse "type" 8 (.wild .short) = .ok q.type :=
    Record.orElse_readsBack (hlookup "type") h.type
  have haxis := htoggle "axis" 9 (hlookup "axis") fun t ht => h.axis t ht (hkeeps.axis t ht)
  have hlegend := htoggle "legend" 10 (hlookup "legend") fun t ht => h.legend t ht (hkeeps.legend t ht)
  have hread := ofRecord_eq hchannel haggregate htimeUnit hfunction hbin hscale hsort hfield htype haxis hlegend
  have hcount : (Json.lookup members "autoCount").isSome = false := by
    rw [Json.lookup, hlookup]
    rfl
  have hvalue : (Json.lookup members "value").isSome = false := by
    rw [Json.lookup, hlookup]
    rfl
  change decode (Json.ofPresent _).sorted = Except.ok (Encoding.field q)
  rw [heq]
  simp only [decode, hcount, hvalue, hread]
  rfl

theorem isStable_of_ofRecord {members : Json.Members} (hordered : (Json.object members).Ordered)
    (h : ofRecord (.named members) = .ok q) : q.IsStable := by
  have hslot {α : Type} [Coded α] [StableCoded α] {name : String} {position : Nat} {s absent : Slot α}
      (hs : (Record.named members).orElse name position absent = .ok s) (habsent : ReadsBack absent) :
      ReadsBack s := by
    obtain rfl | ⟨x, hx, hxs⟩ := Record.of_orElse hs
    · exact habsent
    · exact StableCoded.readsBack (hordered.of_lookup hx) hxs
  have htoggle {α : Type} [Settings α] [StableSettings α] {name : String} {position : Nat}
      {t? : Option (Toggle α)} (ht? : (Record.named members).optional name position = .ok t?)
      (t : Toggle α) (ht : t ∈ t?) (hkeeps : t.losesSwitch = false) : ReadsBack t := by
    obtain rfl : t? = some t := ht
    obtain ⟨x, hx, -, hxt⟩ := Record.of_optional ht?
    exact Toggle.readsBack_of_decode (hordered.of_lookup hx) hxt hkeeps
  obtain ⟨aggregate, haggregate, h⟩ := bind_eq_ok.mp h
  obtain ⟨axis, haxis, h⟩ := bind_eq_ok.mp h
  obtain ⟨bin, hbin, h⟩ := bind_eq_ok.mp h
  obtain ⟨channel?, hchannel, h⟩ := bind_eq_ok.mp h
  obtain ⟨field?, hfield, h⟩ := bind_eq_ok.mp h
  obtain ⟨hasFunction, -, h⟩ := bind_eq_ok.mp h
  obtain ⟨legend, hlegend, h⟩ := bind_eq_ok.mp h
  obtain ⟨scale, hscale, h⟩ := bind_eq_ok.mp h
  obtain ⟨sort, hsort, h⟩ := bind_eq_ok.mp h
  obtain ⟨timeUnit, htimeUnit, h⟩ := bind_eq_ok.mp h
  obtain ⟨type, htype, h⟩ := bind_eq_ok.mp h
  obtain ⟨channel, hchannel?, h⟩ := bind_eq_ok.mp h
  obtain ⟨field, hfield?, h⟩ := bind_eq_ok.mp h
  obtain rfl := Except.ok.inj h
  have hpresent {α : Type} [Coded α] [StableCoded α] {name : String} {position : Nat}
      {s? : Option (Slot α)} {s : Slot α} (hs? : (Record.named members).present name position = .ok s?)
      (hs : JsonError.ofOption s? = .ok s) : ReadsBack s := by
    cases s? with
    | none => contradiction
    | some t =>
      obtain rfl := Except.ok.inj hs
      obtain ⟨x, hx, hxs⟩ := Record.of_present hs?
      exact StableCoded.readsBack (hordered.of_lookup hx) hxs
  exact {
    channel := hpresent hchannel hchannel?
    aggregate := hslot haggregate rfl
    timeUnit := hslot htimeUnit rfl
    bin := fun t ht hkeeps _ => htoggle hbin t ht hkeeps
    scale := htoggle hscale
    sort := fun s hs => by
      obtain rfl : sort = some s := hs
      obtain ⟨x, hx, hnull, hxs⟩ := Record.of_optional hsort
      have hx := hordered.of_lookup hx
      exact ⟨StableCoded.readsBack hx hxs, StableCoded.ne_null hx hxs hnull⟩
    field := hpresent hfield hfield?
    type := hslot htype rfl
    axis := htoggle haxis
    legend := htoggle hlegend }

end FieldEncoding

/-! ## Encodings -/

namespace Encoding

def IsStable : Encoding → Prop
  | field q => q.IsStable
  | value c v => ReadsBack c ∧ ReadsBack v
  | autoCount c b => ReadsBack c ∧ ReadsBack b

def KeepsInJson : Encoding → Prop
  | field q => q.KeepsInJson
  | value .. | autoCount .. => True

theorem IsStable.readsBack {e : Encoding} (h : e.IsStable) (hkeeps : e.KeepsInJson) : ReadsBack e := by
  cases e with
  | field q => exact FieldEncoding.IsStable.readsBack h hkeeps
  | value c v =>
    obtain ⟨hc, hv⟩ := h
    change (do
      let c ← decode (encode c).sorted
      let v ← decode (encode v).sorted
      return value c v) = Except.ok (value c v)
    rw [show decode (encode c).sorted = Except.ok c from hc,
      show decode (encode v).sorted = Except.ok v from hv]
    rfl
  | autoCount c b =>
    obtain ⟨hc, hb⟩ := h
    change (do
      let c ← decode (encode c).sorted
      let b ← decode (encode b).sorted
      return autoCount c b) = Except.ok (autoCount c b)
    rw [show decode (encode c).sorted = Except.ok c from hc,
      show decode (encode b).sorted = Except.ok b from hb]
    rfl

theorem isStable_of_decode {v : Json} {e : Encoding} (hv : v.Ordered) (h : decode v = .ok e) :
    e.IsStable := by
  cases v with
  | object members =>
    have hslot {α : Type} [Coded α] [StableCoded α] {name : String} {position : Nat} {s : Slot α}
        (hs : (Record.named members).required name position = .ok s) : ReadsBack s := by
      obtain ⟨x, hx, hxs⟩ := Record.of_required hs
      exact StableCoded.readsBack (hv.of_lookup hx) hxs
    simp only [decode] at h
    split at h
    · obtain ⟨c, hc, h⟩ := bind_eq_ok.mp h
      obtain ⟨b, hb, h⟩ := bind_eq_ok.mp h
      obtain rfl := Except.ok.inj h
      exact ⟨hslot hc, hslot hb⟩
    · split at h
      · obtain ⟨c, hc, h⟩ := bind_eq_ok.mp h
        obtain ⟨x, hx, h⟩ := bind_eq_ok.mp h
        obtain rfl := Except.ok.inj h
        exact ⟨hslot hc, hslot hx⟩
      · obtain ⟨q, hq, h⟩ := bind_eq_ok.mp h
        obtain rfl := Except.ok.inj h
        exact FieldEncoding.isStable_of_ofRecord hv hq
  | null | bool | number | text | list => cases h

end Encoding

/-! ## Queries -/

namespace ChartQuery

structure IsStable (q : ChartQuery) : Prop where
  data : ∀ v ∈ q.data, v.Ordered ∧ v ≠ .null
  mark : ReadsBack q.mark
  transform : ∀ steps ∈ q.transform, ∀ v ∈ steps, v.Ordered
  encodings : ∀ e ∈ q.encodings, e.IsStable
  config : ∀ members ∈ q.config, (Json.object members).Ordered

variable {q : ChartQuery}

theorem IsStable.readsBack (h : q.IsStable) (hkeeps : ∀ e ∈ q.encodings, e.KeepsInJson) : ReadsBack q := by
  obtain ⟨members, heq, hlookup⟩ := Json.sorted_ofPresent [
    ("data", q.data), ("mark", some (encode q.mark)), ("transform", q.transform.map Json.list),
    ("encodings", some (encode q.encodings)), ("config", q.config.map Json.object)] (by
      change ["data", "mark", "transform", "encodings", "config"].Nodup
      decide)
  have hdata : (Record.named members).optional "data" 0 = .ok q.data := by
    refine Record.optional_readsBack (hlookup "data") fun v hv => ?_
    obtain ⟨hordered, hnull⟩ := h.data v hv
    have hsorted : (encode v).sorted = v := hordered.sorted_eq
    exact ⟨congrArg Except.ok hsorted, hsorted.symm ▸ hnull⟩
  have hmark : (Record.named members).required "mark" 1 = .ok q.mark :=
    Record.required_readsBack (hlookup "mark") h.mark
  have htransform : (Record.named members).optional "transform" 2 = .ok q.transform := by
    refine Record.optional_readsBack ?_ fun steps hsteps => ⟨?_, Json.noConfusion⟩
    · refine (hlookup "transform").trans ((Option.map_map ..).trans ?_)
      refine Option.map_congr fun steps _ => ?_
      change (Json.list steps).sorted = (Json.list (steps.map id)).sorted
      rw [List.map_id]
    · refine readsBack_list fun v hv => ?_
      exact congrArg Except.ok (h.transform steps hsteps v hv).sorted_eq
  have hencodings : (Record.named members).orElse "encodings" 3 [] = .ok q.encodings :=
    Record.orElse_readsBack (hlookup "encodings")
      (readsBack_list fun e he => (h.encodings e he).readsBack (hkeeps e he))
  have hconfig : (Record.named members).optional "config" 4 = .ok q.config := by
    refine Record.optional_readsBack ((hlookup "config").trans (Option.map_map ..)) fun ms hms => ?_
    have hsorted : (encode ms).sorted = .object ms := (h.config ms hms).sorted_eq
    exact ⟨by rw [ReadsBack, hsorted]; rfl, hsorted.symm ▸ Json.noConfusion⟩
  change decode (Json.ofPresent _).sorted = Except.ok q
  rw [heq]
  simp only [decode, Record.ofJson, bind, Except.bind, hconfig, hdata, hencodings, hmark, htransform]
  rfl

theorem isStable_of_decode {v : Json} (hv : v.Ordered) (h : decode v = .ok q) : q.IsStable := by
  obtain ⟨r, hr, h⟩ := bind_eq_ok.mp h
  have hordered {name : String} {position : Nat} {x : Json} (hx : r.get? name position = some x) :
      x.Ordered := by
    cases v with
    | object members =>
      obtain rfl := Except.ok.inj hr
      exact hv.of_lookup hx
    | list items =>
      rw [Record.ofJson] at hr
      split at hr
      · obtain rfl := Except.ok.inj hr
        exact hv.of_list x (List.mem_of_getElem? hx)
      · cases hr
    | null | bool | number | text => cases hr
  obtain ⟨config, hconfig, h⟩ := bind_eq_ok.mp h
  obtain ⟨data, hdata, h⟩ := bind_eq_ok.mp h
  obtain ⟨encodings, hencodings, h⟩ := bind_eq_ok.mp h
  obtain ⟨mark, hmark, h⟩ := bind_eq_ok.mp h
  obtain ⟨transform, htransform, h⟩ := bind_eq_ok.mp h
  obtain rfl := Except.ok.inj h
  refine ⟨fun x hx => ?_, ?_, fun steps hsteps x hx => ?_, fun e he => ?_, fun members hmembers => ?_⟩
  · obtain rfl : data = some x := hx
    obtain ⟨y, hy, hnull, hyx⟩ := Record.of_optional hdata
    obtain rfl := Except.ok.inj hyx
    exact ⟨hordered hy, hnull⟩
  · obtain ⟨x, hx, hxm⟩ := Record.of_required hmark
    exact StableCoded.readsBack (hordered hx) hxm
  · obtain rfl : transform = some steps := hsteps
    obtain ⟨y, hy, -, hys⟩ := Record.of_optional htransform
    obtain ⟨z, hz, hzx⟩ := of_decode_list (hordered hy) hys hx
    obtain rfl := Except.ok.inj hzx
    exact hz
  · obtain rfl | ⟨x, hx, hxs⟩ := Record.of_orElse hencodings
    · contradiction
    · obtain ⟨y, hy, hye⟩ := of_decode_list (hordered hx) hxs he
      exact Encoding.isStable_of_decode hy hye
  · obtain rfl : config = some members := hmembers
    obtain ⟨x, hx, -, hxm⟩ := Record.of_optional hconfig
    cases x with
    | object ms =>
      obtain rfl := Except.ok.inj hxm
      exact hordered hx
    | null | bool | number | text | list => cases hxm

end ChartQuery
end ChartAdvisor
