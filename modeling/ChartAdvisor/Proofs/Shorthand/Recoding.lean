import ChartAdvisor.Proofs.Query.Recoding
import ChartAdvisor.Shorthand.Parser

/-!
# Queries that are read and written as JSON

A query that was read, from a shorthand or from JSON, is what is read from its own JSON form, unless its
JSON form loses a switch or holds a parameter that is `null`.
-/
namespace ChartAdvisor

theorem Toggle.readsBack_bin {t : Toggle Bin} (h : ∀ b, t.inner? = some b → b.IsStable)
    (hkeeps : t.losesSwitch = false) (hnull : ∀ b, t.inner? = some b → b.NullFree) : ReadsBack t := by
  cases t with
  | off => exact readsBack_off
  | on b =>
    obtain ⟨written, hwritten, hkeys⟩ := (h b rfl).written (hnull b rfl)
    exact readsBack_on hwritten hkeys
  | wild w b =>
    obtain ⟨written, hwritten, hkeys⟩ := (h b rfl).written (hnull b rfl)
    exact readsBack_wild StableSettings.decode_nil hwritten (hkeys _ (by decide)) (hkeys _ (by decide))
      (fun _ => hkeys _ (by decide)) hkeeps

theorem Bin.isStable_empty : IsStable {} where
  maxbins _ hs := by contradiction
  parameter p _ _ hv := by cases p <;> contradiction

theorem Bin.get?_of_set {b c : Bin} {p r : BinParameter} {v : Json} (hset : b.set p v = .ok c)
    (hr : r ≠ .maxbins) : c.get? r = if r = p then some v else b.get? r := by
  cases p with
  | maxbins =>
    obtain ⟨s, -, rfl⟩ := map_eq_ok.mp hset
    rw [if_neg hr]
    cases r <;> first | rfl | contradiction
  | extent | base | step | steps | minstep | divide =>
    obtain rfl := Except.ok.inj hset
    cases r <;> rfl

theorem Bin.maxbins_of_set {b c : Bin} {p : BinParameter} {v : Json} (hset : b.set p v = .ok c) :
    c.maxbins = b.maxbins ∨ ∃ s, c.maxbins = some s ∧ decode v = .ok s := by
  cases p with
  | maxbins =>
    obtain ⟨s, hs, rfl⟩ := map_eq_ok.mp hset
    exact .inr ⟨s, rfl, hs⟩
  | extent | base | step | steps | minstep | divide =>
    obtain rfl := Except.ok.inj hset
    exact .inl rfl

theorem Bin.IsStable.set {b c : Bin} (h : b.IsStable) {p : BinParameter} {v : Json} (hv : v.Ordered)
    (hset : b.set p v = .ok c) : c.IsStable where
  maxbins s hs := by
    obtain heq | ⟨t, ht, hread⟩ := maxbins_of_set hset
    · exact h.maxbins s (heq ▸ hs)
    · obtain rfl : t = s := Option.some.inj (ht.symm.trans hs)
      exact StableCoded.readsBack hv hread
  parameter r w hr hw := by
    rw [get?_of_set hset hr] at hw
    split at hw
    · exact Option.some.inj hw ▸ hv
    · exact h.parameter r w hr hw

namespace Shorthand

/-! ## Values -/

theorem eq_ok_of_inFragment {α : Type} {fragment : List Char} {x : Except JsonError α} {a : α}
    (h : inFragment fragment x = .ok a) : x = .ok a := by
  cases x with
  | error e => cases h
  | ok b => exact congrArg Except.ok (Except.ok.inj h)

theorem readTextAs?_of_readJson {α : Type} [Readable α] {fragment : List Char} {a : α}
    (h : readJson α fragment = .ok a) : Json.readTextAs? α fragment = some a := by
  have hread := eq_ok_of_inFragment h
  cases hv : Json.readTextAs? α fragment with
  | none =>
    rw [hv] at hread
    cases hread
  | some b =>
    rw [hv] at hread
    exact congrArg some (Except.ok.inj hread)

theorem ordered_of_readJson {fragment : List Char} {v : Json} (h : readJson Json fragment = .ok v) :
    v.Ordered := by
  obtain ⟨d, -, hd⟩ := Option.bind_eq_some_iff.mp (readTextAs?_of_readJson h)
  exact Json.ordered_of_toJson? hd

theorem ordered_of_readJsonList {fragment : List Char} {vs : List Json}
    (h : readJson (List Json) fragment = .ok vs) : ∀ v ∈ vs, v.Ordered := by
  obtain ⟨d, -, hd⟩ := Option.bind_eq_some_iff.mp (readTextAs?_of_readJson h)
  cases d with
  | list items => exact Json.ordered_of_mapM hd
  | scalar | mapping => contradiction

theorem ordered_of_readValue {raw : List Char} {v : Json} (h : readValue raw = .ok v) : v.Ordered := by
  unfold readValue at h
  split at h
  · obtain rfl := Except.ok.inj h
    exact .text _
  · obtain ⟨vs, hvs, rfl⟩ := map_eq_ok.mp h
    refine .object (List.pairwise_singleton _ _) fun m hm => ?_
    obtain rfl := List.mem_singleton.mp hm
    exact ordered_of_readJson hvs
  · obtain rfl := Except.ok.inj h
    cases hread : Json.read? raw with
    | none => exact .text _
    | some w => exact Json.ordered_of_read? hread

/-- What is read into a type was read from a value in order. -/
theorem of_readInto {α : Type} [Coded α] {raw : List Char} {a : α} (h : readInto α raw = .ok a) :
    ∃ v : Json, v.Ordered ∧ decode v = .ok a := by
  obtain ⟨v, hv, h⟩ := bind_eq_ok.mp h
  exact ⟨v, ordered_of_readValue hv, eq_ok_of_inFragment h⟩

/-- What is read from a token that starts with no mark is fixed at a value that does not look open. -/
theorem readsBack_of_readSlot {α : Type} [Coded α] [Readable α] (hα : ∀ a : α, ReadsBack a)
    {fixed : List Char → Result α} {token : List Char} {s : Slot α}
    (hfixed : ∀ a, (∀ rest, token ≠ '?' :: rest) → fixed token = .ok a → ¬(encode a).sorted.LooksOpen)
    (h : readSlot fixed token = .ok s) : ReadsBack s := by
  unfold readSlot at h
  split at h
  · obtain rfl := Except.ok.inj h
    exact Slot.readsBack_wild fun _ _ a _ => hα a
  · obtain ⟨vs, -, rfl⟩ := map_eq_ok.mp h
    exact Slot.readsBack_wild fun _ _ a _ => hα a
  · next hmark =>
    obtain ⟨a, ha, rfl⟩ := map_eq_ok.mp h
    exact Slot.readsBack_fixed (hα a) (hfixed a hmark ha)

theorem readsBack_of_readWord {α : Type} [Vocabulary α] [PlainCoded α] {fixed : List Char → Result α}
    {token : List Char} {s : Slot α} (h : readSlot fixed token = .ok s) : ReadsBack s := by
  refine readsBack_of_readSlot readsBack_plain (fun a _ _ => ?_) h
  rw [PlainCoded.sorted_encode]
  exact PlainCoded.not_looksOpen_encode a

/-! ## Fields -/

/-- The parts read so far read back. -/
structure RawField.IsStable (f : RawField) : Prop where
  query : f.query.IsStable
  bin : ∀ b ∈ f.bin, b.IsStable

theorem RawField.IsStable.getD_bin {f : RawField} (h : f.IsStable) : (f.bin.getD {}).IsStable := by
  cases hb : f.bin with
  | none => exact Bin.isStable_empty
  | some b => exact h.bin b hb

theorem RawField.IsStable.add {f g : RawField} (h : f.IsStable) {input key raw : List Char}
    (hadd : f.add input key raw = .ok g) : g.IsStable := by
  dsimp only [RawField.add] at hadd
  split at hadd
  · obtain ⟨v, hv, hadd⟩ := bind_eq_ok.mp hadd
    obtain ⟨b, hb, hadd⟩ := bind_eq_ok.mp hadd
    obtain rfl := Except.ok.inj hadd
    refine ⟨h.query, fun c hc => ?_⟩
    obtain rfl : b = c := Option.some.inj hc
    exact h.getD_bin.set (ordered_of_readValue hv) (eq_ok_of_inFragment hb)
  · split at hadd
    · obtain ⟨t, ht, hadd⟩ := bind_eq_ok.mp hadd
      obtain rfl := Except.ok.inj hadd
      obtain ⟨v, hv, hread⟩ := of_readInto ht
      refine ⟨{ h.query with scale := fun t' ht' hkeeps => ?_ }, h.bin⟩
      obtain rfl := Option.some.inj ht'
      exact Toggle.readsBack_of_decode hv hread hkeeps
    · obtain ⟨t, ht, hadd⟩ := bind_eq_ok.mp hadd
      obtain rfl := Except.ok.inj hadd
      obtain ⟨v, hv, hread⟩ := of_readInto ht
      refine ⟨{ h.query with axis := fun t' ht' hkeeps => ?_ }, h.bin⟩
      obtain rfl := Option.some.inj ht'
      exact Toggle.readsBack_of_decode hv hread hkeeps
    · obtain ⟨t, ht, hadd⟩ := bind_eq_ok.mp hadd
      obtain rfl := Except.ok.inj hadd
      obtain ⟨v, hv, hread⟩ := of_readInto ht
      refine ⟨{ h.query with legend := fun t' ht' hkeeps => ?_ }, h.bin⟩
      obtain rfl := Option.some.inj ht'
      exact Toggle.readsBack_of_decode hv hread hkeeps
    · obtain ⟨s, hs, hadd⟩ := bind_eq_ok.mp hadd
      obtain rfl := Except.ok.inj hadd
      obtain ⟨v, hv, hread⟩ := of_readInto hs
      refine ⟨{ h.query with sort := fun s' hs' => ?_ }, h.bin⟩
      obtain rfl := Option.some.inj hs'
      refine ⟨StableCoded.readsBack hv hread, ?_⟩
      cases s with
      | fixed o =>
        change (encode o).sorted ≠ .null
        rw [PlainCoded.sorted_encode]
        exact PlainCoded.encode_ne_null o
      | wild w => exact w.sorted_toJson_ne_null
    · exact Except.ok.inj hadd ▸ h
    · cases hadd

/-- What is read of a field: its name, its type, which is open if nothing stands for it, and then the
parameters, one after another. -/
theorem of_readRawField {channel : Slot Channel} {input : List Char} {f : RawField}
    (h : readRawField channel input = .ok f) :
    ∃ (name letter rest : List Char) (field : Slot String) (type : Slot FieldType)
        (parameters : List (List Char × List Char)),
      Text.splitWithTail [','] 2 input = [name, letter, rest] ∧
      readSlot (fun f => .ok (String.ofList f)) name = .ok field ∧
      (type = .wild .short ∨ readSlot (readType input) letter = .ok type) ∧
      parameters.foldlM (fun f p => RawField.add input f p.1 p.2) { query := { channel, field, type } } =
        .ok f := by
  unfold readRawField at h
  split at h
  · next name letter rest hsplit =>
    obtain ⟨field, hfield, h⟩ := bind_eq_ok.mp h
    dsimp only at h
    split at h
    · dsimp only [bind, Except.bind] at h
      split at h
      · cases h
      · exact ⟨name, letter, rest, field, _, _, hsplit, hfield, .inl rfl, h⟩
    · obtain ⟨type, htype, h⟩ := bind_eq_ok.mp h
      split at h
      · cases h
      · exact ⟨name, letter, rest, field, type, _, hsplit, hfield, .inr htype, h⟩
  · cases h

theorem isStable_of_readRawField {channel : Slot Channel} (hchannel : ReadsBack channel)
    {input : List Char} {f : RawField} (h : readRawField channel input = .ok f) : f.IsStable := by
  obtain ⟨name, letter, rest, field, type, parameters, -, hfield, htype, h⟩ := of_readRawField h
  have hfield : ReadsBack field := by
    refine readsBack_of_readSlot String.readsBack (fun a hmark ha hopen => ?_) hfield
    obtain rfl := Except.ok.inj ha
    exact hmark [] (String.ofList_injective hopen)
  have htype : ReadsBack type := by
    rcases htype with rfl | htype
    · rfl
    · exact readsBack_of_readWord htype
  refine foldlM_keeps (P := RawField.IsStable) (fun p _ f g hf hg => hf.add hg)
    ⟨?_, fun _ hb => by contradiction⟩ h
  exact {
    channel := hchannel
    aggregate := rfl
    timeUnit := rfl
    bin := fun _ ht => by contradiction
    scale := fun _ ht => by contradiction
    sort := fun _ hs => by contradiction
    field := hfield
    type := htype
    axis := fun _ ht => by contradiction
    legend := fun _ ht => by contradiction }

theorem RawField.IsStable.unbinned {f : RawField} (h : f.IsStable) {input : List Char} {q : FieldEncoding}
    (hq : f.unbinned input = .ok q) : q.IsStable := by
  unfold RawField.unbinned at hq
  split at hq
  · cases hq
  · exact Except.ok.inj hq ▸ h.query

theorem RawField.IsStable.addFunction {f g : RawField} (h : f.IsStable) {input fragment : List Char}
    {key : String} {v : Json} (hadd : f.addFunction input fragment key v = .ok g) : g.IsStable := by
  dsimp only [RawField.addFunction] at hadd
  split at hadd
  · obtain ⟨w, -, hadd⟩ := bind_eq_ok.mp hadd
    obtain rfl := Except.ok.inj hadd
    exact ⟨{ h.query with aggregate := Slot.readsBack_wild fun _ _ a _ => readsBack_option a }, h.bin⟩
  · obtain ⟨w, -, hadd⟩ := bind_eq_ok.mp hadd
    obtain rfl := Except.ok.inj hadd
    exact ⟨{ h.query with timeUnit := Slot.readsBack_wild fun _ _ a _ => readsBack_option a }, h.bin⟩
  · obtain ⟨w, -, hadd⟩ := bind_eq_ok.mp hadd
    obtain rfl := Except.ok.inj hadd
    refine ⟨{ h.query with bin := fun t ht => ?_ }, fun _ hb => by contradiction⟩
    obtain rfl := Option.some.inj ht
    refine Toggle.readsBack_bin fun b hb => ?_
    obtain rfl := Option.some.inj hb
    exact h.getD_bin
  · obtain rfl := Except.ok.inj hadd
    exact ⟨{ h.query with }, h.bin⟩
  · cases hadd

/-! ## Encodings -/

theorem isStable_of_readOpenFunctions {channel : Slot Channel} (hchannel : ReadsBack channel)
    {input : List Char} {e : Encoding} (h : readOpenFunctions channel input = .ok e) : e.IsStable := by
  unfold readOpenFunctions at h
  split at h
  · cases h
  · split at h
    · cases h
    · obtain ⟨members, -, h⟩ := bind_eq_ok.mp h
      split at h
      · obtain ⟨w, -, h⟩ := bind_eq_ok.mp h
        obtain rfl := Except.ok.inj h
        exact ⟨hchannel, Slot.readsBack_wild fun _ _ a _ => readsBack_plain a⟩
      · obtain ⟨f, hf, h⟩ := bind_eq_ok.mp h
        obtain ⟨g, hg, h⟩ := bind_eq_ok.mp h
        obtain ⟨q, hq, h⟩ := bind_eq_ok.mp h
        obtain rfl := Except.ok.inj h
        have hstable : g.IsStable := foldlM_keeps (P := RawField.IsStable)
          (fun m _ f g hf hg => hf.addFunction hg) (isStable_of_readRawField hchannel hf) hg
        exact hstable.unbinned hq

theorem isStable_of_readFunction {channel : Slot Channel} (hchannel : ReadsBack channel)
    {input name inner : List Char} {e : Encoding} (h : readFunction channel input name inner = .ok e) :
    e.IsStable := by
  dsimp only [readFunction] at h
  split at h
  · obtain rfl := Except.ok.inj h
    exact ⟨hchannel, Slot.readsBack_fixed (readsBack_plain true) id⟩
  · obtain ⟨f, hf, h⟩ := bind_eq_ok.mp h
    have hf := isStable_of_readRawField hchannel hf
    split at h
    · obtain rfl := Except.ok.inj h
      refine { hf.query with bin := fun t ht => ?_ }
      obtain rfl := Option.some.inj ht
      refine Toggle.readsBack_bin fun b hb => ?_
      obtain rfl := Option.some.inj hb
      exact hf.getD_bin
    · obtain ⟨q, hq, h⟩ := bind_eq_ok.mp h
      have hq := hf.unbinned hq
      split at h
      · obtain rfl := Except.ok.inj h
        exact { hq with aggregate := Slot.readsBack_fixed (readsBack_option _) (not_looksOpen_option _) }
      · obtain rfl := Except.ok.inj h
        exact { hq with timeUnit := Slot.readsBack_fixed (readsBack_option _) (not_looksOpen_option _) }
      · cases h

theorem isStable_of_readDefinition {channel : Slot Channel} (hchannel : ReadsBack channel)
    {input : List Char} {e : Encoding} (h : readDefinition channel input = .ok e) : e.IsStable := by
  unfold readDefinition at h
  split at h
  · obtain rfl := Except.ok.inj h
    exact ⟨hchannel, Slot.readsBack_fixed (readsBack_plain false) id⟩
  · obtain ⟨s, hs, h⟩ := bind_eq_ok.mp h
    obtain rfl := Except.ok.inj h
    obtain ⟨v, hv, hread⟩ := of_readInto hs
    exact ⟨hchannel, StableCoded.readsBack hv hread⟩
  · exact isStable_of_readOpenFunctions hchannel h
  · split at h
    · exact isStable_of_readFunction hchannel h
    · obtain ⟨f, hf, h⟩ := bind_eq_ok.mp h
      obtain ⟨q, hq, h⟩ := bind_eq_ok.mp h
      obtain rfl := Except.ok.inj h
      exact (isStable_of_readRawField hchannel hf).unbinned hq

/-! ## Queries -/

theorem isStable_of_readPart {input part : List Char} {q r : ChartQuery} (hq : q.IsStable)
    (h : readPart input q part = .ok r) : r.IsStable := by
  unfold readPart at h
  split at h
  · obtain ⟨steps, hsteps, h⟩ := bind_eq_ok.mp h
    obtain rfl := Except.ok.inj h
    refine { hq with transform := fun steps' hsteps' v hv => ?_ }
    obtain rfl := Option.some.inj hsteps'
    exact ordered_of_readJsonList hsteps v hv
  · split at h
    · split at h
      · cases h
      · obtain ⟨e, he, h⟩ := bind_eq_ok.mp h
        obtain rfl := Except.ok.inj h
        obtain ⟨c, hc, he⟩ := bind_eq_ok.mp he
        refine { hq with encodings := fun e' he' => ?_ }
        rcases List.mem_append.mp he' with he' | he'
        · exact hq.encodings e' he'
        · obtain rfl := List.mem_singleton.mp he'
          exact isStable_of_readDefinition (readsBack_of_readWord hc) he
    · cases h

end Shorthand

namespace ChartQuery

open Shorthand

theorem isStable_of_ofShorthand {text : String} {q : ChartQuery} (h : ofShorthand text = .ok q) :
    q.IsStable := by
  dsimp only [ofShorthand] at h
  split at h
  · obtain ⟨mark, hmark, h⟩ := bind_eq_ok.mp h
    refine foldlM_keeps (P := IsStable) (fun _ _ _ _ hq hr => isStable_of_readPart hq hr) ?_ h
    exact {
      data := fun _ hv => by contradiction
      mark := readsBack_of_readWord hmark
      transform := fun _ hs => by contradiction
      encodings := fun _ he => by contradiction
      config := fun _ hm => by contradiction }
  · cases h

/-- A query that was read, from a shorthand or from JSON, is read again from the JSON that is written for
it, if no open switch that goes without a name and candidates has settings, and no parameter of a bin is
`null`. -/
theorem decode_encode_of_read {q : ChartQuery}
    (read : (∃ text, ofShorthand text = .ok q) ∨ ∃ v : Json, decode v.sorted = .ok q)
    (keeps : ∀ e ∈ q.encodings, e.KeepsInJson) : decode (encode q).sorted = .ok q := by
  have hstable : q.IsStable := by
    obtain ⟨text, h⟩ | ⟨v, h⟩ := read
    · exact isStable_of_ofShorthand h
    · exact isStable_of_decode v.ordered_sorted h
  exact hstable.readsBack keeps

/-- A field that may be cut into ten bins, if it is binned at all. -/
def mayBin (flag : Wildcard Bool) : ChartQuery := {
  mark := .fixed .point
  encodings := [.field {
    channel := .fixed .x
    bin := some (.wild flag { maxbins := some (.fixed 10) })
    field := .fixed "Q"
    type := .fixed .quantitative }] }

/-- The same as JSON, with what is said of the switch. -/
def mayBinJson (flag : Json.Members) : Json :=
  .object [("mark", .text "point"), ("encodings", .list [.object [
    ("channel", .text "x"), ("bin", .object (("maxbins", .number (.ofCount 10)) :: flag)),
    ("field", .text "Q"), ("type", .text "quantitative")]])]

theorem decode_encode_of_read_mayBin :
    decode (encode (mayBin (.ofCandidates [false, true]))).sorted =
      .ok (mayBin (.ofCandidates [false, true])) := by
  refine decode_encode_of_read (.inr ⟨mayBinJson [("enum", encode [false, true])], rfl⟩) fun e he => ?_
  obtain rfl := List.mem_singleton.mp he
  refine ⟨fun t ht => ?_, fun _ ht => by contradiction, fun _ ht => by contradiction,
    fun _ ht => by contradiction⟩
  obtain rfl := Option.some.inj ht
  refine ⟨rfl, fun b hb p => ?_⟩
  obtain rfl := Option.some.inj hb
  cases p <;> decide

/-- A name that is no text leaves a switch open of which nothing is known. It is not written beside the
number of bins, and the field is read as binned. -/
theorem decode_encode_loses_switch :
    decode (mayBinJson [("name", .null)]).sorted = .ok (mayBin .short) ∧
      decode (encode (mayBin .short)).sorted ≠ .ok (mayBin .short) := by
  have hwritten : (encode (mayBin .short)).sorted = (mayBinJson []).sorted := rfl
  refine ⟨rfl, fun h => ?_⟩
  rw [hwritten] at h
  have hbinned : decode (mayBinJson []).sorted = Except.ok ({ mayBin .short with
      encodings := [.field {
        channel := .fixed .x
        bin := some (.on { maxbins := some (.fixed 10) })
        field := .fixed "Q"
        type := .fixed .quantitative }] } : ChartQuery) := rfl
  rw [hbinned] at h
  exact absurd (Except.ok.inj h) (by decide)

end ChartQuery
end ChartAdvisor
