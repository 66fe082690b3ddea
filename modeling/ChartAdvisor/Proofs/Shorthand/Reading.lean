import Mathlib.Data.List.TakeWhile
import ChartAdvisor.Proofs.Json.Remainder
import ChartAdvisor.Proofs.Shorthand.Cutting
import ChartAdvisor.Proofs.Shorthand.Recoding
import ChartAdvisor.Proofs.Shorthand.Recoverable

/-!
# What is read from a shorthand

The name of a field ends at a comma, is not taken for an open slot and stands on one line where a function
is called on it; where it or the type is open, there is one candidate at most, since a comma would stand
between two. There is one function at most, or there are open ones. What can be switched on was read from
JSON.
-/
namespace ChartAdvisor

/-- The value was read from JSON. -/
def WasRead {α : Type} [Coded α] (a : α) : Prop := ∃ v : Json, v.Ordered ∧ decode v = Except.ok a

/-! ## Fields -/

namespace FieldEncoding

/-- The name was cut off the start of a text, and the parts that can be switched on were read. -/
structure IsReadFrom (text : List Char) (q : FieldEncoding) : Prop where
  comma : ∀ n, q.field = .fixed n → ',' ∉ n.toList
  mark : ∀ n, q.field = .fixed n → ∀ rest, n.toList ≠ '?' :: rest
  start : ∀ n, q.field = .fixed n → n.toList <+: text
  names : ∀ w, q.field = .wild w → ∀ vs ∈ w.candidates, vs.length ≤ 1
  types : ∀ w, q.type = .wild w → ∀ vs ∈ w.candidates, vs.length ≤ 1
  scale : ∀ t ∈ q.scale, WasRead t
  axis : ∀ t ∈ q.axis, WasRead t
  legend : ∀ t ∈ q.legend, WasRead t

/-- What holds of every field that is read. -/
structure IsRead (q : FieldEncoding) : Prop where
  parts : ∃ text, q.IsReadFrom text ∧ (q.isCalled = true → '\n' ∉ text)
  aggregateName : q.aggregate? ≠ some .q1 ∧ q.aggregate? ≠ some .q3
  single : [q.aggregate?.isSome, q.timeUnit?.isSome, q.isBinned, q.hasOpenFunction].count true ≤ 1

theorem IsReadFrom.of_eq {text : List Char} {q r : FieldEncoding} (h : q.IsReadFrom text)
    (eq : r.withoutFunction = q.withoutFunction) : r.IsReadFrom text where
  comma n hn := h.comma n ((congrArg FieldEncoding.field eq).symm.trans hn)
  mark n hn := h.mark n ((congrArg FieldEncoding.field eq).symm.trans hn)
  start n hn := h.start n ((congrArg FieldEncoding.field eq).symm.trans hn)
  names w hw := h.names w ((congrArg FieldEncoding.field eq).symm.trans hw)
  types w hw := h.types w ((congrArg FieldEncoding.type eq).symm.trans hw)
  scale t ht := h.scale t ((congrArg FieldEncoding.scale eq).symm.trans ht)
  axis t ht := h.axis t ((congrArg FieldEncoding.axis eq).symm.trans ht)
  legend t ht := h.legend t ((congrArg FieldEncoding.legend eq).symm.trans ht)

end FieldEncoding

def Encoding.IsRead : Encoding → Prop
  | field q => q.IsRead
  | value _ v => WasRead v
  | autoCount .. => True

/-- What holds of every query that is read: there are no data and no settings. -/
structure ChartQuery.IsRead (q : ChartQuery) : Prop where
  encodings : ∀ e ∈ q.encodings, e.IsRead
  data : q.data = none
  config : q.config = none

namespace Text

/-- A piece ends at the delimiter, unless it is the last. -/
theorem not_mem_of_splitWithTail {d : Char} {count : Nat} {text piece : List Char}
    (h : piece ∈ (splitWithTail [d] count text).take count) : d ∉ piece := by
  induction count generalizing text with
  | zero => contradiction
  | succ count ih =>
    by_cases hd : d ∈ text
    · obtain ⟨a, b, rfl, ha⟩ := List.eq_append_cons_of_mem hd
      rw [splitWithTail_append ha, List.take_succ_cons] at h
      rcases List.mem_cons.mp h with rfl | h
      · exact ha
      · exact ih h
    · rw [splitWithTail_of_not_mem hd, List.take_succ_cons] at h
      rcases List.mem_cons.mp h with rfl | h
      · exact hd
      · rw [List.eq_of_mem_replicate (List.mem_of_mem_take h)]
        exact List.not_mem_nil

theorem prefix_of_splitWithTail {d : Char} {count : Nat} {text piece : List Char} {pieces : List (List Char)}
    (h : splitWithTail [d] (count + 1) text = piece :: pieces) : piece <+: text := by
  by_cases hd : d ∈ text
  · obtain ⟨a, b, rfl, ha⟩ := List.eq_append_cons_of_mem hd
    rw [splitWithTail_append ha] at h
    obtain ⟨rfl, -⟩ := List.cons.inj h
    exact List.prefix_append _ _
  · rw [splitWithTail_of_not_mem hd] at h
    obtain ⟨rfl, -⟩ := List.cons.inj h
    exact List.prefix_rfl

end Text

namespace Shorthand

/-- A function is called by a name of lower case letters, on one line. -/
theorem of_functionCall? {input name inner : List Char} (h : functionCall? input = some (name, inner)) :
    IsFunctionName name ∧ '\n' ∉ inner := by
  rw [functionCall?_eq] at h
  split at h
  · contradiction
  · next hname =>
    split at h
    · split at h
      · contradiction
      · next hinner =>
        obtain ⟨rfl, rfl⟩ := Prod.mk.inj (Option.some.inj h)
        exact ⟨⟨by simpa using hname, fun c hc => List.mem_takeWhile_imp hc⟩, by simpa using hinner⟩
    · contradiction

section

variable {α : Type} [Readable α] {fixed : List Char → Result α} {token : List Char}

theorem fixed_of_readSlot {a : α} (h : readSlot fixed token = .ok (.fixed a)) :
    fixed token = .ok a ∧ ∀ rest, token ≠ '?' :: rest := by
  unfold readSlot at h
  split at h
  · cases h
  · obtain ⟨vs, -, heq⟩ := map_eq_ok.mp h
    cases heq
  · next hmark =>
    obtain ⟨b, hb, heq⟩ := map_eq_ok.mp h
    obtain rfl := Slot.fixed.inj heq
    exact ⟨hb, hmark⟩

/-- Between two candidates there is a comma. -/
theorem single_of_readSlot (hcomma : ',' ∉ token) {w : Wildcard α}
    (h : readSlot fixed token = .ok (.wild w)) : ∀ vs ∈ w.candidates, vs.length ≤ 1 := by
  intro vs hvs
  unfold readSlot at h
  split at h
  · obtain rfl := Slot.wild.inj (Except.ok.inj h)
    contradiction
  · obtain ⟨candidates, hread, heq⟩ := map_eq_ok.mp h
    obtain rfl := Slot.wild.inj heq
    obtain rfl := Option.some.inj hvs
    exact Json.length_le_one_of_readTextAs? (readTextAs?_of_readJson hread)
      fun hmem => hcomma (List.mem_cons_of_mem _ hmem)
  · obtain ⟨a, -, heq⟩ := map_eq_ok.mp h
    cases heq

end

variable {text input fragment : List Char} {f g : RawField}

/-- The parts read so far, of a field without a function. -/
structure RawField.IsReadFrom (text : List Char) (f : RawField) : Prop where
  parts : f.query.IsReadFrom text
  plain : f.query.withoutFunction = f.query

theorem RawField.IsReadFrom.add (h : f.IsReadFrom text) {key raw : List Char}
    (hadd : f.add input key raw = .ok g) : g.IsReadFrom text := by
  dsimp only [RawField.add] at hadd
  split at hadd
  · obtain ⟨v, -, hadd⟩ := bind_eq_ok.mp hadd
    obtain ⟨b, -, hadd⟩ := bind_eq_ok.mp hadd
    obtain rfl := Except.ok.inj hadd
    exact ⟨h.parts, h.plain⟩
  · split at hadd
    · obtain ⟨t, ht, hadd⟩ := bind_eq_ok.mp hadd
      obtain rfl := Except.ok.inj hadd
      refine ⟨{ h.parts with scale := fun t' ht' => ?_ },
        congrArg (fun q => { q with scale := some t }) h.plain⟩
      exact Option.some.inj ht' ▸ of_readInto ht
    · obtain ⟨t, ht, hadd⟩ := bind_eq_ok.mp hadd
      obtain rfl := Except.ok.inj hadd
      refine ⟨{ h.parts with axis := fun t' ht' => ?_ },
        congrArg (fun q => { q with axis := some t }) h.plain⟩
      exact Option.some.inj ht' ▸ of_readInto ht
    · obtain ⟨t, ht, hadd⟩ := bind_eq_ok.mp hadd
      obtain rfl := Except.ok.inj hadd
      refine ⟨{ h.parts with legend := fun t' ht' => ?_ },
        congrArg (fun q => { q with legend := some t }) h.plain⟩
      exact Option.some.inj ht' ▸ of_readInto ht
    · obtain ⟨s, hs, hadd⟩ := bind_eq_ok.mp hadd
      obtain rfl := Except.ok.inj hadd
      exact ⟨{ h.parts with }, congrArg (fun q => { q with sort := some s }) h.plain⟩
    · exact Except.ok.inj hadd ▸ h
    · cases hadd

theorem isReadFrom_of_readRawField {channel : Slot Channel} (h : readRawField channel text = .ok f) :
    f.IsReadFrom text := by
  obtain ⟨name, letter, rest, field, type, parameters, hsplit, hfield, hread, h⟩ := of_readRawField h
  have hcomma (piece : List Char) (hpiece : piece ∈ [name, letter]) : ',' ∉ piece := by
    have hmem : piece ∈ (Text.splitWithTail [','] 2 text).take 2 := by
      rw [hsplit]
      exact hpiece
    exact Text.not_mem_of_splitWithTail hmem
  have hname (n : String) (hn : field = .fixed n) : n.toList = name ∧ ∀ rest, name ≠ '?' :: rest := by
    obtain ⟨heq, hmark⟩ := fixed_of_readSlot (hn ▸ hfield)
    exact ⟨Except.ok.inj heq ▸ String.toList_ofList, hmark⟩
  have htype (w : Wildcard FieldType) (hw : type = .wild w) : ∀ vs ∈ w.candidates, vs.length ≤ 1 := by
    rcases hread with rfl | hread
    · obtain rfl := Slot.wild.inj hw
      intro vs hvs
      contradiction
    · exact single_of_readSlot (hcomma letter (by simp)) (hw ▸ hread)
  refine foldlM_keeps (P := RawField.IsReadFrom text) (fun p _ f g hf hg => hf.add hg) ⟨?_, rfl⟩ h
  exact {
    comma := fun n hn => (hname n hn).1 ▸ hcomma name (by simp)
    mark := fun n hn => (hname n hn).1 ▸ (hname n hn).2
    start := fun n hn => (hname n hn).1 ▸ Text.prefix_of_splitWithTail hsplit
    names := fun w hw => by
      obtain rfl : field = .wild w := hw
      exact single_of_readSlot (hcomma name (by simp)) hfield
    types := htype
    scale := fun _ ht => by contradiction
    axis := fun _ ht => by contradiction
    legend := fun _ ht => by contradiction }

theorem query_of_unbinned {q : FieldEncoding} (h : f.unbinned input = .ok q) : f.query = q := by
  unfold RawField.unbinned at h
  split at h
  · cases h
  · exact Except.ok.inj h

/-- A field without a function, or with open ones. -/
structure RawField.IsOpened (text : List Char) (f : RawField) : Prop where
  parts : f.query.IsReadFrom text
  uncalled : f.query.isCalled = false

theorem RawField.IsReadFrom.isOpened (h : f.IsReadFrom text) : f.IsOpened text where
  parts := h.parts
  uncalled := by rw [← h.plain]; rfl

theorem RawField.IsOpened.isRead (h : f.IsOpened text) : f.query.IsRead := by
  have huncalled := h.uncalled
  simp only [FieldEncoding.isCalled, Bool.or_eq_false_iff] at huncalled
  obtain ⟨⟨haggregate, hunit⟩, hbin⟩ := huncalled
  have hnone := Option.isSome_eq_false_iff.mp haggregate
  refine ⟨⟨text, h.parts, fun called => ?_⟩, ?_, ?_⟩
  · rw [h.uncalled] at called
    contradiction
  · rw [Option.isNone_iff_eq_none.mp hnone]
    exact ⟨nofun, nofun⟩
  · rw [haggregate, hunit, hbin]
    cases f.query.hasOpenFunction <;> decide

theorem RawField.IsOpened.addFunction (h : f.IsOpened text) {key : String} {v : Json}
    (hadd : f.addFunction input fragment key v = .ok g) : g.IsOpened text := by
  have huncalled := h.uncalled
  simp only [FieldEncoding.isCalled, Bool.or_eq_false_iff] at huncalled
  obtain ⟨⟨haggregate, hunit⟩, hbin⟩ := huncalled
  dsimp only [RawField.addFunction] at hadd
  split at hadd
  · obtain ⟨w, -, hadd⟩ := bind_eq_ok.mp hadd
    obtain rfl := Except.ok.inj hadd
    exact ⟨h.parts.of_eq rfl, Bool.or_eq_false_iff.mpr ⟨hunit, hbin⟩⟩
  · obtain ⟨w, -, hadd⟩ := bind_eq_ok.mp hadd
    obtain rfl := Except.ok.inj hadd
    refine ⟨h.parts.of_eq rfl, ?_⟩
    exact Bool.or_eq_false_iff.mpr ⟨Bool.or_eq_false_iff.mpr ⟨haggregate, rfl⟩, hbin⟩
  · obtain ⟨w, -, hadd⟩ := bind_eq_ok.mp hadd
    obtain rfl := Except.ok.inj hadd
    refine ⟨h.parts.of_eq rfl, ?_⟩
    exact Bool.or_eq_false_iff.mpr ⟨Bool.or_eq_false_iff.mpr ⟨haggregate, hunit⟩, rfl⟩
  · obtain rfl := Except.ok.inj hadd
    exact ⟨h.parts.of_eq rfl, h.uncalled⟩
  · cases hadd

/-! ## Encodings -/

variable {channel : Slot Channel} {e : Encoding}

theorem isRead_of_readOpenFunctions (h : readOpenFunctions channel input = .ok e) : e.IsRead := by
  unfold readOpenFunctions at h
  split at h
  · cases h
  · split at h
    · cases h
    · obtain ⟨members, -, h⟩ := bind_eq_ok.mp h
      split at h
      · obtain ⟨w, -, h⟩ := bind_eq_ok.mp h
        obtain rfl := Except.ok.inj h
        trivial
      · obtain ⟨f, hf, h⟩ := bind_eq_ok.mp h
        obtain ⟨g, hg, h⟩ := bind_eq_ok.mp h
        obtain ⟨q, hq, h⟩ := bind_eq_ok.mp h
        obtain rfl := Except.ok.inj h
        have hopened : g.IsOpened _ := foldlM_keeps (P := RawField.IsOpened _)
          (fun m _ f g hf hg => hf.addFunction hg) (isReadFrom_of_readRawField hf).isOpened hg
        obtain rfl := query_of_unbinned hq
        exact hopened.isRead

/-- No function with a digit in its name is called. -/
theorem aggregate_of_ofName? {name : List Char} (hname : IsFunctionName name) {op : Aggregate}
    (h : Vocabulary.ofName? (String.ofList name) = some op) : op ≠ .q1 ∧ op ≠ .q3 := by
  have hfound : (Vocabulary.name op == String.ofList name) = true :=
    List.find?_some (p := fun a => Vocabulary.name a == String.ofList name) h
  have hlower : ∀ c ∈ (Vocabulary.name op).toList, isLower c = true := by
    rw [beq_iff_eq.mp hfound, String.toList_ofList]
    exact hname.2
  constructor <;> rintro rfl <;> exact absurd (List.all_eq_true.mpr hlower) (by decide)

theorem isRead_of_readFunction {name inner : List Char} (hname : IsFunctionName name)
    (hinner : '\n' ∉ inner) (h : readFunction channel input name inner = .ok e) : e.IsRead := by
  dsimp only [readFunction] at h
  split at h
  · obtain rfl := Except.ok.inj h
    trivial
  · obtain ⟨f, hf, h⟩ := bind_eq_ok.mp h
    obtain ⟨hparts, hplain⟩ := isReadFrom_of_readRawField hf
    split at h
    · obtain rfl := Except.ok.inj h
      rw [← hplain]
      have hsingle : [false, false, true, false].count true ≤ 1 := by decide
      exact ⟨⟨inner, hparts.of_eq rfl, fun _ => hinner⟩, ⟨nofun, nofun⟩, hsingle⟩
    · obtain ⟨q, hq, h⟩ := bind_eq_ok.mp h
      obtain rfl := query_of_unbinned hq
      rw [← hplain] at h
      split at h
      · next op _ hop =>
        obtain rfl := Except.ok.inj h
        obtain ⟨hq1, hq3⟩ := aggregate_of_ofName? hname hop
        have hsingle : [true, false, false, false].count true ≤ 1 := by decide
        refine ⟨⟨inner, hparts.of_eq rfl, fun _ => hinner⟩, ⟨?_, ?_⟩, hsingle⟩
        · exact fun heq => hq1 (Option.some.inj heq)
        · exact fun heq => hq3 (Option.some.inj heq)
      · obtain rfl := Except.ok.inj h
        have hsingle : [false, true, false, false].count true ≤ 1 := by decide
        exact ⟨⟨inner, hparts.of_eq rfl, fun _ => hinner⟩, ⟨nofun, nofun⟩, hsingle⟩
      · cases h

theorem isRead_of_readDefinition (h : readDefinition channel input = .ok e) : e.IsRead := by
  unfold readDefinition at h
  split at h
  · obtain rfl := Except.ok.inj h
    trivial
  · obtain ⟨s, hs, h⟩ := bind_eq_ok.mp h
    obtain rfl := Except.ok.inj h
    exact of_readInto hs
  · exact isRead_of_readOpenFunctions h
  · split at h
    · next hcall =>
      obtain ⟨hname, hinner⟩ := of_functionCall? hcall
      exact isRead_of_readFunction hname hinner h
    · obtain ⟨f, hf, h⟩ := bind_eq_ok.mp h
      obtain ⟨q, hq, h⟩ := bind_eq_ok.mp h
      obtain rfl := Except.ok.inj h
      obtain rfl := query_of_unbinned hq
      exact (isReadFrom_of_readRawField hf).isOpened.isRead

/-! ## Queries -/

theorem isRead_of_readPart {part : List Char} {q r : ChartQuery} (hq : q.IsRead)
    (h : readPart input q part = .ok r) : r.IsRead := by
  unfold readPart at h
  split at h
  · obtain ⟨steps, -, h⟩ := bind_eq_ok.mp h
    obtain rfl := Except.ok.inj h
    exact { hq with }
  · split at h
    · split at h
      · cases h
      · obtain ⟨e, he, h⟩ := bind_eq_ok.mp h
        obtain rfl := Except.ok.inj h
        obtain ⟨c, -, he⟩ := bind_eq_ok.mp he
        refine { hq with encodings := fun e' he' => ?_ }
        rcases List.mem_append.mp he' with he' | he'
        · exact hq.encodings e' he'
        · obtain rfl := List.mem_singleton.mp he'
          exact isRead_of_readDefinition he
    · cases h

end Shorthand

open Shorthand

theorem ChartQuery.isRead_of_ofShorthand {text : String} {q : ChartQuery} (h : ofShorthand text = .ok q) :
    q.IsRead := by
  dsimp only [ofShorthand] at h
  split at h
  · obtain ⟨mark, -, h⟩ := bind_eq_ok.mp h
    exact foldlM_keeps (P := IsRead) (fun _ _ _ _ hq hr => isRead_of_readPart hq hr)
      ⟨fun _ he => by contradiction, rfl, rfl⟩ h
  · cases h

end ChartAdvisor
