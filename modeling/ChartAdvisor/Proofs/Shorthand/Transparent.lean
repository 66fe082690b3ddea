import ChartAdvisor.Proofs.Shorthand.Legible

/-!
# Queries that show in their shorthand

A query is transparent when all that it holds shows in its shorthand, open slots with their candidates
included. What is fixed is legible. What is open shows unless it has a name, or

- it is a field or a type with more than one candidate: a comma stands between them, and a comma ends
  the slot of a field;
- it is the switch of a part with settings and has no candidates: only the settings are written.

Beside an open function there is none that is fixed.
-/
namespace ChartAdvisor

/-! ## Slots -/

/-- A type whose values have a legible JSON form, of one object at most. -/
class LegibleCoded (α : Type) [Coded α] : Prop where
  legible_encode : ∀ (a : α) (depth : Nat), (encode a).Legible (depth + 1)

export LegibleCoded (legible_encode)

instance {α : Type} [Vocabulary α] : LegibleCoded α := ⟨fun _ _ => .text _⟩

instance : LegibleCoded Bool := ⟨fun b _ => .bool b⟩

instance : LegibleCoded String := ⟨fun s _ => .text s⟩

instance : LegibleCoded UInt32 := ⟨fun _ _ => .number (Number.isLegible_int _ _)⟩

instance {α : Type} [Vocabulary α] : LegibleCoded (Option α) where
  legible_encode
    | none, _ => .null
    | some _, _ => .text _

/-- What can be read off the text of an open slot: its candidates, but no name. -/
structure Wildcard.IsTransparent {α : Type} [Coded α] (w : Wildcard α) : Prop where
  name : w.name = none
  candidates : ∀ vs ∈ w.candidates, ∀ v ∈ vs, (encode v).Legible (Json.depthLimit - 1)

/-- An open slot with one candidate at most. -/
structure Wildcard.IsSingle {α : Type} (w : Wildcard α) : Prop where
  name : w.name = none
  single : ∀ vs ∈ w.candidates, vs.length ≤ 1

namespace Slot

variable {α : Type}

/-- If the slot is open, it has no name. -/
def IsNameless (s : Slot α) : Prop := ∀ w, s = .wild w → w.name = none

theorem isNameless_of_closed {s : Slot α} (h : s.isOpen = false) : s.IsNameless := by
  rintro w rfl
  contradiction

/-- The slot reads back from its text as the value of a parameter. -/
def IsTransparent [Coded α] : Slot α → Prop
  | fixed v => (encode v).Legible Json.depthLimit ∧ ¬(encode v).LooksOpen
  | wild w => w.IsTransparent

end Slot

theorem Wildcard.isTransparent_of_nameless {α : Type} [Coded α] [LegibleCoded α] {w : Wildcard α}
    (h : w.name = none) : w.IsTransparent where
  name := h
  candidates _ _ v _ := legible_encode v _

/-! ## Parts of a field -/

/-- The settings of a guide read back and are not taken for an open switch. -/
structure Guide.IsReadable (g : Guide) : Prop where
  legible : (Json.object g.members).Legible Json.depthLimit
  keys : ∀ key ∈ Wildcard.keys, g.members.lookup key = none

structure Bin.IsTransparent (b : Bin) : Prop where
  maxbins : ∀ s ∈ b.maxbins, s.IsNameless
  parameter : ∀ p v, b.get? p = some v →
    v.Legible Json.depthLimit ∧ ∀ s, v = .text s → '"' ∉ s.toList

/-- A part that is switched off, or on with settings of a kind, or open in its switch: with candidates,
where there are settings. -/
def Toggle.IsTransparent {α : Type} [Settings α] (P : α → Prop) : Toggle α → Prop
  | off => True
  | on t => P t ∧ t ≠ Settings.none
  | wild w t => w.name = none ∧ P t ∧ (t ≠ Settings.none → w.candidates.isSome = true)

/-! ## Fields -/

namespace FieldEncoding

/-- Whether it is open which function is applied. -/
def hasOpenFunction (q : FieldEncoding) : Bool :=
  q.aggregate.isOpen || q.timeUnit.isOpen || q.binIsOpen

structure IsTransparent (q : FieldEncoding) : Prop where
  channel : q.channel.IsNameless
  field : ∀ n, q.field = .fixed n → IsPlainName n
  fields : ∀ w, q.field = .wild w → w.IsSingle ∧ ∀ vs ∈ w.candidates, ∀ n ∈ vs, IsPlainName n
  type : ∀ w, q.type = .wild w → w.IsSingle
  hasFunction : q.hasFunction = true → q.hasOpenFunction = true
  aggregate : q.aggregate.IsNameless
  /-- The names of these two functions have a digit in them. -/
  aggregateName : q.aggregate? ≠ some .q1 ∧ q.aggregate? ≠ some .q3
  timeUnit : q.timeUnit.IsNameless
  bin : ∀ t ∈ q.bin, (∃ b, t = .on b ∧ b.IsTransparent) ∨
    ∃ w b, t = .wild w b ∧ w.name = none ∧ b.IsTransparent
  single : [q.aggregate?.isSome, q.timeUnit?.isSome, q.isBinned, q.hasOpenFunction].count true ≤ 1
  scale : ∀ t ∈ q.scale, t.IsTransparent Scale.IsTransparent
  sort : ∀ s ∈ q.sort, s.IsNameless
  axis : ∀ t ∈ q.axis, t.IsTransparent Guide.IsReadable ∧ q.channel.value?.all Channel.supportsAxis
  legend : ∀ t ∈ q.legend, t.IsTransparent Guide.IsReadable ∧
    q.channel.value?.all Channel.supportsLegend

end FieldEncoding

/-! ## Encodings and queries -/

def Encoding.IsTransparent : Encoding → Prop
  | field q => q.IsTransparent
  | value c v => c.IsNameless ∧ v.IsTransparent
  | autoCount c b => c.IsNameless ∧ b.isOpen = false

/-- All that is written of a query shows. Its data and its settings are not written, nor are auto
counts that are switched off. -/
structure ChartQuery.IsTransparent (q : ChartQuery) : Prop where
  mark : q.mark.IsNameless
  transform : ∀ steps ∈ q.transform, steps ≠ [] ∧ ∀ v ∈ steps, v.Legible (Json.depthLimit - 1)
  encodings : ∀ e ∈ q.active, e.IsTransparent

/-! ## Legible queries are transparent -/

theorem Bin.IsLegible.isTransparent {b : Bin} (h : b.IsLegible) : b.IsTransparent where
  maxbins s hs := Slot.isNameless_of_closed (h.maxbins s hs)
  parameter := h.parameter

theorem Guide.IsLegible.isReadable {g : Guide} (h : g.IsLegible) : g.IsReadable where
  legible := h.legible
  keys := h.keys

theorem Toggle.IsSettled.isTransparent {α : Type} [Settings α] {P Q : α → Prop} {t : Toggle α}
    (h : t.IsSettled P) (hP : ∀ x, P x → Q x ∧ x ≠ Settings.none) : t.IsTransparent Q := by
  cases t with
  | off => trivial
  | on x => exact hP x h
  | wild w x => exact h.elim

theorem Scale.IsLegible.ne_none {s : Scale} (h : s.IsLegible) : s ≠ Settings.none := by
  rintro rfl
  obtain ⟨p, hp⟩ := h.nonempty
  cases p <;> contradiction

theorem Guide.IsLegible.ne_none {g : Guide} (h : g.IsLegible) : g ≠ Settings.none := by
  rintro rfl
  exact h.nonempty rfl

namespace FieldEncoding

theorem IsLegible.hasOpenFunction_eq {q : FieldEncoding} (h : q.IsLegible) :
    q.hasOpenFunction = false := by
  have hbin : q.binIsOpen = false := by
    rw [binIsOpen, Option.any_eq_false]
    intro t ht
    obtain ⟨b, rfl, -⟩ := h.bin t ht
    rfl
  rw [hasOpenFunction, h.aggregate, h.timeUnit, hbin]
  rfl

theorem IsLegible.isBinned_eq {q : FieldEncoding} (h : q.IsLegible) : q.isBinned = q.bin.isSome := by
  cases hb : q.bin with
  | none => rw [isBinned, hb]; rfl
  | some t =>
    obtain ⟨b, rfl, -⟩ := h.bin t hb
    rw [isBinned, hb]
    rfl

theorem IsLegible.isTransparent {q : FieldEncoding} (h : q.IsLegible) : q.IsTransparent where
  channel := Slot.isNameless_of_closed h.channel
  field n hn := by
    obtain ⟨name, hname, hplain⟩ := h.field
    obtain rfl := Slot.fixed.inj (hname.symm.trans hn)
    exact hplain
  fields w hw := by
    obtain ⟨name, hname, -⟩ := h.field
    cases hname.symm.trans hw
  type w hw := by
    have htype := h.type
    rw [hw] at htype
    contradiction
  hasFunction hf := absurd (hf.symm.trans h.hasFunction) Bool.noConfusion
  aggregate := Slot.isNameless_of_closed h.aggregate
  aggregateName := h.aggregateName
  timeUnit := Slot.isNameless_of_closed h.timeUnit
  bin t ht := by
    obtain ⟨b, rfl, hb⟩ := h.bin t ht
    exact .inl ⟨b, rfl, hb.isTransparent⟩
  single := by
    have hsingle := h.single
    rw [← h.isBinned_eq] at hsingle
    rw [h.hasOpenFunction_eq]
    simpa [List.count_cons] using hsingle
  scale t ht := (h.scale t ht).isTransparent fun _ hs => ⟨hs.isTransparent, hs.ne_none⟩
  sort s hs := Slot.isNameless_of_closed (h.sort s hs)
  axis t ht :=
    ⟨(h.axis t ht).1.isTransparent fun _ hg => ⟨hg.isReadable, hg.ne_none⟩, (h.axis t ht).2⟩
  legend t ht :=
    ⟨(h.legend t ht).1.isTransparent fun _ hg => ⟨hg.isReadable, hg.ne_none⟩, (h.legend t ht).2⟩

theorem isTransparent_countOfRows {c : Slot Channel} (h : c.IsNameless) :
    (countOfRows c).IsTransparent where
  channel := h
  field n hn := by
    obtain rfl := Slot.fixed.inj hn
    simp [IsPlainName]
  fields _ hw := nomatch hw
  type _ hw := nomatch hw
  hasFunction hf := nomatch hf
  aggregate _ hw := nomatch hw
  aggregateName := by simp [countOfRows, aggregate?, Slot.value?]
  timeUnit _ hw := nomatch hw
  bin _ h := absurd h (Option.not_mem_none _)
  single := by simp [countOfRows, aggregate?, timeUnit?, Slot.value?, isBinned, hasOpenFunction, binIsOpen, Slot.isOpen]
  scale _ h := absurd h (Option.not_mem_none _)
  sort _ h := absurd h (Option.not_mem_none _)
  axis _ h := absurd h (Option.not_mem_none _)
  legend _ h := absurd h (Option.not_mem_none _)

end FieldEncoding

theorem Encoding.IsLegible.isTransparent {e : Encoding} (h : e.IsLegible) : e.IsTransparent := by
  cases e with
  | field q => exact FieldEncoding.IsLegible.isTransparent h
  | value c v =>
    obtain ⟨hc, x, rfl, hx⟩ := h
    exact ⟨Slot.isNameless_of_closed hc, hx⟩
  | autoCount c b => exact ⟨Slot.isNameless_of_closed h.1, h.2⟩

theorem ChartQuery.IsLegible.isTransparent {q : ChartQuery} (h : q.IsLegible) : q.IsTransparent where
  mark := Slot.isNameless_of_closed h.mark
  transform := h.transform
  encodings e he := (h.encodings e (List.mem_filter.mp he).1).isTransparent

end ChartAdvisor
