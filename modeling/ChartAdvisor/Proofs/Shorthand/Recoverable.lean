import ChartAdvisor.Proofs.Encoding.Recoding
import ChartAdvisor.Proofs.Shorthand.Enclosure
import ChartAdvisor.Proofs.Shorthand.Transparent

/-!
# Queries that come back from their shorthand

A query is recoverable when what is written of it is read as the query again. That takes less than
being transparent: a name may hold brackets and quotes that it closes, a switch beside settings may have a
name, and a count of rows may be open.
-/
namespace ChartAdvisor

namespace Shorthand

/-- The characters at which a shorthand is not cut into parts. -/
def isUncut (c : Char) : Bool := c != '|'

end Shorthand

open Shorthand

/-! ## Names -/

/-- A name that ends at the comma behind it and is not taken for an open slot. It closes the brackets
and quotes that it opens. -/
structure IsFieldName (name : String) : Prop where
  comma : ',' ∉ name.toList
  mark : ∀ rest, name.toList ≠ '?' :: rest
  enclosed : Enclosed isUncut name.toList

theorem IsPlainName.isFieldName {name : String} (h : IsPlainName name) : IsFieldName name where
  comma := h.not_mem (by decide)
  mark _ heq := h.not_mem (by decide) (heq ▸ List.mem_cons_self)
  enclosed := by
    refine .of_forall fun c hc => ?_
    have hplain := h c hc
    simp only [List.mem_cons, List.not_mem_nil, or_false, not_or] at hplain
    obtain ⟨-, hbar, -, -, hopen, hclose, hopen', hclose', hquote, -⟩ := hplain
    exact ⟨by simpa [isUncut] using hbar, hquote, by simp [isOpening, hopen, hopen'],
      by simp [isClosing, hclose, hclose']⟩

/-- An open slot without a name, whose text ends at the comma behind it. -/
structure Wildcard.IsCommaFree {α : Type} [Coded α] (w : Wildcard α) : Prop where
  name : w.name = none
  comma : ',' ∉ w.shorthand.toList

/-! ## Parts of a field -/

/-- Every part that is set is legible, reads back and does not look absent. -/
def Scale.IsRecoverable (s : Scale) : Prop :=
  ∀ p v, s.get p = some v → ReadsBack v ∧ (encode v).sorted ≠ .null ∧
    (encode v).sorted.Legible (Json.depthLimit - 1)

def Guide.IsRecoverable (g : Guide) : Prop := (Json.object g.members).Legible Json.depthLimit

/-- A part that is switched off, or on with settings of a kind, or open in its switch, of which something
is said beside settings. No setting has a key of the switch. -/
def Toggle.IsRecoverable {α : Type} (members : α → Json.Members) (P : α → Prop) : Toggle α → Prop
  | off => True
  | on t => P t ∧ members t ≠ [] ∧ ∀ key ∈ Wildcard.keys, (members t).lookup key = none
  | wild w t => P t ∧ (members t = [] → w.name = none) ∧ (members t ≠ [] → w.isShort = false) ∧
      (members t).lookup "name" = none ∧ (members t).lookup "enum" = none ∧
      (w.candidates = none → (members t).lookup "values" = none)

namespace Scale

theorem IsTransparent.isRecoverable {s : Scale} (h : s.IsTransparent) : s.IsRecoverable := by
  intro p v hv
  obtain ⟨hlegible, hfixed⟩ := h p v hv
  rw [ReadsBack, hlegible.ordered.sorted_eq]
  cases v with
  | fixed x => exact ⟨Slot.decode_encode_fixed (hfixed x rfl).1, (hfixed x rfl).2, hlegible⟩
  | wild w => exact ⟨Slot.decode_encode_wild w, Slot.encode_wild_ne_null w, hlegible⟩

theorem IsRecoverable.json?_eq {s : Scale} (h : s.IsRecoverable) (p : ScaleProperty) :
    s.json? p = (s.get p).map fun v => (encode v).sorted := by
  unfold json?
  cases hv : s.get p with
  | none => rfl
  | some v =>
    have hkept : (encode v).sorted.isNull = false := by
      cases hx : (encode v).sorted with
      | null => exact absurd hx (h p v hv).2.1
      | bool | number | text | list | object => rfl
    rw [Option.map_some, Option.filter_some, hkept]
    rfl

/-- A scale reads back from members that hold what is set of it. -/
theorem IsRecoverable.decode_eq {s : Scale} (h : s.IsRecoverable) {members : Json.Members}
    (hmembers : ∀ p, members.lookup (Vocabulary.name p) = s.json? p) :
    decode (.object members) = Except.ok s := by
  have hpart (p : ScaleProperty) (position : Nat) :
      (Record.named members).optionalByName (Vocabulary.name p) position = .ok (s.get p) :=
    Record.optional_readsBack ((hmembers p).trans (h.json?_eq p))
      fun v hv => ⟨(h p v hv).1, (h p v hv).2.1⟩
  have hparts := decode_parts hpart recordOrder 0 {}
  rw [foldl_put_get] at hparts
  exact hparts

end Scale

/-! ## Functions -/

namespace FieldEncoding

/-- A field without the function that is applied to it. -/
def withoutFunction (q : FieldEncoding) : FieldEncoding :=
  { q with aggregate := .fixed none, timeUnit := .fixed none, hasFunction := false, bin := none }

/-- A field has an aggregate, a time unit, a bin, open functions or none of them. -/
inductive Applied (q : FieldEncoding) : Prop
  | aggregate (op : Aggregate) (written : op ≠ .q1 ∧ op ≠ .q3)
      (eq : q = { q.withoutFunction with aggregate := .fixed (some op) })
  | timeUnit (unit : TimeUnit)
      (eq : q = { q.withoutFunction with timeUnit := .fixed (some unit) })
  | bin (b : Bin) (eq : q = { q.withoutFunction with bin := some (.on b) })
  | opened (isOpen : q.hasOpenFunction = true) (aggregate : q.aggregate? = none)
      (timeUnit : q.timeUnit? = none) (bin : q.isBinned = false)
  | none (eq : q = q.withoutFunction)

/-- Of four conditions that do not hold in pairs none holds beside the last. -/
theorem apart_of_count_le_one : ∀ {a b c d : Bool}, [a, b, c, d].count true ≤ 1 →
    (d = true → a = false ∧ b = false ∧ c = false) ∧
      (a && b) = false ∧ (a && c) = false ∧ (b && c) = false := by
  decide

theorem Applied.of_single {q : FieldEncoding}
    (single : [q.aggregate?.isSome, q.timeUnit?.isSome, q.isBinned, q.hasOpenFunction].count true ≤ 1)
    (aggregateName : q.aggregate? ≠ some .q1 ∧ q.aggregate? ≠ some .q3)
    (hasFunction : q.hasFunction = true → q.hasOpenFunction = true)
    (bin : ∀ t ∈ q.bin, t ≠ .off) : q.Applied := by
  obtain ⟨hopened, haggregateUnit, haggregateBin, hunitBin⟩ := apart_of_count_le_one single
  cases hopen : q.hasOpenFunction with
  | true =>
    obtain ⟨haggregate, hunit, hbin⟩ := hopened hopen
    exact .opened hopen (by simpa using haggregate) (by simpa using hunit) hbin
  | false =>
    have hfunction : q.hasFunction = false := by
      cases hf : q.hasFunction with
      | false => rfl
      | true => exact absurd (hopen.symm.trans (hasFunction hf)) Bool.false_ne_true
    simp only [hasOpenFunction, Bool.or_eq_false_iff] at hopen
    obtain ⟨⟨haggregateClosed, hunitClosed⟩, hbinClosed⟩ := hopen
    clear hopened single hasFunction
    cases q with
    | mk channel a u f b scale sort field type axis legend =>
      obtain rfl : f = false := hfunction
      cases a with
      | wild w => exact absurd haggregateClosed Bool.noConfusion
      | fixed op =>
        cases u with
        | wild w => exact absurd hunitClosed Bool.noConfusion
        | fixed unit =>
          cases b with
          | none =>
            cases op with
            | none =>
              cases unit with
              | none => exact .none rfl
              | some unit => exact .timeUnit unit rfl
            | some op =>
              cases unit with
              | none =>
                exact .aggregate op (by simpa [aggregate?, Slot.value?] using aggregateName) rfl
              | some unit => exact absurd haggregateUnit Bool.noConfusion
          | some t =>
            cases t with
            | off => exact absurd rfl (bin _ rfl)
            | wild w b => exact absurd hbinClosed Bool.noConfusion
            | on b =>
              cases op with
              | none =>
                cases unit with
                | none => exact .bin b rfl
                | some unit => exact absurd hunitBin Bool.noConfusion
              | some op => exact absurd haggregateBin Bool.noConfusion

theorem IsTransparent.applied {q : FieldEncoding} (h : q.IsTransparent) : q.Applied := by
  refine .of_single h.single h.aggregateName h.hasFunction fun t ht => ?_
  rcases h.bin t ht with ⟨b, rfl, -⟩ | ⟨w, b, rfl, -⟩ <;> exact nofun

/-- Whether a function is fixed that is applied to the field. -/
def isCalled (q : FieldEncoding) : Bool := q.aggregate?.isSome || q.timeUnit?.isSome || q.isBinned

/-! ## Fields, encodings and queries -/

structure IsRecoverable (q : FieldEncoding) : Prop where
  channel : q.channel.IsNameless
  name : ∀ n, q.field = .fixed n → IsFieldName n
  names : ∀ w, q.field = .wild w → w.IsCommaFree
  type : ∀ w, q.type = .wild w → w.IsCommaFree
  applied : q.Applied
  /-- The call of a function stands on one line. -/
  line : q.isCalled = true → ∀ n, q.field = .fixed n → '\n' ∉ n.toList
  /-- A name by itself is not taken for a constant. -/
  constant : q.isCalled = false → q.hasOpenFunction = false →
    ∀ n, q.field = .fixed n → ¬"value=".toList <+: n.toList
  aggregate : q.aggregate.IsNameless
  timeUnit : q.timeUnit.IsNameless
  bin : ∀ t ∈ q.bin, (∃ b, t = .on b ∧ b.IsTransparent) ∨
    ∃ w b, t = .wild w b ∧ w.name = none ∧ b.IsTransparent
  scale : ∀ t ∈ q.scale, t.IsRecoverable (scaleMembers Include.all) Scale.IsRecoverable
  sort : ∀ s ∈ q.sort, s.IsNameless
  axis : ∀ t ∈ q.axis, t.IsRecoverable Guide.members Guide.IsRecoverable ∧
    q.channel.value?.all Channel.supportsAxis
  legend : ∀ t ∈ q.legend, t.IsRecoverable Guide.members Guide.IsRecoverable ∧
    q.channel.value?.all Channel.supportsLegend

theorem IsRecoverable.exists_bin {q : FieldEncoding} (h : q.IsRecoverable) {t : Toggle Bin}
    (ht : q.bin = some t) : ∃ b, q.bin? = some b ∧ b.IsTransparent := by
  rw [bin?, ht]
  rcases h.bin t ht with ⟨b, rfl, hb⟩ | ⟨w, b, rfl, -, hb⟩
  · exact ⟨b, rfl, hb⟩
  · exact ⟨b, rfl, hb⟩

end FieldEncoding

namespace Encoding

def IsRecoverable : Encoding → Prop
  | field q => q.IsRecoverable
  | value c v => c.IsNameless ∧ v.IsTransparent
  | autoCount c b => c.IsNameless ∧ b.IsNameless

/-- What is read where an encoding is written: a count of rows that is switched on is read as a field. -/
def told : Encoding → Encoding
  | autoCount c (.fixed _) => field (.countOfRows c)
  | e => e

theorem IsRecoverable.nameless {e : Encoding} (h : e.IsRecoverable) : e.channel.IsNameless := by
  cases e with
  | field q => exact FieldEncoding.IsRecoverable.channel h
  | value c v => exact h.1
  | autoCount c b => exact h.1

/-- An auto count that is written is switched on or open. -/
theorem eq_true_or_wild_of_shown {c : Slot Channel} {b : Slot Bool}
    (shown : (autoCount c b).isDisabledAutoCount = false) : b = .fixed true ∨ ∃ w, b = .wild w := by
  cases b with
  | wild w => exact .inr ⟨w, rfl⟩
  | fixed b =>
    cases b with
    | false => contradiction
    | true => exact .inl rfl

theorem IsRecoverable.eq_true_or_wild {c : Slot Channel} {b : Slot Bool}
    (h : (autoCount c b).IsRecoverable) (shown : (autoCount c b).isDisabledAutoCount = false) :
    b = .fixed true ∨ ∃ w, b = .wild w ∧ w.name = none := by
  obtain rfl | ⟨w, rfl⟩ := eq_true_or_wild_of_shown shown
  · exact .inl rfl
  · exact .inr ⟨w, rfl, h.2 w rfl⟩

end Encoding

/-- Reading what is written of the query gives it back, without its data, its settings and the auto counts
that are switched off. -/
structure ChartQuery.IsRecoverable (q : ChartQuery) : Prop where
  mark : q.mark.IsNameless
  transform : ∀ steps ∈ q.transform, steps ≠ [] ∧ ∀ v ∈ steps, v.Legible (Json.depthLimit - 1)
  encodings : ∀ e ∈ q.active, e.IsRecoverable

end ChartAdvisor
