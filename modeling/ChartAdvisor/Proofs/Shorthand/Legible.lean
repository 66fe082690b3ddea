import ChartAdvisor.Proofs.Encoding.Coding
import ChartAdvisor.Shorthand.Printer

/-!
# Queries that read back from their shorthand

A query is legible when nothing in it is open and nothing in it would be read as something else: a
name with a delimiter in it, settings that look like a wildcard, two functions of one field, a
switched-off bin, a switched-on part without settings. Only the order of the encodings and the
auto counts do not come back: one that is switched off is not written, one that is switched on is
written as the count of all rows and read as that.
-/
namespace ChartAdvisor

/-- A name without the characters that cut a shorthand. -/
def IsPlainName (name : String) : Prop :=
  ∀ c ∈ name.toList, c ∉ [',', '|', '(', ')', '[', ']', '{', '}', '"', '?', '=', '\n']

theorem IsPlainName.not_mem {name : String} (h : IsPlainName name) {c : Char}
    (hc : c ∈ [',', '|', '(', ')', '[', ']', '{', '}', '"', '?', '=', '\n']) : c ∉ name.toList :=
  fun hmem => h c hmem hc

/-- A part that is switched off, or on with settings of a kind. -/
def Toggle.IsSettled {α : Type} (P : α → Prop) : Toggle α → Prop
  | off => True
  | on t => P t
  | wild .. => False

structure Bin.IsLegible (b : Bin) : Prop where
  maxbins : ∀ s ∈ b.maxbins, s.isOpen = false
  parameter : ∀ p v, b.get? p = some v →
    v.Legible Json.depthLimit ∧ ∀ s, v = .text s → '"' ∉ s.toList

structure Guide.IsLegible (g : Guide) : Prop where
  legible : (Json.object g.members).Legible Json.depthLimit
  nonempty : g.members ≠ []
  keys : ∀ key ∈ Wildcard.keys, g.members.lookup key = none

namespace FieldEncoding

structure IsLegible (q : FieldEncoding) : Prop where
  channel : q.channel.isOpen = false
  type : q.type.isOpen = false
  field : ∃ name, q.field = .fixed name ∧ IsPlainName name
  hasFunction : q.hasFunction = false
  aggregate : q.aggregate.isOpen = false
  /-- The names of these two functions have a digit in them. -/
  aggregateName : q.aggregate? ≠ some .q1 ∧ q.aggregate? ≠ some .q3
  timeUnit : q.timeUnit.isOpen = false
  bin : ∀ t ∈ q.bin, ∃ b, t = .on b ∧ b.IsLegible
  single : [q.aggregate?.isSome, q.timeUnit?.isSome, q.bin.isSome].count true ≤ 1
  scale : ∀ t ∈ q.scale, t.IsSettled Scale.IsLegible
  sort : ∀ s ∈ q.sort, s.isOpen = false
  axis : ∀ t ∈ q.axis, t.IsSettled Guide.IsLegible ∧ q.channel.value?.all Channel.supportsAxis
  legend : ∀ t ∈ q.legend, t.IsSettled Guide.IsLegible ∧ q.channel.value?.all Channel.supportsLegend

/-- The count of all rows as a field. -/
def countOfRows (c : Slot Channel) : FieldEncoding where
  channel := c
  aggregate := .fixed (some .count)
  field := .fixed "*"
  type := .fixed .quantitative

end FieldEncoding

namespace Encoding

def IsLegible : Encoding → Prop
  | field q => q.IsLegible
  | value c v => c.isOpen = false ∧ ∃ x, v = .fixed x ∧ x.Legible Json.depthLimit ∧ ¬x.LooksOpen
  | autoCount c b => c.isOpen = false ∧ b.isOpen = false

/-- What is read where an encoding is written. -/
def reread : Encoding → Encoding
  | autoCount c _ => field (.countOfRows c)
  | e => e

end Encoding

structure ChartQuery.IsLegible (q : ChartQuery) : Prop where
  data : q.data = none
  mark : q.mark.isOpen = false
  transform : ∀ steps ∈ q.transform, steps ≠ [] ∧ ∀ v ∈ steps, v.Legible (Json.depthLimit - 1)
  encodings : ∀ e ∈ q.encodings, e.IsLegible
  config : q.config = none

end ChartAdvisor
