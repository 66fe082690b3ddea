import ChartAdvisor.Config.Basic
import ChartAdvisor.Encoding.Open
import ChartAdvisor.Schema.Basic

/-!
# Naming and filling open slots

An open slot that has no name is called by the label of its property and the number of its
encoding. One that has no candidates gets those of the configuration, or the fields of the
schema. `Encoding.fill` does this to every open slot of an encoding and lists them.
-/
namespace ChartAdvisor

/-- What an open slot tries when the query names no candidates. -/
def Property.defaults (p : Property) (schema : Schema) (config : Config) : List Choice :=
  match p with
  | .mark => config.marks.map .mark
  | .channel => config.channels.map .channel
  | .aggregate => config.aggregates.map .aggregate
  | .autoCount | .hasFunction => [.flag false, .flag true]
  | .bin | .scale | .axis | .legend => [.flag true, .flag false]
  | .maxBins => config.maxBinsList.map .count
  | .timeUnit => config.timeUnits.map .timeUnit
  | .field => schema.names.map .field
  | .type => config.types.map .type
  | .scaleOf .type => config.scaleTypes.map .scaleType
  | .scaleOf .bandSize => config.scaleBandSizes.map .count
  | .scaleOf .domain => config.scaleDomains.map .json
  | .scaleOf .range => config.scaleRanges.map .json
  | .scaleOf .exponent => config.scaleExponents.map .number
  | .scaleOf .clamp | .scaleOf .nice | .scaleOf .round | .scaleOf .useRawDomain
  | .scaleOf .zero => [.flag true, .flag false]
  | .sort => config.sortOrders.map fun o => .sort (.order o)
  | .transform | .stack => []

/-- The name of an open slot that the query leaves unnamed. -/
def Property.slotName (p : Property) (index : Nat) : String := p.label ++ toString index

/-- What is needed to fill the open slots of an encoding: its number, and where default
candidates come from. -/
structure Filling where
  index : Nat
  schema : Schema
  config : Config

/-- What is known of an open slot once it is filled: its name and the values to try. -/
structure Candidates (α : Type) where
  name : String
  values : List α
deriving DecidableEq

namespace Candidates

variable {α : Type}

def toWildcard (c : Candidates α) : Wildcard α := ⟨some c.name, some c.values⟩

end Candidates

/-- The open slots of an encoding by property. -/
abbrev OpenSlots := List (Property × Candidates Choice)

namespace Filling

variable (f : Filling)

/-- The name and the values of an open slot. -/
def candidates {α : Type} [Choosable α] (p : Property) (w : Wildcard α) : Candidates α where
  name := w.name.getD (p.slotName f.index)
  values := w.candidates.getD ((p.defaults f.schema f.config).filterMap ofChoice?)

/-- A slot whose wildcard is filled, and the open slot if it is one. -/
def slot {α : Type} [Choosable α] (p : Property) : Slot α → Slot α × OpenSlots
  | .fixed v => (.fixed v, [])
  | .wild w =>
    let c := f.candidates p w
    (.wild c.toWildcard, [(p, ⟨c.name, c.values.map toChoice⟩)])

/-- A slot that may be absent. -/
def slot? {α : Type} [Choosable α] (p : Property) : Option (Slot α) → Option (Slot α) × OpenSlots
  | none => (none, [])
  | some s => let (s, opened) := f.slot p s; (some s, opened)

/-- A part that can be switched on, its switch filled and then its settings. -/
def toggle {α : Type} (p : Property) (inner : α → α × OpenSlots) :
    Option (Toggle α) → Option (Toggle α) × OpenSlots
  | none => (none, [])
  | some .off => (some .off, [])
  | some (.on t) => let (t, opened) := inner t; (some (.on t), opened)
  | some (.wild w t) =>
    let c := f.candidates p w
    let (t, opened) := inner t
    (some (.wild c.toWildcard t), (p, ⟨c.name, c.values.map toChoice⟩) :: opened)

/-- A bin with its number of bins filled. -/
def bin (b : Bin) : Bin × OpenSlots :=
  let (maxbins, opened) := f.slot? .maxBins b.maxbins
  ({ b with maxbins }, opened)

/-- A scale with the listed parts filled in turn. -/
def scaleParts : List ScaleProperty → Scale → Scale × OpenSlots
  | [], s => (s, [])
  | p :: rest, s =>
    let (v, opened) := f.slot? (.scaleOf p) (s.get p)
    let (s, more) := scaleParts rest (s.put p v)
    (s, opened ++ more)

def scale (s : Scale) : Scale × OpenSlots := f.scaleParts Property.scaleParts s

def guide (g : Guide) : Guide × OpenSlots := (g, [])

/-- A field encoding filled; a bin that is switched off is dropped. -/
def field (q : FieldEncoding) : FieldEncoding × OpenSlots :=
  let (channel, s₁) := f.slot .channel q.channel
  let (aggregate, s₂) := f.slot .aggregate q.aggregate
  let (bin, s₃) := f.toggle .bin f.bin (q.bin.filter Toggle.isPresent)
  let (timeUnit, s₄) := f.slot .timeUnit q.timeUnit
  let (field, s₅) := f.slot .field q.field
  let (type, s₆) := f.slot .type q.type
  let (scale, s₇) := f.toggle .scale f.scale q.scale
  let (sort, s₈) := f.slot? .sort q.sort
  let (axis, s₉) := f.toggle .axis guide q.axis
  let (legend, s₁₀) := f.toggle .legend guide q.legend
  ({ q with channel, aggregate, bin, timeUnit, field, type, scale, sort, axis, legend },
    s₁ ++ s₂ ++ s₃ ++ s₄ ++ s₅ ++ s₆ ++ s₇ ++ s₈ ++ s₉ ++ s₁₀)

end Filling

/-- The encoding with every open slot named and filled, and its open slots in the order of
their properties. -/
def Encoding.fill (f : Filling) : Encoding → Encoding × OpenSlots
  | .field q => let (q, opened) := f.field q; (.field q, opened)
  | .value c v => let (c, opened) := f.slot .channel c; (.value c v, opened)
  | .autoCount c b =>
    let (c, s₁) := f.slot .channel c
    let (b, s₂) := f.slot .autoCount b
    (.autoCount c b, s₁ ++ s₂)

end ChartAdvisor
