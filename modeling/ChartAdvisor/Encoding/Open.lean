import ChartAdvisor.Encoding.Basic
import ChartAdvisor.Error.Basic

/-!
# The open slots of an encoding

Which properties of an encoding are open, how one is settled, and how it is put back to
what it was in another encoding. An encoding that refuses a value may have been changed on
the way, so settling gives back the encoding in any case.
-/
namespace ChartAdvisor

/-- An encoding after an attempt to change it, and what went wrong if it failed. -/
abbrev Attempt (σ : Type) := σ × Option DraftError

namespace FieldEncoding

/-- Whether a property is open. -/
def isOpen (q : FieldEncoding) : Property → Bool
  | .channel => q.channel.isOpen
  | .aggregate => q.aggregate.isOpen
  | .timeUnit => q.timeUnit.isOpen
  | .field => q.field.isOpen
  | .type => q.type.isOpen
  | .sort => q.sort.any Slot.isOpen
  | .bin => q.bin.any Toggle.isOpen
  | .scale => q.scale.any Toggle.isOpen
  | .axis => q.axis.any Toggle.isOpen
  | .legend => q.legend.any Toggle.isOpen
  | .maxBins => (q.bin?.bind Bin.maxbins).any Slot.isOpen
  | .scaleOf part => q.scale?.any (·.isOpen part)
  | _ => false

/-- The wildcard of an open property, its candidates as choices. -/
def choices? (q : FieldEncoding) : Property → Option (Wildcard Choice)
  | .channel => q.channel.choices?
  | .aggregate => q.aggregate.choices?
  | .timeUnit => q.timeUnit.choices?
  | .field => q.field.choices?
  | .type => q.type.choices?
  | .sort => q.sort.bind Slot.choices?
  | .bin => q.bin.bind (·.flag.choices?)
  | .scale => q.scale.bind (·.flag.choices?)
  | .axis => q.axis.bind (·.flag.choices?)
  | .legend => q.legend.bind (·.flag.choices?)
  | .maxBins => (q.bin?.bind Bin.maxbins).bind Slot.choices?
  | .scaleOf part => q.scale?.bind (·.choices? part)
  | _ => none

/-- Changes one slot to a chosen value. -/
def settle {α : Type} [Choosable α] (q : FieldEncoding) (p : Property) (c : Choice)
    (put : α → FieldEncoding) : Attempt FieldEncoding :=
  match (ofChoice? c : Option α) with
  | some v => (put v, none)
  | none => (q, some (.mismatch p c))

/-- Settles a switch. A part that was absent is there, switched off, even when the choice is
no switch position. -/
def settleToggle {α : Type} [Settings α] (t : Option (Toggle α)) (p : Property) (c : Choice)
    (put : Option (Toggle α) → FieldEncoding) : Attempt FieldEncoding :=
  let t := t.getD .off
  match (ofChoice? c : Option Bool) with
  | some b => (put (some (t.setFlag b)), none)
  | none => (put (some t), some (.mismatch p c))

/-- Gives a property a value. A field that is not binned carries no bin. A nested property
takes a value only while its parent is there and not switched off. -/
def assign (q : FieldEncoding) (p : Property) (c : Choice) : Attempt FieldEncoding :=
  match p with
  | .channel => q.settle p c fun v => { q with channel := .fixed v }
  | .aggregate => q.settle p c fun v => { q with aggregate := .fixed v }
  | .timeUnit => q.settle p c fun v => { q with timeUnit := .fixed v }
  | .field => q.settle p c fun v => { q with field := .fixed v }
  | .type => q.settle p c fun v => { q with type := .fixed v }
  | .sort => q.settle p c fun v => { q with sort := some (.fixed v) }
  | .bin =>
    q.settle p c fun (b : Bool) =>
      { q with bin := if b then some ((q.bin.getD .off).setFlag true) else none }
  | .scale => settleToggle q.scale p c fun t => { q with scale := t }
  | .axis => settleToggle q.axis p c fun t => { q with axis := t }
  | .legend => settleToggle q.legend p c fun t => { q with legend := t }
  | .maxBins =>
    if q.bin?.isSome then
      q.settle p c fun v =>
        { q with bin := q.bin.map (·.mapInner fun b => { b with maxbins := some (.fixed v) }) }
    else (q, some (.mismatch p c))
  | .scaleOf part =>
    match q.scale? with
    | none => (q, some (.notOfEncoding p))
    | some s =>
      let (s, fits) := s.assign part c
      ({ q with scale := q.scale.map (·.mapInner fun _ => s) },
        if fits then none else some (.mismatch p c))
  | _ => (q, some (.notOfEncoding p))

/-- Puts a property back to what it is in another encoding. -/
def restore (q origin : FieldEncoding) : Property → FieldEncoding
  | .channel => { q with channel := origin.channel }
  | .aggregate => { q with aggregate := origin.aggregate }
  | .timeUnit => { q with timeUnit := origin.timeUnit }
  | .field => { q with field := origin.field }
  | .type => { q with type := origin.type }
  | .sort => { q with sort := origin.sort }
  | .bin => { q with bin := origin.bin }
  | .scale => { q with scale := origin.scale }
  | .axis => { q with axis := origin.axis }
  | .legend => { q with legend := origin.legend }
  | .maxBins =>
    let maxbins := origin.bin?.bind Bin.maxbins
    { q with bin := q.bin.map (·.mapInner fun b => { b with maxbins }) }
  | .scaleOf part =>
    match origin.scale? with
    | some o => { q with scale := q.scale.map (·.mapInner fun s => s.restore o part) }
    | none => q
  | _ => q

end FieldEncoding

namespace Encoding

/-- Whether a property is open. -/
def isOpen (e : Encoding) (p : Property) : Bool :=
  match e with
  | field q => q.isOpen p
  | value c _ => p == .channel && c.isOpen
  | autoCount c b => (p == .channel && c.isOpen) || (p == .autoCount && b.isOpen)

/-- The wildcard of an open property, its candidates as choices. -/
def choices? (e : Encoding) (p : Property) : Option (Wildcard Choice) :=
  match e, p with
  | field q, p => q.choices? p
  | value c _, .channel => c.choices?
  | autoCount c _, .channel => c.choices?
  | autoCount _ b, .autoCount => b.choices?
  | _, _ => none

/-- Gives a property a value. -/
def assign (e : Encoding) (p : Property) (c : Choice) : Attempt Encoding :=
  match e, p with
  | field q, p => let (q, error) := q.assign p c; (field q, error)
  | e, .channel =>
    match (ofChoice? c : Option Channel) with
    | some v => (e.setChannel (.fixed v), none)
    | none => (e, some (.mismatch p c))
  | autoCount ch b, .autoCount =>
    match (ofChoice? c : Option Bool) with
    | some v => (autoCount ch (.fixed v), none)
    | none => (autoCount ch b, some (.mismatch p c))
  | e, p => (e, some (.notOfEncoding p))

/-- Puts a property back to what it is in another encoding of the same kind. The channel is
put back whatever the kinds. -/
def restore (e origin : Encoding) (p : Property) : Encoding :=
  match p with
  | .channel => e.setChannel origin.channel
  | p =>
    match e, origin with
    | field q, field o => field (q.restore o p)
    | autoCount c b, autoCount _ o => autoCount c (if p = .autoCount then o else b)
    | e, _ => e

/-- Whether any property is open that is not excluded. -/
def hasOpen (e : Encoding) (excluded : List Property) : Bool :=
  (Property.encodingTop ++ Property.encodingNested).any fun p =>
    !excluded.contains p && e.isOpen p

end Encoding
end ChartAdvisor
