import ChartAdvisor.Encoding.Fill
import ChartAdvisor.Ranking.Score
import ChartAdvisor.Shorthand.Printer

/-!
# Drafts

A draft is a query whose open slots have names and values to try, together with what has been
chosen so far. The query as it was built stays with it, so that every choice can be taken
back. A draft counts how many encodings sit on each channel.
-/
namespace ChartAdvisor

/-- The open slots of a built query: that of the mark, and those of each encoding by number. -/
structure SlotIndex where
  mark : Option (Candidates Mark)
  encodings : List OpenSlots

namespace SlotIndex

/-- The open slots of an encoding. -/
def ofEncoding (s : SlotIndex) (index : Nat) : OpenSlots := s.encodings[index]?.getD []

/-- The name and the values of the slot of a property, if it is open. -/
def slot? (s : SlotIndex) (index : Nat) (p : Property) : Option (Candidates Choice) :=
  (s.ofEncoding index).lookup p

/-- The numbers of the encodings in which a property is open, ascending. -/
def indices (s : SlotIndex) (p : Property) : List Nat :=
  (List.range s.encodings.length).filter fun i => (s.slot? i p).isSome

/-- Whether a property is open anywhere. -/
def has (s : SlotIndex) (p : Property) : Bool :=
  if p = .mark then s.mark.isSome else !(s.indices p).isEmpty

/-- The open properties of the encodings in the order in which they first appear. -/
def properties (s : SlotIndex) : List Property :=
  (s.encodings.flatMap fun slots => slots.map Prod.fst).foldl
    (fun found p => if found.contains p then found else found ++ [p]) []

/-- Every name, that of the mark first. -/
def names (s : SlotIndex) : List String :=
  (s.mark.map Candidates.name).toList ++
    s.encodings.flatMap fun slots => slots.map fun (_, c) => c.name

def isEmpty (s : SlotIndex) : Bool := s.mark.isNone && s.encodings.all List.isEmpty

end SlotIndex

/-- How many encodings sit on each channel. -/
structure ChannelCount where
  entries : List (Channel × Nat) := []

namespace ChannelCount

def get (n : ChannelCount) (c : Channel) : Nat := (n.entries.lookup c).getD 0

def set (n : ChannelCount) (c : Channel) (count : Nat) : ChannelCount :=
  ⟨(c, count) :: n.entries.filter (·.1 != c)⟩

def add (n : ChannelCount) (c : Channel) : ChannelCount := n.set c (n.get c + 1)

def remove (n : ChannelCount) (c : Channel) : ChannelCount := n.set c (n.get c - 1)

/-- Counts an encoding that moves from one channel, or none, to another. -/
def move (n : ChannelCount) (before after : Option Channel) : ChannelCount :=
  if before = after then n
  else
    let n := match before with
      | some c => n.remove c
      | none => n
    match after with
    | some c => n.add c
    | none => n

@[simp]
theorem get_set (n : ChannelCount) (c d : Channel) (count : Nat) :
    (n.set c count).get d = if d = c then count else n.get d := by
  by_cases h : d = c
  · simp [get, set, h]
  · have differs : (d == c) = false := by simp [h]
    have skip (l : List (Channel × Nat)) : (l.filter (·.1 != c)).lookup d = l.lookup d := by
      induction l with
      | nil => rfl
      | cons e rest ih =>
        obtain ⟨k, v⟩ := e
        by_cases hk : k = c
        · subst hk
          simp [ih, List.lookup_cons, differs]
        · simp [hk, ih, List.lookup_cons]
    simp [get, set, h, List.lookup_cons, skip, differs]

end ChannelCount

/-- The channel on which an encoding counts; a count of rows that is switched off sits nowhere. -/
def Encoding.countedChannel? (e : Encoding) : Option Channel :=
  if e.isDisabledAutoCount then none else e.channel?

/-- A built query on its way to a chart. -/
structure Draft where
  /-- The query as it was built, every open slot filled. -/
  origin : ChartQuery
  slots : SlotIndex
  /-- Settings that the finished chart starts from. -/
  defaults : Json.Members
  /-- The query with the choices made so far. -/
  query : ChartQuery
  channelCount : ChannelCount
  /-- The choices made so far, by ascending name of the slot. -/
  assignment : List (String × Choice) := []
  /-- The scores computed so far, by ascending name of the ranking. -/
  scores : List (String × Score) := []

namespace Draft

/-- The mark with its wildcard filled, and what is known of it if it is open. -/
def fillMark (config : Config) : Slot Mark → Slot Mark × Option (Candidates Mark)
  | .fixed m => (.fixed m, none)
  | .wild w =>
    let c : Candidates Mark := ⟨w.name.getD (Property.mark.label), w.candidates.getD config.marks⟩
    (.wild c.toWildcard, some c)

/-- A count of rows that may be added to the query, its channel and its switch open. -/
def openCount (config : Config) (index : Nat) : Encoding × OpenSlots :=
  let channel : Candidates Channel := ⟨Property.channel.slotName index, config.channels⟩
  let switch : Candidates Bool := ⟨Property.autoCount.slotName index, [false, true]⟩
  (.autoCount (.wild channel.toWildcard) (.wild switch.toWildcard),
    [(.channel, ⟨channel.name, channel.values.map toChoice⟩),
      (.autoCount, ⟨switch.name, switch.values.map toChoice⟩)])

/-- The encodings of a query filled, with their open slots. -/
def fillEncodings (schema : Schema) (config : Config) (encodings : List Encoding) :
    List (Encoding × OpenSlots) :=
  let filled := encodings.zipIdx.map fun (e, index) => e.fill { index, schema, config }
  if config.autoAddCount then filled ++ [openCount config encodings.length] else filled

/-- How many of the encodings sit on each channel. -/
def countChannels (encodings : List Encoding) : ChannelCount :=
  (encodings.filterMap Encoding.countedChannel?).foldl ChannelCount.add {}

/-- Names every open slot, fills the values to try, and adds a count of rows where the
configuration asks for one. No two slots may have one name. -/
def build (q : ChartQuery) (schema : Schema) (config : Config) : Except DraftError Draft :=
  match q.stackOffset with
  | .error v => .error (.badStackOffset v)
  | .ok _ =>
    let (mark, markSlot) := fillMark config q.mark
    let filled := fillEncodings schema config q.encodings
    let slots : SlotIndex := ⟨markSlot, filled.map Prod.snd⟩
    match Table.firstRepeated? [] slots.names with
    | some name => .error (.duplicateName name)
    | none =>
      let origin := { q with mark, encodings := filled.map Prod.fst }
      .ok { origin, slots, defaults := config.defaultSpecConfig, query := origin,
            channelCount := countChannels origin.encodings }

/-- The encodings that play a part. -/
def active (d : Draft) : List Encoding := d.query.active

def encoding? (d : Draft) (index : Nat) : Option Encoding := d.query.encodings[index]?

/-- The first encoding that plays a part on a channel. -/
def onChannel? (d : Draft) (c : Channel) : Option Encoding := d.active.find? (·.channel.is c)

def channelUsed (d : Draft) (c : Channel) : Bool := 0 < d.channelCount.get c

def isDimension (d : Draft) (c : Channel) : Bool := (d.onChannel? c).any Encoding.isDimension

def isMeasure (d : Draft) (c : Channel) : Bool := (d.onChannel? c).any Encoding.isMeasure

def isAggregate (d : Draft) : Bool := d.query.isAggregate

/-- The finished chart; there is none as long as something in it is open. -/
def toChart? (d : Draft) : Option Chart := d.query.toChart? d.defaults

def shorthand (d : Draft) : String := d.query.shorthand

/-! ## Choices -/

/-- The name of the open slot of a property. -/
def slotName (d : Draft) (index : Nat) (p : Property) : Except DraftError String :=
  if d.query.encodings.length ≤ index then .error (.outOfRange index d.query.encodings.length)
  else
    match d.slots.slot? index p with
    | some c => .ok c.name
    | none => .error (.notOpen p index)

/-- The draft with an encoding changed and its channel counted anew. -/
def putEncoding (d : Draft) (index : Nat) (before after : Encoding) : Draft :=
  { d with
    query := { d.query with encodings := d.query.encodings.set index after }
    channelCount := d.channelCount.move before.countedChannel? after.countedChannel? }

/-- Chooses a mark. -/
def setMark (d : Draft) (m : Mark) : Attempt Draft :=
  match d.slots.mark with
  | none => (d, some .markNotOpen)
  | some c =>
    ({ d with
        query := { d.query with mark := .fixed m }
        assignment := Table.insert c.name (.mark m) d.assignment }, none)

/-- Takes the choice of the mark back. -/
def resetMark (d : Draft) : Draft :=
  match d.slots.mark with
  | none => d
  | some c =>
    { d with
      query := { d.query with mark := .wild c.toWildcard }
      assignment := Table.erase c.name d.assignment }

/-- Chooses a value for a property of an encoding. A part that can be switched on takes its
settings from the query as it was built. If the encoding refuses the value, it keeps what
changed on the way, and nothing is chosen. -/
def assign (d : Draft) (index : Nat) (p : Property) (c : Choice) : Attempt Draft :=
  match d.slotName index p, d.encoding? index with
  | .error e, _ => (d, some e)
  | .ok _, none => (d, some (.outOfRange index d.query.encodings.length))
  | .ok name, some before =>
    let fresh := match p.holdsSettings, d.origin.encodings[index]? with
      | true, some o => before.restore o p
      | _, _ => before
    match fresh.assign p c with
    | (after, some e) =>
      ({ d with query := { d.query with encodings := d.query.encodings.set index after } }, some e)
    | (after, none) =>
      ({ d.putEncoding index before after with assignment := Table.insert name c d.assignment }, none)

/-- Takes the choice for a property of an encoding back. -/
def reset (d : Draft) (index : Nat) (p : Property) : Attempt Draft :=
  match d.slotName index p, d.encoding? index, d.origin.encodings[index]? with
  | .error e, _, _ => (d, some e)
  | .ok name, some before, some o =>
    ({ d.putEncoding index before (before.restore o p) with
        assignment := Table.erase name d.assignment }, none)
  | .ok _, _, _ => (d, some (.outOfRange index d.origin.encodings.length))

end Draft
end ChartAdvisor
