import ChartAdvisor.Vocabulary.Basic

/-!
# Slots

A `Slot` holds a fixed value or is open: a wildcard, written `"?"` or as an object with a
name and a list of candidates. A `Toggle` is a part that is switched off, switched on with
settings, or open in its switch.
-/
namespace ChartAdvisor

/-- An open place: how it is called, and the values to try. -/
structure Wildcard (α : Type) where
  name : Option String := none
  candidates : Option (List α) := none
deriving DecidableEq

namespace Wildcard

variable {α β : Type}

/-- The wildcard that says nothing, written `"?"`. -/
def short : Wildcard α := {}

def ofCandidates (values : List α) : Wildcard α := { candidates := some values }

def isShort (w : Wildcard α) : Bool := w.name.isNone && w.candidates.isNone

def map (f : α → β) (w : Wildcard α) : Wildcard β := ⟨w.name, w.candidates.map (·.map f)⟩

/-- The text that stands for an open place. -/
def mark : String := "?"

/-- The name and the candidates that are present, as members of an object. -/
def members [Coded α] (w : Wildcard α) : Json.Members :=
  (w.name.map fun n => ("name", .text n)).toList ++
    (w.candidates.map fun vs => ("enum", encode vs)).toList

def toJson [Coded α] (w : Wildcard α) : Json :=
  if w.isShort then .text mark else .object w.members

/-- `?`, followed by the list of candidates where there is one. -/
def shorthand [Coded α] (w : Wildcard α) : String :=
  match w.candidates with
  | some vs => mark ++ (encode vs).compact
  | none => mark

/-- The keys that an object written for a wildcard may have. -/
def keys : List String := ["name", "enum", "values"]

/-- Whether the members of an object describe a wildcard. -/
def isWildcardObject (members : Json.Members) : Bool :=
  !members.isEmpty && members.all fun (k, _) => keys.contains k

/-- Recognises the two forms of a wildcard; any other value yields `none`. A name that is no
text is dropped. -/
def ofJson? [Coded α] : Json → Except JsonError (Option (Wildcard α))
  | .text s => .ok (if s = mark then some short else none)
  | .object members =>
    if isWildcardObject members then
      let name := (Json.lookup members "name").bind Json.text?
      match (Json.lookup members "enum").or (Json.lookup members "values") with
      | some vs => (decode vs).map fun vs => some ⟨name, some vs⟩
      | none => .ok (some ⟨name, none⟩)
    else .ok none
  | _ => .ok none

end Wildcard

/-- A value that is fixed or open. -/
inductive Slot (α : Type)
  | fixed (value : α)
  | wild (w : Wildcard α)
deriving DecidableEq

namespace Slot

variable {α : Type}

def isOpen : Slot α → Bool
  | wild _ => true
  | fixed _ => false

def value? : Slot α → Option α
  | fixed v => some v
  | wild _ => none

def wildcard? : Slot α → Option (Wildcard α)
  | fixed _ => none
  | wild w => some w

/-- Whether the slot holds exactly this value. -/
def is [BEq α] (s : Slot α) (v : α) : Bool :=
  match s with
  | fixed u => u == v
  | wild _ => false

instance [Coded α] : Coded (Slot α) where
  encode
    | fixed v => encode v
    | wild w => w.toJson
  decode v :=
    match Wildcard.ofJson? v with
    | .error e => .error e
    | .ok (some w) => .ok (wild w)
    | .ok none => (decode v).map fixed

end Slot

/-- The settings of a part that can be switched on. -/
class Settings (α : Type) extends Coded α where
  /-- Nothing set. -/
  none : α
  isEmpty : α → Bool

/-- A part that is switched off, switched on, or open in its switch. -/
inductive Toggle (α : Type)
  | off
  | on (inner : α)
  | wild (flag : Wildcard Bool) (inner : α)
deriving DecidableEq

namespace Toggle

variable {α : Type}

def isOpen : Toggle α → Bool
  | wild .. => true
  | _ => false

def isOn : Toggle α → Bool
  | on _ => true
  | _ => false

/-- False only when the part is switched off for good. -/
def isPresent : Toggle α → Bool
  | off => false
  | _ => true

def inner? : Toggle α → Option α
  | off => none
  | on t => some t
  | wild _ t => some t

/-- Changes the settings where there are any. -/
def mapInner (f : α → α) : Toggle α → Toggle α
  | off => off
  | on t => on (f t)
  | wild w t => wild w (f t)

/-- The switch as a slot. -/
def flag : Toggle α → Slot Bool
  | off => .fixed false
  | on _ => .fixed true
  | wild w _ => .wild w

/-- Settles the switch; settings are kept when it is switched on. -/
def setFlag [Settings α] (t : Toggle α) (b : Bool) : Toggle α :=
  if b then on (t.inner?.getD Settings.none) else off

def toJson [Settings α] : Toggle α → Json
  | off => .bool false
  | on t => if Settings.isEmpty t then .bool true else encode t
  | wild w t =>
    if Settings.isEmpty t then w.toJson
    else .object (Json.extend ((encode t).sorted.object?.getD []) w.members)

/-- Reads a switch: `false` or `null`, `true`, `"?"`, or an object that holds the settings
and, for an open switch, a name or candidates. -/
def ofJson [Settings α] : Json → Except JsonError (Toggle α)
  | .null | .bool false => .ok off
  | .bool true => .ok (on Settings.none)
  | .object members => do
    let name := Json.lookup members "name"
    let members := Json.without members "name"
    let (values, members) := match Json.lookup members "enum" with
      | some vs => (some vs, Json.without members "enum")
      | none => (Json.lookup members "values", Json.without members "values")
    let inner : α ← decode (.object members)
    match name, values with
    | none, none => return on inner
    | name, none => return wild ⟨name.bind Json.text?, none⟩ inner
    | name, some vs =>
      let vs ← decode vs
      return wild ⟨name.bind Json.text?, some vs⟩ inner
  | v => if v = .text Wildcard.mark then .ok (wild .short Settings.none) else .error (.notToggle v)

instance [Settings α] : Coded (Toggle α) where
  encode := toJson
  decode := ofJson

end Toggle
end ChartAdvisor
