import ChartAdvisor.Json.Printer
import ChartAdvisor.Json.Reader

/-!
# Types that are written as JSON

`Coded` pairs the writer of a type with its reader. A record is read from an object by
member names or from a list by position. A failed reading says no more than that the value
has the wrong form, apart from the causes that have words of their own.
-/
namespace ChartAdvisor

/-- Why a value could not be read. -/
inductive JsonError
  | malformed
  | notToggle (found : Json)
  | notEncoding (found : Json)
  | unknownBinParameter (key : String)
deriving DecidableEq

namespace JsonError

/-- The words of a failure. A reader keeps no account of where a malformed text went wrong,
so `<json>` stands in place of one. -/
def message : JsonError → String
  | malformed => "<json>"
  | notToggle found => "expected a boolean, \"?\" or an object, found " ++ found.compact
  | notEncoding found => "encoding query must be an object, found " ++ found.compact
  | unknownBinParameter key => "unknown bin parameter " ++ key

end JsonError

/-- A type with a JSON form. -/
class Coded (α : Type) where
  encode : α → Json
  decode : Json → Except JsonError α

export Coded (encode decode)

/-- `some`, or a malformed value. -/
def JsonError.ofOption {α : Type} : Option α → Except JsonError α
  | some a => .ok a
  | none => .error .malformed

instance : Coded Json := ⟨id, .ok⟩

instance : Coded Bool where
  encode := .bool
  decode
    | .bool b => .ok b
    | _ => .error .malformed

instance : Coded String where
  encode := .text
  decode v := JsonError.ofOption v.text?

instance : Coded Number where
  encode := .number
  decode
    | .number n => .ok n
    | _ => .error .malformed

instance : Coded UInt32 where
  encode n := .number (.ofCount n)
  decode
    | .number n => JsonError.ofOption n.toCount?
    | _ => .error .malformed

/-- Natural numbers that fit an unsigned 64-bit word. -/
instance : Coded Nat where
  encode := .ofNat
  decode
    | .number n => JsonError.ofOption n.toNat?
    | _ => .error .malformed

/-- An absent value is `null`. -/
instance {α : Type} [Coded α] : Coded (Option α) where
  encode := Json.ofOption encode
  decode
    | .null => .ok none
    | v => some <$> decode v

instance {α : Type} [Coded α] : Coded (List α) where
  encode items := .list (items.map encode)
  decode
    | .list items => items.mapM decode
    | _ => .error .malformed

/-- The members of an object, whatever they hold. -/
instance : Coded Json.Members where
  encode := .object
  decode v := JsonError.ofOption v.object?

/-- The parts of a record, by name or by position. -/
inductive Record
  | named (members : Json.Members)
  | positional (items : List Json)

namespace Record

/-- A record of `size` parts is an object or a list of at most that length. -/
def ofJson (size : Nat) : Json → Except JsonError Record
  | .object members => .ok (.named members)
  | .list items => if items.length ≤ size then .ok (.positional items) else .error .malformed
  | _ => .error .malformed

/-- The part with a name and a position. -/
def get? : Record → String → Nat → Option Json
  | named members, name, _ => Json.lookup members name
  | positional items, _, position => items[position]?

/-- A part that must be there. -/
def required {α : Type} [Coded α] (r : Record) (name : String) (position : Nat) :
    Except JsonError α :=
  match r.get? name position with
  | some v => decode v
  | none => .error .malformed

/-- A part that is read if it is there. -/
def present {α : Type} [Coded α] (r : Record) (name : String) (position : Nat) :
    Except JsonError (Option α) :=
  match r.get? name position with
  | some v => some <$> decode v
  | none => .ok none

/-- A part with a value to take when it is left out. -/
def orElse {α : Type} [Coded α] (r : Record) (name : String) (position : Nat) (absent : α) :
    Except JsonError α :=
  match r.get? name position with
  | some v => decode v
  | none => .ok absent

/-- A part that may be left out or `null`. -/
def optional {α : Type} [Coded α] (r : Record) (name : String) (position : Nat) :
    Except JsonError (Option α) :=
  r.orElse name position none

/-- A part that may be `null`, and may be left out of an object but not of a list. -/
def optionalByName {α : Type} [Coded α] (r : Record) (name : String) (position : Nat) :
    Except JsonError (Option α) :=
  match r with
  | named _ => r.optional name position
  | positional _ => r.required name position

end Record
end ChartAdvisor
