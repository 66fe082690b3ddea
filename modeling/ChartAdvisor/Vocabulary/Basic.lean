import ChartAdvisor.Document.Readable

/-!
# Closed vocabularies

A vocabulary is a finite type whose members have names. Names are read exactly, case
included; a name that is not in the list is an `UnknownWord`.
-/
namespace ChartAdvisor

/-- A word that a vocabulary does not hold. -/
structure UnknownWord where
  kind : String
  word : String
deriving DecidableEq

def UnknownWord.message (e : UnknownWord) : String := s!"Unknown {e.kind} '{e.word}'"

/-- A finite type whose members have names. -/
class Vocabulary (α : Type) where
  /-- What the members are called in messages. -/
  kind : String
  /-- Every member, in its fixed order. -/
  all : List α
  name : α → String

namespace Vocabulary

variable {α : Type} [Vocabulary α]

/-- The member with a name. -/
def ofName? (word : String) : Option α := all.find? fun (a : α) => name a == word

/-- The member with a name, or the word as unknown. -/
def parse (word : String) : Except UnknownWord α :=
  match ofName? word with
  | some a => .ok a
  | none => .error ⟨kind α, word⟩

/-- The position of a member in the fixed order. -/
def index [BEq α] (a : α) : Nat := all.idxOf a

/-- A member is written as its name, and read from its name or from an object whose only
member is that name with `null`. -/
instance : Coded α where
  encode a := .text (name a)
  decode
    | .text word => JsonError.ofOption (ofName? word)
    | .object [(word, .null)] => JsonError.ofOption (ofName? word)
    | _ => .error .malformed

/-- A name is a scalar; by meaning, it may also be the only key of a mapping, with `null` behind
it, where a number without a minus is the position of a member. -/
instance : Readable α where
  read?
    | .byMeaning, _, .mapping [(k, .scalar .null _)] =>
      (k.partName? .byMeaning ((all : List α).map name)).join.bind ofName?
    | r, _, d => (d.key? r).bind ofName?

end Vocabulary
end ChartAdvisor
