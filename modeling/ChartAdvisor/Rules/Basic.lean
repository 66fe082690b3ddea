import ChartAdvisor.Draft.Basic

/-!
# Rules

A rule says what a good chart looks like. It names the properties that it is about: it is run
when one of them has been chosen, and counts as kept while one of them is open, unless it can
judge what is half open. Strict rules always hold; the others are switched by the
configuration.
-/
namespace ChartAdvisor

/-- What rules consult besides the draft. -/
structure Context where
  schema : Schema
  config : Config

/-- What rules are about: it has properties that may be open. -/
class Judged (α : Type) where
  isOpen : α → Property → Bool

/-- A rule about charts or about encodings. -/
structure Rule (α : Type) where
  name : String
  description : String
  properties : List Property
  /-- The rule can judge while some of its properties are open. -/
  allowsOpen : Bool := false
  strict : Bool := true
  holds : Context → α → Except RuleError Bool

namespace Rule

variable {α : Type}

def isActive (r : Rule α) (config : Config) : Bool := r.strict || config.isEnabled r.name

/-- Whether the rule is about a property. -/
def reads (r : Rule α) (p : Property) : Bool := r.properties.contains p

/-- Whether the rule has to wait until some property is chosen. -/
def waits [Judged α] (r : Rule α) (a : α) : Bool :=
  !r.allowsOpen && r.properties.any (Judged.isOpen a)

/-- Runs the rule; it counts as kept while it has to wait. -/
def check [Judged α] (r : Rule α) (ctx : Context) (a : α) : Except RuleError Bool :=
  if r.waits a then .ok true else r.holds ctx a

/-- The first of several rules that is violated. -/
def firstViolated? [Judged α] (ctx : Context) (a : α) :
    List (Rule α) → Except RuleError (Option (Rule α))
  | [] => .ok none
  | r :: rest => do
    if ← r.check ctx a then firstViolated? ctx a rest else return some r

/-- The active rules about a property. -/
def about (rules : List (Rule α)) (p : Property) (config : Config) : List (Rule α) :=
  rules.filter fun r => r.reads p && r.isActive config

end Rule

/-- An encoding of a draft, and its slots that were open when the draft was built. -/
structure Place where
  encoding : Encoding
  slots : OpenSlots

instance : Judged Place where
  isOpen s p := s.encoding.isOpen p

/-- In a draft the mark is open, or a property of an encoding that plays a part. -/
instance : Judged Draft where
  isOpen d p := if p = .mark then d.query.mark.isOpen else d.active.any (·.isOpen p)

/-- A rule about one encoding in its place. -/
abbrev EncodingRule := Rule Place

/-- A rule about a draft as a whole. -/
abbrev ChartRule := Rule Draft

/-- An encoding of a draft as rules see it. -/
def Draft.place (d : Draft) (index : Nat) (e : Encoding) : Place := ⟨e, d.slots.ofEncoding index⟩

end ChartAdvisor
