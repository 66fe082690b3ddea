import ChartAdvisor.Rules.OnCharts
import ChartAdvisor.Rules.OnEncodings

/-!
# Events

What the library tells on its way: what was built, how far a search has come, which drafts a
rule refused. `Logged` is an outcome together with the events that led to it; the events never
have an influence on the outcome.
-/
namespace ChartAdvisor

/-- Whether a rule is about charts or about encodings. -/
inductive RuleFamily
  | chart | encoding
deriving DecidableEq

def RuleFamily.name : RuleFamily → String
  | chart => "spec"
  | encoding => "encoding"

/-- A draft that a rule refused after a property was chosen. -/
structure Refusal where
  family : RuleFamily
  rule : String
  property : Property
  query : ChartQuery
deriving DecidableEq

/-- How much a reader of events should care. -/
inductive Event.Level
  | error | info | debug | trace
deriving DecidableEq

def Event.Level.name : Event.Level → String
  | error => "ERROR"
  | info => "INFO"
  | debug => "DEBUG"
  | trace => "TRACE"

/-- One thing that the library tells, with the data that it is about. -/
inductive Event
  | schemaBuilt (fields : Nat)
  | configLoaded (path : String)
  | advisorReady (fields : Nat)
  | draftBuilt (openSlots encodings : Nat)
  | searching (steps : Nat)
  | refused (verbose : Bool) (r : Refusal)
  | stepped (property : Property) (before after : Nat)
  /-- A task has ended that is worth timing. -/
  | timed (task : String)
  | ranked (ranking : String) (candidates : Nat)
  | recommended (generated kept groups : Nat)
  | failed (context : String) (e : Error)

namespace Event

def level : Event → Event.Level
  | failed .. => .error
  | configLoaded _ | advisorReady _ | timed _ | recommended .. => .info
  | refused verbose _ => if verbose then .debug else .trace
  | _ => .debug

def message : Event → String
  | schemaBuilt _ => "schema built"
  | configLoaded _ => "configuration loaded"
  | advisorReady _ => "recommender ready"
  | draftBuilt .. => "query model built"
  | searching _ => "Generating candidates"
  | refused .. => "Constraint violated"
  | stepped .. => "Enumeration step"
  | timed _ => "Performance metric"
  | ranked .. => "Ranking applied"
  | recommended .. => "Recommendation complete"
  | failed .. => "Recommendation error"

/-- What an event says besides its message. -/
def fields : Event → Json.Members
  | schemaBuilt fields => [("field_count", .ofNat fields)]
  | configLoaded path => [("path", .text path)]
  | advisorReady fields => [("fields", .ofNat fields)]
  | draftBuilt openSlots encodings =>
    [("wildcards", .ofNat openSlots), ("encodings", .ofNat encodings)]
  | searching steps => [("steps", .ofNat steps)]
  | refused _ r =>
    [("family", .text r.family.name), ("constraint", .text r.rule),
      ("property", .text r.property.name), ("shorthand", .text r.query.shorthand)]
  | stepped p before after =>
    [("property", .text p.name), ("input", .ofNat before), ("output", .ofNat after)]
  | timed task => [("metric", .text task), ("unit", .text "ms")]
  | ranked ranking candidates => [("ranking", .text ranking), ("candidates", .ofNat candidates)]
  | recommended generated kept groups =>
    [("generated", .ofNat generated), ("kept", .ofNat kept), ("groups", .ofNat groups)]
  | failed context e => [("context", .text context), ("error", .text e.message)]

end Event

/-- An outcome and the events that led to it. -/
structure Logged (α : Type) where
  events : List Event
  outcome : Except Error α

namespace Logged

variable {α β : Type}

/-- An outcome of which nothing is told. -/
def ofExcept (outcome : Except Error α) : Logged α := ⟨[], outcome⟩

def bind (x : Logged α) (f : α → Logged β) : Logged β :=
  match x.outcome with
  | .ok a => ⟨x.events ++ (f a).events, (f a).outcome⟩
  | .error e => ⟨x.events, .error e⟩

instance : Monad Logged where
  pure a := ⟨[], .ok a⟩
  bind := bind

def tell (event : Event) : Logged Unit := ⟨[event], .ok ()⟩

def tellAll (events : List Event) : Logged Unit := ⟨events, .ok ()⟩

def fail (e : Error) : Logged α := ⟨[], .error e⟩

@[simp]
theorem outcome_pure (a : α) : (pure a : Logged α).outcome = .ok a := rfl

@[simp]
theorem outcome_bind (x : Logged α) (f : α → Logged β) :
    (x >>= f).outcome = x.outcome >>= fun a => (f a).outcome := by
  show (bind x f).outcome = Except.bind x.outcome fun a => (f a).outcome
  unfold bind Except.bind
  split <;> simp_all

end Logged

/-- Tells that a schema was built, if it was. -/
def Schema.build (fields : List FieldSchema) : Logged Schema := do
  let schema ← .ofExcept ((Schema.ofFields fields).mapError .schema)
  Logged.tell (.schemaBuilt schema.fields.length)
  return schema

/-- Builds a draft and tells of it. -/
def Draft.start (q : ChartQuery) (ctx : Context) : Logged Draft := do
  let d ← .ofExcept ((Draft.build q ctx.schema ctx.config).mapError .draft)
  Logged.tell (.draftBuilt d.slots.names.length d.query.encodings.length)
  return d

namespace Draft

/-- A rule that a draft violates, with what is to be told of it. -/
def refusal (d : Draft) (family : RuleFamily) (p : Property) {α : Type} (r : Rule α) : Refusal :=
  ⟨family, r.name, p, d.query⟩

/-- What the rules about encodings say against an encoding after a property was chosen. -/
def refusedByEncoding? (ctx : Context) (d : Draft) (index : Nat) (p : Property) :
    Except RuleError (Option Refusal) :=
  (d.violatedByEncoding? ctx index p).map fun r => r.map (d.refusal .encoding p)

/-- What the rules about charts say against a draft after a property was chosen. -/
def refused? (ctx : Context) (d : Draft) (p : Property) : Except RuleError (Option Refusal) :=
  (d.violated? ctx p).map fun r => r.map (d.refusal .chart p)

end Draft
end ChartAdvisor
