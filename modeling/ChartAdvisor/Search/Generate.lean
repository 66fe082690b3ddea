import ChartAdvisor.Search.Walk
import ChartAdvisor.Style

/-!
# Generating charts

A query is expanded one property at a time, in the order of the configuration: every draft is
replaced by the drafts that a walk through its open slots keeps. What is left at the end is
styled.
-/
namespace ChartAdvisor

/-- The open properties of a draft in the order in which they are resolved. An order that
leaves one out is an error. -/
def Draft.steps (d : Draft) (config : Config) : Except ConfigError (List Property) :=
  let steps := config.propertyPrecedence.filter d.slots.has
  match Vocabulary.all.find? fun p => d.slots.has p && !steps.contains p with
  | some p => .error (.invalid "propertyPrecedence" (.unresolved p))
  | none => .ok steps

/-- The drafts that a walk keeps, and what it tells. -/
def Walk.logged (w : Walk) (verbose : Bool) : Logged (List Draft) where
  events := w.refusals.map (.refused verbose)
  outcome := match w.failure with
    | some e => .error e
    | none => .ok w.found

namespace Draft

/-- Resolves a property in every draft. -/
def resolve (ctx : Context) (p : Property) : List Draft → Logged (List Draft)
  | [] => return []
  | d :: rest => do
    let found ← (d.walk ctx p).logged ctx.config.verbose
    return found ++ (← resolve ctx p rest)

/-- Resolves one property after another until no draft is left. -/
def resolveAll (ctx : Context) : List Property → List Draft → Logged (List Draft)
  | [], drafts => return drafts
  | p :: rest, drafts => do
    let found ← resolve ctx p drafts
    Logged.tell (.stepped p drafts.length found.length)
    if found.isEmpty then return [] else resolveAll ctx rest found

/-- Styles every draft. -/
def stylizeAll (ctx : Context) (drafts : List Draft) : Except Error (List Draft) :=
  (drafts.mapM (stylize ctx.schema ctx.config)).mapError .schema

end Draft

/-- Every chart that a query admits, as finished drafts, in the order of the search. -/
def generate (q : ChartQuery) (ctx : Context) : Logged (List Draft) := do
  let d ← Draft.start q ctx
  let steps ← .ofExcept ((d.steps ctx.config).mapError .config)
  Logged.tell (.searching steps.length)
  let found ← Draft.resolveAll ctx steps [d]
  let found ← if ctx.config.stylize then .ofExcept (Draft.stylizeAll ctx found) else pure found
  Logged.tell (.timed "generate")
  return found

end ChartAdvisor
