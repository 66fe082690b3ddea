import ChartAdvisor.Config.Coded
import ChartAdvisor.Grouping.Tree
import ChartAdvisor.Search.Generate
import ChartAdvisor.Shorthand.Parser

/-!
# Recommendations

A request is a chart query with instructions how its charts are ranked and grouped. An advisor
holds a schema and a configuration for the requests that name none.
-/
namespace ChartAdvisor

/-- A chart query, how its charts are ranked and grouped, and the configuration for it. -/
structure Request where
  spec : ChartQuery
  nest : List GroupLevel := []
  /-- The rankings in the order in which they decide. -/
  orderBy : List String := []
  chooseBy : Option String := none
  config : Option Config := none

namespace Request

/-- Reads one name or a list of names. -/
def decodeNames : Json → Except JsonError (List String)
  | .text name => .ok [name]
  | v => decode v

instance : Coded Request where
  encode r := .ofPresent [
    ("spec", some (encode r.spec)),
    ("nest", if r.nest.isEmpty then none else some (encode r.nest)),
    ("orderBy", if r.orderBy.isEmpty then none else some (encode r.orderBy)),
    ("chooseBy", r.chooseBy.map Json.text),
    ("config", r.config.map encode)]
  decode v := do
    let r ← Record.ofJson 5 v
    let chooseBy ← r.optional "chooseBy" 3
    let config ← r.optional "config" 4
    let nest ← r.orElse "nest" 1 []
    let orderBy ← match r.get? "orderBy" 2 with
      | some v => decodeNames v
      | none => .ok []
    let spec ← r.required "spec" 0
    return { spec, nest, orderBy, chooseBy, config }

/-- Reads a request, or a chart query alone. -/
def ofJson (v : Json) : Except JsonError Request :=
  if (v.get? "spec").isSome then decode v else (decode v).map fun spec => { spec }

/-- The rankings that put the charts in order; the overall one if none are named. -/
def order (r : Request) : List String :=
  if r.orderBy.isEmpty then [Ranking.overall.name] else r.orderBy

/-- Every ranking that is needed, each once. -/
def rankingNames (r : Request) : List String :=
  (r.chooseBy.toList ++ r.nest.filterMap GroupLevel.orderGroupBy).foldl
    (fun names name => if names.contains name then names else names ++ [name]) r.order

/-- The names that levels are grouped by have to be known. -/
def validateNest (r : Request) : Except ConfigError Unit :=
  r.nest.forM fun level =>
    match level.groupBy, level.groupBy.resolve? with
    | .named name, none => .error (.invalid "nest" (.unknownGrouping name))
    | _, _ => .ok ()

end Request

/-- The charts that a request got, with the request and the configuration that it was run with. -/
structure Recommendation where
  request : Request
  result : ResultTree

namespace Recommendation

def top? (r : Recommendation) : Option Draft := r.result.top?

def toJson (r : Recommendation) : Json :=
  .object [("query", encode r.request), ("result", r.result.toJson)]

end Recommendation

/-- Generates, ranks, cuts off and groups the charts for a request. -/
def recommend (r : Request) (schema : Schema) : Logged Recommendation := do
  let config := r.config.getD {}
  let ctx : Context := ⟨schema, config⟩
  .ofExcept (config.validate.mapError .config)
  .ofExcept (r.validateNest.mapError .config)
  let generated ← generate r.spec ctx
  let scored ← .ofExcept (Draft.scoreAll ctx r.rankingNames generated)
  let ranked ← Draft.rank r.order scored
  let kept := match config.maxResults with
    | some n => ranked.take n
    | none => ranked
  let tree := ResultTree.ofDrafts r.nest kept
  let tree := if r.nest.isEmpty then tree else tree.arranged r.chooseBy r.nest
  Logged.tell (.recommended generated.length tree.drafts.length tree.items.length)
  Logged.tell (.timed "recommend")
  return ⟨{ r with config := some config }, tree⟩

/-- A schema and a configuration for many requests. -/
structure Advisor where
  schema : Schema
  config : Config

namespace Advisor

def ofSchema (schema : Schema) : Advisor := ⟨schema, {}⟩

def withConfig (schema : Schema) (config : Config) : Except ConfigError Advisor :=
  config.validate.map fun _ => ⟨schema, config⟩

/-- Runs a request, with the configuration of the advisor if it names none. -/
def recommend (a : Advisor) (r : Request) : Logged Recommendation :=
  ChartAdvisor.recommend { r with config := some (r.config.getD a.config) } a.schema

/-- Runs a shorthand, grouped by the given keys. -/
def recommendShorthand (a : Advisor) (text : String) (keys : List GroupKey) :
    Logged Recommendation := do
  let spec ← .ofExcept ((ChartQuery.ofShorthand text).mapError .shorthand)
  a.recommend { spec, nest := keys.map fun groupBy => { groupBy } }

def generate (a : Advisor) (q : ChartQuery) : Logged (List Draft) :=
  ChartAdvisor.generate q ⟨a.schema, a.config⟩

end Advisor
end ChartAdvisor
