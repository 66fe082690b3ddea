import ChartAdvisor.Event
import ChartAdvisor.Ranking.Effectiveness

/-!
# Rankings

A ranking scores drafts. Drafts are put in order by one ranking or by several, of which the
later ones decide where the earlier ones are equal; drafts that are equal throughout keep
their order.
-/
namespace ChartAdvisor

/-- The ways in which drafts are scored. -/
inductive Ranking
  | aggregationQuality | effectiveness | fieldOrder | overall
deriving DecidableEq

instance : Vocabulary Ranking where
  kind := "ranking"
  all := [.aggregationQuality, .effectiveness, .fieldOrder, .overall]
  name
    | .aggregationQuality => "aggregationQuality"
    | .effectiveness => "effectiveness"
    | .fieldOrder => "fieldOrder"
    | .overall => "overall"

namespace Ranking

def name (r : Ranking) : String := Vocabulary.name r

/-- Whether an encoding holds a continuous field that no function makes discrete or one value
per group. -/
def isRawContinuous (e : Encoding) : Bool :=
  e.field?.any fun q =>
    (q.type.is .quantitative && !q.isBinned && q.aggregate?.isNone) ||
      (q.type.is .temporal && q.timeUnit?.isNone)

/-- Whether an encoding counts rows by an aggregate of its own. -/
def isCount (e : Encoding) : Bool := e.field?.any fun q => q.aggregate? == some .count

/-- How well aggregation is used, in thousandths, with the reason. -/
def aggregation (d : Draft) : Int × String :=
  if !d.isAggregate then
    if d.active.any Encoding.isMeasure then (1000, "Raw with measure")
    else (200, "Raw without measure")
  else if d.active.any isRawContinuous then (100, "Aggregate with raw continuous")
  else if d.active.any Encoding.isDimension then
    if d.active.any isCount then (800, "Aggregate with count") else (900, "Aggregate without count")
  else (300, "Aggregate without dimension")

def aggregationFeature (d : Draft) : Feature :=
  let (score, text) := aggregation d
  ⟨aggregationQuality.name, text, .ofThousandths score⟩

/-- One reason per open field that is chosen, the last slot first. Fields that come early in the
schema are better; each slot weighs more than all slots behind it. -/
def fieldOrderFeatures (schema : Schema) (d : Draft) : List Feature :=
  let count : Binary64 := .ofRat false (max 1 schema.fields.length : Nat)
  let fields := (d.slots.indices .field).reverse.filterMap fun i =>
    ((d.encoding? i).bind Encoding.field?).map (i, ·)
  (fields.foldl (fun (found, weight) (i, q) =>
    let reason := q.field.value?.map fun field =>
      let position := (schema.index? field).getD 0
      let slot := ((d.slots.slot? i .field).map Candidates.name).getD Wildcard.mark
      ({ kind := fieldOrder.name
         text := s!"field {slot} is {field} (#{position} in the schema)"
         score := (Binary64.ofRat false (position : Nat)).neg.mul weight } : Feature)
    (found ++ reason.toList, Binary64.mul weight count))
    (([] : List Feature), Binary64.ofThousandths 1000)).1

/-- The reasons that a ranking sees in a draft; the overall one sees those of all others. -/
def features (ctx : Context) (d : Draft) : Ranking → List Feature
  | aggregationQuality => [aggregationFeature d]
  | effectiveness => Effectiveness.features ctx.config d
  | fieldOrder => fieldOrderFeatures ctx.schema d
  | overall =>
    aggregationFeature d :: Effectiveness.features ctx.config d ++ fieldOrderFeatures ctx.schema d

/-- The score of a draft. Without an open field there is nothing to order by. -/
def score (r : Ranking) (ctx : Context) (d : Draft) : Score :=
  if r = fieldOrder ∧ (d.slots.indices .field).isEmpty then .empty else .ofFeatures (r.features ctx d)

end Ranking

namespace Draft

/-- Stores the scores of a draft under the names of the rankings. -/
def withScores (ctx : Context) (rankings : List Ranking) (d : Draft) : Draft :=
  { d with scores := rankings.foldl (fun ss r => Table.insert r.name (r.score ctx d) ss) d.scores }

/-- The score under a name, zero where none is stored. -/
def scoreOf (d : Draft) (name : String) : Binary64 :=
  ((d.scores.lookup name).map Score.total).getD (.zero false)

/-- Compares two drafts: the one with the higher score comes first, by the first of the rankings
that tells them apart. -/
def compareBy (a b : Draft) : List String → Ordering
  | [] => .eq
  | name :: rest => ((b.scoreOf name).compare (a.scoreOf name)).then (compareBy a b rest)

/-- The drafts in the order of some rankings. -/
def sortBy (order : List String) (drafts : List Draft) : List Draft :=
  drafts.mergeSort fun a b => a.compareBy b order != .gt

/-- The rankings with the given names. -/
def rankings (names : List String) : Except ConfigError (List Ranking) :=
  names.mapM fun name =>
    match Vocabulary.ofName? name with
    | some r => .ok r
    | none => .error (.invalid "orderBy" (.unknownRanking name))

/-- Scores every draft under the given names. -/
def scoreAll (ctx : Context) (names : List String) (drafts : List Draft) :
    Except Error (List Draft) :=
  ((rankings names).mapError .config).map fun rs => drafts.map (withScores ctx rs)

/-- Puts drafts in order and tells by which ranking first. -/
def rank (order : List String) (drafts : List Draft) : Logged (List Draft) := do
  match order with
  | first :: _ => Logged.tell (.ranked first drafts.length)
  | [] => pure ()
  return sortBy order drafts

end Draft
end ChartAdvisor
