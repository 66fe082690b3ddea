import ChartAdvisor.Grouping.Key
import ChartAdvisor.Ranking.Basic

/-!
# Trees of groups

Drafts are grouped level by level, and inside every group they keep their order. What a level
looks at adds to what the levels above it look at, so that its groups refine theirs. Groups may
then be put in the order of their best drafts.
-/
namespace ChartAdvisor

/-- A draft, or a group of trees. The path of a group joins the names on the way to it. -/
inductive ResultTree
  | leaf (draft : Draft)
  | group (name path : String) (items : List ResultTree)

namespace ResultTree

def items : ResultTree → List ResultTree
  | leaf _ => []
  | group _ _ items => items

mutual

/-- The first draft. -/
def top? : ResultTree → Option Draft
  | leaf d => some d
  | group _ _ items => topOf? items

/-- The first draft of the first tree. -/
def topOf? : List ResultTree → Option Draft
  | [] => none
  | t :: _ => top? t

end

mutual

/-- All drafts, from first to last. -/
def drafts : ResultTree → List Draft
  | leaf d => [d]
  | group _ _ items => draftsOf items

def draftsOf : List ResultTree → List Draft
  | [] => []
  | t :: rest => drafts t ++ draftsOf rest

end

mutual

/-- Puts the drafts of a tree behind those that were found before. -/
def collect (found : List Draft) : ResultTree → List Draft
  | leaf d => found ++ [d]
  | group _ _ items => collectEach found items

def collectEach (found : List Draft) : List ResultTree → List Draft
  | [] => found
  | t :: rest => collectEach (collect found t) rest

end

/-- All drafts, in one list that grows on the way through the tree. -/
def collected (t : ResultTree) : List Draft := collect [] t

/-- Puts together the values that have one key, in the order in which keys first appear. -/
def gather {α : Type} : List (String × α) → List (String × List α)
  | [] => []
  | (key, a) :: rest =>
    let groups := gather rest
    (key, a :: (groups.lookup key).getD []) :: Table.erase key groups

/-- Groups drafts by one level after another, under a path. -/
def groupInto : List GroupLevel → Include → Replacers → (path : String) → List Draft →
    List ResultTree
  | [], _, _, _, drafts => drafts.map leaf
  | level :: rest, incl, repl, path, drafts =>
    let (incl, repl) := match level.groupBy.resolve? with
      | some (more, added) =>
        (incl.union more, added.foldl (fun repl (p, words) => Replacers.add repl p words) repl)
      | none => (incl, repl)
    (gather (drafts.map fun d => (Shorthand.query incl repl d.query, d))).map fun (key, members) =>
      let path := path ++ "/" ++ key
      group key path (groupInto rest incl repl path members)

/-- Groups drafts; without levels they stay in one list. -/
def ofDrafts (levels : List GroupLevel) (drafts : List Draft) : ResultTree :=
  group "" "" (groupInto levels .none [] "" drafts)

/-- Puts trees in the order of their first drafts; a tree without one comes last. -/
def sortByTop (ranking : String) (items : List ResultTree) : List ResultTree :=
  items.mergeSort fun a b =>
    match a.top?, b.top? with
    | some a, some b => a.compareBy b [ranking] != .gt
    | none, some _ => false
    | _, none => true

/-- Keeps the best draft of each group of the last level if there is a ranking to choose by, and
puts the groups of each level in order by the ranking of the level or, without one, by that. -/
def arrange (chooseBy : Option String) : List GroupLevel → List ResultTree → List ResultTree
  | [], items =>
    match chooseBy with
    | some ranking => (sortByTop ranking items).take 1
    | none => items
  | level :: rest, items =>
    let items := items.map fun
      | group name path inner => group name path (arrange chooseBy rest inner)
      | leaf d => leaf d
    match level.orderGroupBy.or chooseBy with
    | some ranking => sortByTop ranking items
    | none => items

/-- The tree with its groups arranged. -/
def arranged (chooseBy : Option String) (levels : List GroupLevel) : ResultTree → ResultTree
  | group name path items => group name path (arrange chooseBy levels items)
  | leaf d => leaf d

end ResultTree

/-- The members of a score. -/
def Score.toJson (s : Score) : Json :=
  .object [("score", .number (.float s.total)), ("features", .list (s.features.map fun f =>
    .object [("score", .number (.float f.score)), ("type", .text f.kind), ("feature", .text f.text)]))]

/-- A draft as it stands in a result. -/
def Draft.toJson (d : Draft) : Json :=
  .object [
    ("shorthand", .text d.shorthand),
    ("spec", encode d.toChart?),
    ("scores", .object (d.scores.map fun (name, s) => (name, s.toJson)))]

namespace ResultTree

mutual

def toJson : ResultTree → Json
  | leaf d => d.toJson
  | group name path items =>
    .object [("name", .text name), ("path", .text path), ("items", .list (itemsToJson items))]

def itemsToJson : List ResultTree → List Json
  | [] => []
  | t :: rest => toJson t :: itemsToJson rest

end

end ResultTree
end ChartAdvisor
