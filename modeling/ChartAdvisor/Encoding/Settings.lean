import ChartAdvisor.Vocabulary.Traits
import ChartAdvisor.Slot

/-!
# Settings of an encoding

Bins, scales, guides and sorting: the parts of an encoding that have an inner form.
-/
namespace ChartAdvisor

/-- A sort order, or the order of another field. -/
inductive Sorting
  | order (o : SortOrder)
  | field (name : String) (op : Option Aggregate) (direction : Option SortOrder)
deriving DecidableEq

namespace Sorting

def decodeField (v : Json) : Except JsonError Sorting := do
  let r ← Record.ofJson 3 v
  return .field (← r.required "field" 0) (← r.optional "op" 1) (← r.optional "order" 2)

instance : Coded Sorting where
  encode
    | .order o => encode o
    | .field name op direction =>
      .ofPresent [("field", some (.text name)), ("op", op.map encode),
        ("order", direction.map encode)]
  decode v :=
    match (decode v : Except JsonError SortOrder) with
    | .ok o => .ok (.order o)
    | .error _ => decodeField v

end Sorting

/-- Free settings of an axis or a legend. -/
structure Guide where
  members : Json.Members
deriving DecidableEq

instance : Settings Guide where
  encode g := .object g.members
  decode v := (decode v).map Guide.mk
  none := ⟨[]⟩
  isEmpty g := g.members.isEmpty

/-- The parameters of a bin. -/
inductive BinParameter
  | maxbins | extent | base | step | steps | minstep | divide
deriving DecidableEq

instance : Vocabulary BinParameter where
  kind := "bin parameter"
  all := [.maxbins, .extent, .base, .step, .steps, .minstep, .divide]
  name
    | .maxbins => "maxbins"
    | .extent => "extent"
    | .base => "base"
    | .step => "step"
    | .steps => "steps"
    | .minstep => "minstep"
    | .divide => "divide"

/-- How a field is cut into bins. -/
structure Bin where
  maxbins : Option (Slot UInt32) := none
  extent : Option Json := none
  base : Option Json := none
  step : Option Json := none
  steps : Option Json := none
  minstep : Option Json := none
  divide : Option Json := none
deriving DecidableEq

namespace Bin

/-- The value of a parameter as JSON. -/
def get? (b : Bin) : BinParameter → Option Json
  | .maxbins => b.maxbins.map encode
  | .extent => b.extent
  | .base => b.base
  | .step => b.step
  | .steps => b.steps
  | .minstep => b.minstep
  | .divide => b.divide

/-- The parameters that are set, in their fixed order. -/
def parameters (b : Bin) : List (BinParameter × Json) :=
  Vocabulary.all.filterMap fun p => (b.get? p).map (p, ·)

/-- Sets a parameter; only the number of bins is restricted in what it takes. -/
def set (b : Bin) (p : BinParameter) (v : Json) : Except JsonError Bin :=
  match p with
  | .maxbins => (decode v).map fun n => { b with maxbins := some n }
  | .extent => .ok { b with extent := some v }
  | .base => .ok { b with base := some v }
  | .step => .ok { b with step := some v }
  | .steps => .ok { b with steps := some v }
  | .minstep => .ok { b with minstep := some v }
  | .divide => .ok { b with divide := some v }

/-- Sets the parameter with a name. -/
def setNamed (b : Bin) (key : String) (v : Json) : Except JsonError Bin :=
  match Vocabulary.ofName? key with
  | some p => b.set p v
  | none => .error (.unknownBinParameter key)

instance : Settings Bin where
  encode b := .object (b.parameters.map fun (p, v) => (Vocabulary.name p, v))
  decode v := do
    let r ← Record.ofJson 7 v
    return {
      maxbins := ← r.optionalByName "maxbins" 0
      extent := ← r.optionalByName "extent" 1
      base := ← r.optionalByName "base" 2
      step := ← r.optionalByName "step" 3
      steps := ← r.optionalByName "steps" 4
      minstep := ← r.optionalByName "minstep" 5
      divide := ← r.optionalByName "divide" 6 }
  none := {}
  isEmpty b := b == {}

end Bin
end ChartAdvisor
