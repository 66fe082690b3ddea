import ChartAdvisor.Query.Chart

/-!
# The shorthand of a query

A query in one line, `mark|transform:[…]|channel:function(field,type,key=value)|…`. The
encodings are sorted, so that their order in the query does not show. An open slot is
written `?`, with its candidates behind where there are some.

A shorthand may be restricted to some properties, and words in it may be replaced; such
texts serve as keys that group queries.
-/
namespace ChartAdvisor

/-- Which properties a shorthand writes. -/
abbrev Include := Property → Bool

namespace Include

def all : Include := fun _ => true

def none : Include := fun _ => false

def ofList (properties : List Property) : Include := properties.contains

def union (a b : Include) : Include := fun p => a p || b p

end Include

/-- Words to write in place of others. -/
abbrev Replacement := List (String × String)

/-- Replacements by property. -/
abbrev Replacers := List (Property × Replacement)

namespace Replacers

/-- The word that stands for a word of a property. -/
def apply (r : Replacers) (p : Property) (word : String) : String :=
  ((r.lookup p).bind (·.lookup word)).getD word

/-- A replacement with all of `more` added to it. -/
def merge (old more : Replacement) : Replacement :=
  more.foldl (fun found (word, other) => Table.put word other found) old

/-- The replacement of one property with more words added to it. -/
def add (r : Replacers) (p : Property) (more : Replacement) : Replacers :=
  Table.put p (merge ((r.lookup p).getD []) more) r

end Replacers

namespace Shorthand

variable (incl : Include) (repl : Replacers)

/-- A slot, its fixed value as a word. -/
def slot {α : Type} [Coded α] (p : Property) (text : α → String) : Slot α → String
  | .fixed v => repl.apply p (text v)
  | .wild w => w.shorthand

/-- What stands for an open function: its candidates, or `?`. -/
def functionWildcard {α : Type} [Coded α] (w : Wildcard α) : Json :=
  match w.candidates with
  | some vs => encode vs
  | none => .text Wildcard.mark

/-- A part that can be switched on, as a parameter; nothing where it is on with nothing to
write in it. -/
def toggleParameter {α : Type} (key : String) (t : Toggle α) (children : Json.Members) :
    Option String :=
  match t with
  | .off => some (key ++ "=false")
  | .on _ => if children.isEmpty then none else some (key ++ "=" ++ (Json.object children).compact)
  | .wild w _ =>
    if children.isEmpty then some (key ++ "=" ++ w.shorthand)
    else some (key ++ "=" ++ (Json.object (Json.extend children w.members)).compact)

/-- The parts of a scale that are written, by ascending name. -/
def scaleMembers (s : Scale) : Json.Members :=
  Json.extend [] (Property.scaleParts.filterMap fun p =>
    if incl (.scaleOf p) then (s.json? p).map (Vocabulary.name p, ·) else none)

/-- The count of rows; switched off it is a dash. -/
def autoCount (b : Slot Bool) : String :=
  let body :=
    (if incl .field then repl.apply .field "*" else "...") ++
      (if incl .type then "," ++ repl.apply .type "q" else "")
  match b with
  | .fixed false => if incl .aggregate then "-" else body
  | .fixed true =>
    (if incl .aggregate then repl.apply .aggregate "count" else "autocount") ++ "(" ++ body ++ ")"
  | .wild w =>
    if incl .autoCount then
      "?" ++ (Json.object [("autoCount", functionWildcard w)]).compact ++ "(" ++ body ++ ")"
    else body

/-- The open functions of a field as members, by ascending name. -/
def openFunctions (q : FieldEncoding) : Json.Members :=
  let aggregate := match q.aggregate with
    | .wild w => if incl .aggregate then [("aggregate", functionWildcard w)] else []
    | .fixed _ => []
  let bin := match q.bin with
    | some (.wild w _) => if incl .bin then [("bin", functionWildcard w)] else []
    | _ => []
  let timeUnit := match q.timeUnit with
    | .wild w => if incl .timeUnit then [("timeUnit", functionWildcard w)] else []
    | .fixed _ => []
  if aggregate.isEmpty && bin.isEmpty && timeUnit.isEmpty then []
  else aggregate ++ bin ++ (if q.hasFunction then [("hasFn", .bool true)] else []) ++ timeUnit

/-- The function of a field: an aggregate, a time unit, a bin, or what is open. -/
def function? (q : FieldEncoding) : Option String :=
  match q.aggregate?.filter fun _ => incl .aggregate with
  | some op => some (repl.apply .aggregate (Vocabulary.name op))
  | none =>
    match q.timeUnit?.filter fun _ => incl .timeUnit with
    | some unit => some (repl.apply .timeUnit (Vocabulary.name unit))
    | none =>
      if q.isBinned && incl .bin then some "bin"
      else
        let members := openFunctions incl q
        if members.isEmpty then none else some ("?" ++ (Json.object members).compact)

/-- The parameters of a bin. -/
def binParameters (b : Bin) : List String :=
  b.parameters.filterMap fun (p, v) =>
    if p = .maxbins ∧ !incl .maxBins then none
    else
      let text := match p, b.maxbins with
        | .maxbins, some (.wild w) => w.shorthand
        | _, _ => v.compact
      some (Vocabulary.name p ++ "=" ++ text)

def sorting (s : Slot Sorting) : String :=
  match s with
  | .fixed s => "sort=" ++ (encode s).compact
  | .wild w => "sort=" ++ w.shorthand

/-- The parameters of a field, each `key=value`. -/
def parameters (q : FieldEncoding) (stackOffset : Option String) : List String :=
  let bin := if incl .bin then (q.bin?.map (binParameters incl)).getD [] else []
  let scale := if incl .scale then
      q.scale.bind fun t =>
        toggleParameter "scale" t ((t.inner?.map (scaleMembers incl)).getD [])
    else none
  let sort := if incl .sort then q.sort.map sorting else none
  let guide (key : String) (t : Option (Toggle Guide)) :=
    t.bind fun t => toggleParameter key t ((t.inner?.map Guide.members).getD [])
  let axis := if incl .axis && q.channel.value?.all Channel.supportsAxis then guide "axis" q.axis else none
  let legend :=
    if incl .legend && q.channel.value?.all Channel.supportsLegend then guide "legend" q.legend else none
  let stack := stackOffset.map fun o => "stack=" ++ (Json.text o).compact
  bin ++ scale.toList ++ sort.toList ++ axis.toList ++ legend.toList ++ stack.toList

/-- A field with its function, type and parameters. -/
def field (q : FieldEncoding) (stackOffset : Option String) : String :=
  let name := if incl .field then slot repl .field id q.field else "..."
  let type :=
    if incl .type then "," ++ slot repl .type (fun t => toString (FieldType.letter t)) q.type else ""
  let body := name ++ type ++ String.join ((parameters incl q stackOffset).map ("," ++ ·))
  match function? incl repl q with
  | some f => f ++ "(" ++ body ++ ")"
  | none => body

/-- What an encoding maps to its channel. -/
def definition (e : Encoding) (stackOffset : Option String) : String :=
  match e with
  | .autoCount _ b => autoCount incl repl b
  | .value _ (.fixed v) => "value=" ++ v.compact
  | .value _ (.wild w) => "value=" ++ w.shorthand
  | .field q => field incl repl q stackOffset

/-- An encoding: its channel and what is mapped to it. -/
def encodingWith (e : Encoding) (stackOffset : Option String) : String :=
  let channel := if incl .channel then [slot repl .channel Vocabulary.name e.channel] else []
  let text := definition incl repl e stackOffset
  ":".intercalate (channel ++ if text.isEmpty then [] else [text])

def encoding (e : Encoding) : String := encodingWith incl repl e none

/-- The encodings of a query, each with the offset of the stack if it is the one that
accumulates. -/
def encodings (q : ChartQuery) : List String :=
  let stack := if incl .stack then q.stack? else none
  (q.encodings.zipIdx.filter fun (e, _) => !e.isDisabledAutoCount).map fun (e, i) =>
    encodingWith incl repl e ((stack.filter (·.fieldIndex == i)).map Stack.offset)

/-- The shorthand of a query. -/
def query (q : ChartQuery) : String :=
  let mark := if incl .mark then [slot repl .mark Vocabulary.name q.mark] else []
  let transform :=
    if incl .transform then
      match q.transform with
      | some (v :: rest) => ["transform:" ++ (Json.list (v :: rest)).compact]
      | _ => []
    else []
  let texts := ((encodings incl repl q).filter (!·.isEmpty)).mergeSort fun a b => !decide (b < a)
  "|".intercalate (mark ++ transform ++ texts)

/-- The shorthand of a scale. -/
def scale (s : Scale) : String := (Json.object (scaleMembers Include.all s)).compact

end Shorthand

/-- The shorthand of a query with every property. -/
def ChartQuery.shorthand (q : ChartQuery) : String := Shorthand.query Include.all [] q

/-- The shorthand of the query that a chart reads as. -/
def Chart.shorthand (c : Chart) : Except SerialisationError String :=
  c.toQuery.map ChartQuery.shorthand

end ChartAdvisor
