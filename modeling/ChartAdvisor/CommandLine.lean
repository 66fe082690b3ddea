import ChartAdvisor.Error.Report
import ChartAdvisor.Files

/-!
# The command line

A run of the program reads a schema, perhaps a configuration, and a request, and prints the
charts that it recommends. `CommandLine.run` says what a run prints for given arguments and
files. Arguments are read from left to right, and the first one that is wrong ends the reading.
-/
namespace ChartAdvisor
namespace CommandLine

/-- How the result is printed. -/
inductive Layout
  | text | json
deriving DecidableEq

/-- Options with a value. -/
inductive Setting
  | query | shorthand | schema | config | groupBy | top | format
deriving DecidableEq

instance : Vocabulary Setting where
  kind := "option"
  all := [.query, .shorthand, .schema, .config, .groupBy, .top, .format]
  name
    | .query => "query"
    | .shorthand => "shorthand"
    | .schema => "schema"
    | .config => "config"
    | .groupBy => "group-by"
    | .top => "top"
    | .format => "format"

/-- The options read so far. -/
structure Options where
  query : Option String := none
  shorthand : Option String := none
  schema : Option String := none
  config : Option String := none
  groupBy : List String := []
  /-- How many charts or groups are printed on each level. -/
  top : Option Nat := none
  format : Option Layout := none
  verbose : Bool := false

/-- What the arguments ask for. -/
inductive Command
  | help
  | version
  | recommend (schema : String) (o : Options)

/-- Why arguments are refused. -/
inductive Misuse
  | unexpected (argument : String)
  | noValue (argument : String)
  | badValue (argument value : String)
  | repeated (argument : String)
  | conflict
  | noSchema

def Misuse.message : Misuse → String
  | unexpected argument => s!"unexpected argument '{argument}'"
  | noValue argument => s!"a value is required for '{argument}'"
  | badValue argument value => s!"invalid value '{value}' for '{argument}'"
  | repeated argument => s!"'{argument}' cannot be used more than once"
  | conflict => "'--query' cannot be used with '--shorthand'"
  | noSchema => "'--schema' is required"

/-- Reads a count that fits an unsigned 64-bit word; a plus sign may stand in front. -/
def readCount? (text : String) : Option Nat :=
  let digits := match text.toList with
    | '+' :: rest => rest
    | cs => cs
  let n := Scientific.digitsValue digits
  if !digits.isEmpty && digits.all Char.isDigit && n < twoTo 64 then some n else none

def readLayout? : String → Option Layout
  | "text" => some .text
  | "json" => some .json
  | _ => none

namespace Options

/-- The value of an option that is given once and has to be read. -/
def once {α : Type} (argument value : String) (old read : Option α) : Except Misuse (Option α) :=
  match old, read with
  | some _, _ => .error (.repeated argument)
  | none, some a => .ok (some a)
  | none, none => .error (.badValue argument value)

/-- A path has at least one character. -/
def path? (value : String) : Option String := if value.isEmpty then none else some value

/-- Takes the value of an option. -/
def set (o : Options) (s : Setting) (value : String) : Except Misuse Options :=
  let argument := "--" ++ Vocabulary.name s
  match s with
  | .query => (once argument value o.query (path? value)).map fun query => { o with query }
  | .shorthand => (once argument value o.shorthand (some value)).map fun shorthand =>
      { o with shorthand }
  | .schema => (once argument value o.schema (path? value)).map fun schema => { o with schema }
  | .config => (once argument value o.config (path? value)).map fun config => { o with config }
  | .groupBy => .ok { o with groupBy := o.groupBy ++ [value] }
  | .top => (once argument value o.top (readCount? value)).map fun top => { o with top }
  | .format => (once argument value o.format (readLayout? value)).map fun format => { o with format }

/-- What complete options ask for. -/
def finish (o : Options) : Except Misuse Command :=
  if o.query.isSome && o.shorthand.isSome then .error .conflict
  else
    match o.schema with
    | some schema => .ok (.recommend schema o)
    | none => .error .noSchema

end Options

/-- What one argument is. -/
inductive Token
  | help
  | version
  | verbose
  | setting (s : Setting) (value : Option String)
  | optionsEnd
  | other

/-- The token of an argument that starts with two dashes, without them. -/
def longToken (body : List Char) : Token :=
  let name := String.ofList (body.takeWhile (· != '='))
  match name, body.dropWhile (· != '=') with
  | "help", [] => .help
  | "version", [] => .version
  | "verbose", [] => .verbose
  | name, behind =>
    match Vocabulary.ofName? name with
    | some s => .setting s (behind.tail?.map String.ofList)
    | none => .other

def token (argument : String) : Token :=
  match argument.toList with
  | ['-', '-'] => .optionsEnd
  | '-' :: '-' :: body => longToken body
  | '-' :: 'h' :: _ => .help
  | '-' :: 'V' :: _ => .version
  | _ => .other

/-- Whether an argument cannot be the value of the option before it. -/
def looksLikeOption (argument : String) : Bool :=
  match argument.toList with
  | '-' :: _ :: _ => true
  | _ => false

/-- Reads arguments after the options that are known already. -/
def read (o : Options) : List String → Except Misuse Command
  | [] => o.finish
  | argument :: rest =>
    match token argument with
    | .help => .ok .help
    | .version => .ok .version
    | .verbose =>
      if o.verbose then .error (.repeated argument) else read { o with verbose := true } rest
    | .setting s (some value) => do read (← o.set s value) rest
    | .setting s none =>
      match rest with
      | [] => .error (.noValue argument)
      | value :: rest =>
        if looksLikeOption value then .error (.noValue argument)
        else do read (← o.set s value) rest
    | .optionsEnd =>
      match rest with
      | [] => o.finish
      | extra :: _ => .error (.unexpected extra)
    | .other => .error (.unexpected argument)

/-- The files that the options name. -/
def Command.paths : Command → List String
  | .recommend schema o => schema :: (o.config.toList ++ o.query.toList)
  | _ => []

/-! ## Running -/

/-- What a run leaves: its exit code, what it prints, and what it says of a failure. -/
structure Outcome where
  code : Nat
  output : String := ""
  complaint : String := ""

def failed (code : Nat) (message : String) : Outcome := { code, complaint := message ++ "\n" }

/-- The name and the version of the program. -/
def version : String := "compass-demo 0.1.0\n"

def usage : String :=
  "Recommend charts for a partial chart query against a dataset schema\n\n" ++
  "Usage: compass-demo [OPTIONS] --schema <SCHEMA>\n\nOptions:\n" ++
  "      --query <QUERY>          Query file, either a full query or a bare spec\n" ++
  "      --shorthand <SHORTHAND>  Query written as shorthand\n" ++
  "      --schema <SCHEMA>        Schema file\n" ++
  "      --config <CONFIG>        Configuration file overriding the defaults\n" ++
  "      --group-by <GROUP_BY>    Grouping key per level\n" ++
  "      --top <TOP>              How many candidates or groups to print [default: 10]\n" ++
  "      --format <FORMAT>        text or json [default: text]\n" ++
  "      --verbose                Log enumeration and pruning at debug level\n" ++
  "  -h, --help                   Print help\n" ++
  "  -V, --version                Print version\n"

/-- The key that a word stands for: a known name, or a list of properties. -/
def readKey (word : String) : Except UnknownWord GroupKey :=
  if GroupKey.names.contains word then .ok (.named word)
  else (Property.parseList word).map fun properties =>
    .properties (properties.map fun property => { property })

/-- A number with three decimals, set right in eight columns. -/
def scoreColumn (x : Binary64) : String :=
  let text := x.fixed 3
  String.ofList (List.replicate (8 - text.length) ' ') ++ text

mutual

/-- One line for a chart; one for a group, and its members below it. -/
def treeText (limit : Nat) (indent : String) : ResultTree → String
  | .leaf d =>
    indent ++ scoreColumn (d.scoreOf Ranking.overall.name) ++ "  " ++ d.shorthand ++ "\n"
  | .group name path items =>
    indent ++ "[" ++ name ++ "] " ++ toString (ResultTree.group name path items).drafts.length ++
      " candidate(s)\n" ++ itemsText limit limit (indent ++ "  ") items

/-- The first `left` trees of a level; `limit` of every level below. -/
def itemsText (limit left : Nat) (indent : String) : List ResultTree → String
  | [] => ""
  | t :: rest =>
    match left with
    | 0 => ""
    | left + 1 => treeText limit indent t ++ itemsText limit left indent rest

end

/-- The query, the charts that were found, and the best of them in full. -/
def resultText (limit : Nat) (r : Recommendation) : String :=
  let top := match r.top? with
    | some d => "\nTop chart:\n" ++ (encode d.toChart?).pretty ++ "\n"
    | none => ""
  "Query: " ++ r.request.spec.shorthand ++ "\n" ++
    "Candidates: " ++ toString r.result.drafts.length ++ "\n" ++
    itemsText limit limit "" r.result.items ++ top

/-- What is printed for a result. -/
def render (o : Options) (r : Recommendation) : String :=
  match o.format.getD .text with
  | .json => r.toJson.pretty ++ "\n"
  | .text => resultText (o.top.getD 10) r

/-- The request that the options name. -/
def request (files : Files) (o : Options) : Except String Request :=
  let found : Except String Request := match o.query, o.shorthand with
    | some path, _ => (Request.load files path).mapError Error.message
    | none, some text =>
      match ChartQuery.ofShorthand text with
      | .ok spec => .ok { spec }
      | .error e => .error e.message
    | none, none => .error "either --query or --shorthand is required"
  do
    let r ← found
    let keys ← (o.groupBy.mapM readKey).mapError UnknownWord.message
    return { r with nest := r.nest ++ keys.map fun groupBy => { groupBy } }

/-- Reads what the options name and recommends charts. -/
def recommend (files : Files) (schema : String) (o : Options) : Except String Recommendation := do
  let advisor ← (Advisor.load files schema o.config).outcome.mapError Error.message
  let r ← request files o
  let r := if o.verbose then
      { r with config := some { r.config.getD advisor.config with verbose := true } }
    else r
  (advisor.recommend r).outcome.mapError ({} : Reporter).report

/-- A run of the program. -/
def run (files : Files) (arguments : List String) : Outcome :=
  match read {} arguments with
  | .error e => failed 2 e.message
  | .ok .help => { code := 0, output := usage }
  | .ok .version => { code := 0, output := version }
  | .ok (.recommend schema o) =>
    match recommend files schema o with
    | .error message => failed 1 message
    | .ok r => { code := 0, output := render o r }

end CommandLine
end ChartAdvisor
