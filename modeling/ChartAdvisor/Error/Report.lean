import ChartAdvisor.Error.Basic

/-!
# Reports of errors

How grave an error is, what to try next, and the text that is shown for it, with or without
colours and suggestions.
-/
namespace ChartAdvisor

/-- How grave an error is, from the least to the gravest. -/
inductive Severity
  | info | warning | error | critical
deriving DecidableEq

namespace Severity

def all : List Severity := [info, warning, error, critical]

def name : Severity → String
  | info => "INFO"
  | warning => "WARNING"
  | error => "ERROR"
  | critical => "CRITICAL"

/-- The terminal sequence of the colour. -/
def colour : Severity → String
  | info => "\x1b[36m"
  | warning => "\x1b[33m"
  | error => "\x1b[31m"
  | critical => "\x1b[35m"

def rank : Severity → Nat
  | info => 0
  | warning => 1
  | error => 2
  | critical => 3

end Severity

namespace Error

/-- Whether a change of the input can mend the error. -/
def isRecoverable : Error → Bool
  | shorthand _ | config _ => true
  | draft (.duplicateName _) | draft (.badStackOffset _) => true
  | schema (.fieldNotFound _) => true
  | _ => false

def category : Error → String
  | shorthand _ => "Shorthand"
  | draft _ => "Model"
  | rule _ => "Constraint"
  | schema _ => "Schema"
  | config _ => "Configuration"
  | unreadable => "I/O"
  | serialisation _ => "Serialisation"

def suggestions : Error → List String
  | shorthand (.malformed ..) =>
    ["Use the form mark|channel:fn(field,type,key=value)",
      "Check that JSON fragments in parameters are balanced"]
  | draft (.duplicateName _) =>
    ["Give every named wildcard in the query a distinct name",
      "Drop the name to let the default per-encoding name apply"]
  | draft (.badStackOffset _) =>
    ["Set config.stack to zero, center, normalize, none, true or false"]
  | rule (.unsupported ..) =>
    ["Remove the mark from the enumerated mark list",
      "Disable the configurable rule that covers this mark"]
  | schema (.fieldNotFound _) =>
    ["Check the field name spelling",
      "Verify the schema file lists every field used by the query"]
  | _ => ["Check the error message for specific guidance"]

/-- The message for a reader who does not know the rules. -/
def userMessage : Error → String
  | rule (.unsupported _ mark) => s!"Mark '{mark}' is not supported by the recommendation rules."
  | schema .empty => "The schema is empty. Please provide at least one field."
  | e => e.message

def severity : Error → Severity
  | shorthand _ => .warning
  | rule (.unsupported ..) | rule (.unresolved ..) => .critical
  | _ => .error

end Error

/-- What a report shows. -/
structure Reporter where
  showSuggestions : Bool := true
  coloured : Bool := true

/-- The text of a report. -/
def Reporter.report (r : Reporter) (e : Error) : String :=
  let head := "[" ++ e.severity.name ++ "] " ++ e.userMessage ++ " (" ++ e.category ++ ")\n"
  let head := if r.coloured then e.severity.colour ++ head ++ "\x1b[0m" else head
  if r.showSuggestions then
    head ++ "\nSuggestions:\n" ++ String.join (e.suggestions.map fun s => s!"  • {s}\n")
  else head

end ChartAdvisor
