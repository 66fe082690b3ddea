import ChartAdvisor.Choice
import ChartAdvisor.Property
import ChartAdvisor.Text.Escaped

/-!
# Errors

Everything that can go wrong is a cause with the data it is about; `Error.message` puts it
into words. Where a file or a text of another format could not be read, the words end in a
mark such as `<yaml>` and not in an account of the place.
-/
namespace ChartAdvisor

/-- What is wrong with the form of a shorthand. -/
inductive ShorthandFault
  | missingMark
  | noChannel (part : String)
  | noValue (rest : String)
  | unbalanced (after : String)
  | unterminated (after : String)
  | noComma (rest : String)
  | unknownType (letter : String)
  | unknownParameter (key : String)
  | unknownFunction (name : String)
  | unknownFunctionProperty (key : String)
  | strayBinParameters
  | notWildcard (found : Json)
  | unbalancedFunction
  | noParenthesis
deriving DecidableEq

def ShorthandFault.message : ShorthandFault → String
  | missingMark => "missing mark"
  | noChannel part => s!"encoding '{part}' has no channel"
  | noValue rest => s!"parameter '{rest}' has no value"
  | unbalanced after => s!"unbalanced brackets in '{after}'"
  | unterminated after => s!"unterminated string in '{after}'"
  | noComma rest => s!"expected ',' before '{rest}'"
  | unknownType letter => s!"unknown type '{letter}'"
  | unknownParameter key => s!"unknown parameter '{key}'"
  | unknownFunction name => s!"unknown function '{name}'"
  | unknownFunctionProperty key => s!"unknown function property '{key}'"
  | strayBinParameters => "bin parameters without a bin function"
  | notWildcard found => "'" ++ found.compact ++ "' is not a wildcard"
  | unbalancedFunction => "unbalanced function wildcard"
  | noParenthesis => "expected '(' after function wildcard"

/-- Why a shorthand could not be read. -/
inductive ShorthandError
  | malformed (input : String) (fault : ShorthandFault)
  | badJson (fragment : String) (cause : JsonError)
  | unknownWord (e : UnknownWord)
deriving DecidableEq

def ShorthandError.message : ShorthandError → String
  | malformed input fault => s!"Malformed shorthand '{input}': " ++ fault.message
  | badJson fragment cause => s!"Invalid JSON fragment '{fragment}': " ++ cause.message
  | unknownWord e => e.message

/-- What can go wrong when a draft is built or changed. -/
inductive DraftError
  | duplicateName (name : String)
  | outOfRange (index count : Nat)
  | notOpen (property : Property) (index : Nat)
  | markNotOpen
  | mismatch (property : Property) (value : Choice)
  | notOfEncoding (property : Property)
  | badStackOffset (value : Json)
deriving DecidableEq

def DraftError.message : DraftError → String
  | duplicateName name => s!"Wildcard name '{name}' is used more than once in the query"
  | outOfRange index count => s!"Encoding index {index} is out of range ({count} encodings)"
  | notOpen p index => "Property '" ++ p.name ++ s!"' of encoding {index} is not a wildcard slot"
  | markNotOpen => "Mark is not a wildcard slot"
  | mismatch p value => "Value " ++ value.text ++ " cannot be assigned to property '" ++ p.name ++ "'"
  | notOfEncoding p => "Property '" ++ p.name ++ "' is not an encoding property"
  | badStackOffset value =>
    "Stack offset " ++ value.compact ++ " is not one of zero, center, normalize or none"

/-- What is wrong with a schema, or with a field that is looked up in it. -/
inductive SchemaError
  | fieldNotFound (field : String)
  | duplicateField (name : String)
  | empty
  | unreadable (path : String)
  | malformed
  | openField
deriving DecidableEq

def SchemaError.message : SchemaError → String
  | fieldNotFound field => s!"Field '{field}' not found in schema"
  | duplicateField name => s!"Duplicate field name found: '{name}'"
  | empty => "Schema has no fields"
  | unreadable path => s!"Failed to read schema file '{path}': <io>"
  | malformed => "Failed to parse schema: <parse>"
  | openField => "Failed to parse schema: cardinality of an unresolved field"

/-- What can go wrong when a rule is run. -/
inductive RuleError
  | unsupported (rule mark : String)
  | unresolved (property : Property) (index : Nat)
  | schema (e : SchemaError)
deriving DecidableEq

def RuleError.message : RuleError → String
  | unsupported rule mark => s!"Constraint '{rule}' has no rule for mark '{mark}'"
  | unresolved p index =>
    "Constraint 'checkEncoding' read unresolved property '" ++ p.name ++ s!" of encoding {index}'"
  | schema e => e.message

/-- What is wrong with a setting of the configuration. -/
inductive ConfigFault
  | zeroBins
  | proportion (value : Binary64.Extended)
  | zeroCeiling
  | notAxis (found : Channel)
  | notFacet (found : Channel)
  | missing (property : Property)
  | beforeParent (property parent : Property)
  | unresolved (property : Property)
  | unknownRanking (name : String)
  | unknownGrouping (name : String)
deriving DecidableEq

/-- Numbers in messages never have an exponent, and whole numbers no point. -/
def ConfigFault.layout : DecimalLayout := ⟨-400, 400, false⟩

def ConfigFault.message : ConfigFault → String
  | zeroBins => "must only hold positive bin counts"
  | proportion x => "must be between 0.0 and 1.0, got " ++ layout.renderExtended x
  | zeroCeiling => "must be greater than 0"
  | notAxis c => "must be x or y, got " ++ Vocabulary.name c
  | notFacet c => "must be row or column, got " ++ Vocabulary.name c
  | missing p => "is missing '" ++ p.name ++ "'"
  | beforeParent p parent => "'" ++ p.name ++ "' must come after '" ++ parent.name ++ "'"
  | unresolved p => "leaves '" ++ p.name ++ "' unresolved"
  | unknownRanking name => s!"names unknown ranking '{name}'"
  | unknownGrouping name => "has unknown groupBy Named(" ++ Text.escaped name ++ ")"

/-- Why a configuration, or a request that goes with one, is refused. -/
inductive ConfigError
  | invalid (setting : String) (fault : ConfigFault)
  | emptyList (setting : String)
  | unsupportedFormat (path : String)
  | validation (reason : String)
deriving DecidableEq

def ConfigError.message : ConfigError → String
  | invalid setting fault => s!"Invalid configuration: {setting} " ++ fault.message
  | emptyList setting => s!"Configuration list '{setting}' must not be empty"
  | unsupportedFormat path => s!"Unsupported configuration format for '{path}'"
  | validation reason => s!"Configuration validation failed: {reason}"

/-- Why a written value could not be read. -/
inductive SerialisationError
  | json (cause : JsonError)
  | yaml
  | unexpectedShape (expected found : String)
deriving DecidableEq

def SerialisationError.message : SerialisationError → String
  | json cause => "JSON serialisation failed: " ++ cause.message
  | yaml => "YAML serialisation failed: <yaml>"
  | unexpectedShape expected found => s!"Expected {expected} but found {found}"

/-- Every error of the library. -/
inductive Error
  | shorthand (e : ShorthandError)
  | draft (e : DraftError)
  | rule (e : RuleError)
  | schema (e : SchemaError)
  | config (e : ConfigError)
  | unreadable
  | serialisation (e : SerialisationError)
deriving DecidableEq

namespace Error

/-- A failed reading of JSON. -/
def json (cause : JsonError) : Error := .serialisation (.json cause)

def message : Error → String
  | shorthand e => "Shorthand error: " ++ e.message
  | draft e => "Query model error: " ++ e.message
  | rule e => "Constraint error: " ++ e.message
  | schema e => "Schema error: " ++ e.message
  | config e => "Configuration error: " ++ e.message
  | unreadable => "I/O error: <io>"
  | serialisation e => "Serialisation error: " ++ e.message

end Error
end ChartAdvisor
