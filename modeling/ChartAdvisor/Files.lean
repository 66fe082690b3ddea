import ChartAdvisor.Recommendation
import ChartAdvisor.Yaml.Reader

/-!
# Files

Schemas, configurations and requests as they are kept in files. A file is read as JSON or as
YAML, as its extension says. Files are given as a function from paths to texts, so that what is
read from them does not depend on anything else.
-/
namespace ChartAdvisor

/-- The texts of the files that can be read. -/
abbrev Files := String → Option String

/-- The last part of a path that is a name, nothing where the path ends in `..`. -/
def fileName? (path : String) : Option (List Char) :=
  (((Text.splitAt (· == '/') path.toList).filter fun part => !part.isEmpty && part != ['.']).getLast?).filter
    (· != ['.', '.'])

/-- What stands behind the last point of a file's name, unless the name starts there. -/
def extension? (path : String) : Option String :=
  (fileName? path).bind fun name =>
    let behind := name.reverse.takeWhile (· != '.')
    if behind.length + 1 < name.length then some (String.ofList behind.reverse) else none

/-- How a document is written in a file. -/
inductive Format
  | json | yaml
deriving DecidableEq

namespace Format

def ofExtension? : String → Option Format
  | "json" => some json
  | "yaml" | "yml" => some yaml
  | _ => none

/-- The format that the extension of a path names. -/
def ofPath? (path : String) : Option Format := (extension? path).bind ofExtension?

/-- The document that a text holds. -/
def read? : Format → String → Option Document
  | json, text => Json.readDocument? text.toList
  | yaml, text => Yaml.read? text

/-- How records are read from a file. -/
def reading : Format → Reading
  | json => .byMeaning
  | yaml => .bySpelling

/-- How many lists and mappings may stand inside one another. -/
def depthLimit : Format → Nat
  | json => Json.depthLimit
  | yaml => Yaml.depthLimit

/-- The error of a text that is not in the format or does not hold what it should. -/
def error : Format → Error
  | json => .json .malformed
  | yaml => .serialisation .yaml

end Format

/-- Reads a schema and tells that it was built. -/
def Schema.ofText (format : Format) (text : String) : Logged Schema := do
  let found : Except SchemaError Schema := match format.read? text with
    | some d => Schema.ofDocument format.depthLimit d
    | none => .error .malformed
  let schema ← .ofExcept (found.mapError .schema)
  Logged.tell (.schemaBuilt schema.fields.length)
  return schema

/-- Reads the schema in a file, as JSON unless the extension says otherwise. -/
def Schema.load (files : Files) (path : String) : Logged Schema :=
  match files path with
  | some text => Schema.ofText ((Format.ofPath? path).getD .json) text
  | none => Logged.fail (.schema (.unreadable path))

/-- Reads a configuration that a search can work with. -/
def Config.ofText (format : Format) (text : String) : Except Error Config := do
  let config ← match (format.read? text).bind (Readable.read? format.reading format.depthLimit) with
    | some config => .ok config
    | none => .error format.error
  config.validate.mapError .config
  return config

/-- Reads the configuration in a file; the extension has to name a format. -/
def Config.load (files : Files) (path : String) : Logged Config :=
  match files path, Format.ofPath? path with
  | some text, some format => do
    let config ← .ofExcept (Config.ofText format text)
    Logged.tell (.configLoaded path)
    return config
  | some _, none => Logged.fail (.config (.unsupportedFormat path))
  | none, _ => Logged.fail .unreadable

/-- Reads a request, or a chart query alone, from a text in either format. -/
def Request.ofText (text : String) : Except Error Request :=
  match (Yaml.read? text).bind (Document.toJson? .bySpelling Yaml.depthLimit) with
  | some v => (Request.ofJson v).mapError .json
  | none => .error (.serialisation .yaml)

/-- Reads the request in a file. -/
def Request.load (files : Files) (path : String) : Except Error Request :=
  match files path with
  | some text => Request.ofText text
  | none => .error .unreadable

/-- Reads the schema and the configuration of an advisor; without a path for it, the
configuration is the default one. -/
def Advisor.load (files : Files) (schemaPath : String) (configPath : Option String) :
    Logged Advisor := do
  let schema ← Schema.load files schemaPath
  let config ← match configPath with
    | some path => Config.load files path
    | none => pure {}
  Logged.tell (.advisorReady schema.fields.length)
  .ofExcept ((Advisor.withConfig schema config).mapError .config)

end ChartAdvisor
