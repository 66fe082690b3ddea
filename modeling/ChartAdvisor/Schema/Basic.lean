import ChartAdvisor.Document.Readable
import ChartAdvisor.Encoding.Field
import ChartAdvisor.Error.Basic

/-!
# Schemas

What is known of the fields of a data set. A schema has at least one field and no two
fields of one name. `Schema.cardinality` says how many values an encoded field takes.
-/
namespace ChartAdvisor

/-- Counts of a field's values. -/
structure Stats where
  distinct : Nat
  min : Option Json := none
  max : Option Json := none
deriving DecidableEq

/-- A field, with further counts for some bins and time units. -/
structure FieldSchema where
  name : String
  type : FieldType
  primitive : PrimitiveType
  stats : Stats
  /-- By the greatest number of bins. -/
  binStats : List (UInt32 × Stats) := []
  timeStats : List (TimeUnit × Stats) := []
deriving DecidableEq

namespace Stats

def toJson (s : Stats) : Json :=
  .ofPresent [("distinct", some (encode s.distinct)), ("min", s.min), ("max", s.max)]

instance : Readable Stats where
  read? r depth d := do
    let p ← Parts.ofDocument? ["distinct", "min", "max"] r depth d
    return ⟨← p.required "distinct", ← p.orElse "min" none, ← p.orElse "max" none⟩

end Stats

namespace FieldSchema

def toJson (f : FieldSchema) : Json :=
  .ofPresent [
    ("field", some (.text f.name)),
    ("type", some (encode f.type)),
    ("primitiveType", some (encode f.primitive)),
    ("stats", some f.stats.toJson),
    ("binStats", if f.binStats.isEmpty then none
      else some (.object (f.binStats.map fun (n, s) => (toString n.toNat, s.toJson)))),
    ("timeStats", if f.timeStats.isEmpty then none
      else some (.object (f.timeStats.map fun (u, s) => (Vocabulary.name u, s.toJson))))]

/-- The entries of a mapping, read with a reader for the keys; the last of several entries under
one key counts. -/
def statsBy? {κ : Type} [BEq κ] (p : Parts) (readKey : Document → Option κ) :
    Document → Option (List (κ × Stats))
  | .mapping entries =>
    entries.foldlM (fun found (k, d) => do
      let key ← readKey k
      return Table.put key (← read? p.reading p.depth d) found) []
  | _ => none

/-- Reads a field; `binKey` says how a number of bins is written as a key. -/
def ofDocument? (binKey : Document → Option UInt32) (depth : Nat) (d : Document) :
    Option FieldSchema := do
  let p ← Parts.ofDocument? ["field", "type", "primitiveType", "stats", "binStats", "timeStats"]
    .byMeaning depth d
  return {
    name := ← p.required "field"
    type := ← p.required "type"
    primitive := ← p.required "primitiveType"
    stats := ← p.required "stats"
    binStats := ← match p.named.lookup "binStats" with
      | some d => statsBy? p binKey d
      | none => some []
    timeStats := ← match p.named.lookup "timeStats" with
      | some d => statsBy? p (read? p.reading p.depth) d
      | none => some [] }

/-- A number of bins that is a scalar of its own and not a text. -/
def numericKey? (k : Document) : Option UInt32 := read? .byMeaning 0 k

/-- A number of bins that is written as a text. -/
def textKey? (k : Document) : Option UInt32 := do
  let text ← k.key? .byMeaning
  match Json.read? text.toList with
  | some (.number n) => if text.toList.any Json.isBlank then none else n.toCount?
  | _ => none

def withBins (f : FieldSchema) (maxbins : UInt32) (distinct : Nat) : FieldSchema :=
  { f with binStats := Table.put maxbins { distinct } f.binStats }

def withUnit (f : FieldSchema) (unit : TimeUnit) (distinct : Nat) : FieldSchema :=
  { f with timeStats := Table.put unit { distinct } f.timeStats }

end FieldSchema

/-- The fields of a data set, in order. -/
structure Schema where
  fields : List FieldSchema
  ne_nil : fields ≠ []
  nodup : (fields.map FieldSchema.name).Nodup

namespace Schema

def ofFields (fields : List FieldSchema) : Except SchemaError Schema :=
  if h : fields = [] then .error .empty
  else if hn : (fields.map FieldSchema.name).Nodup then .ok ⟨fields, h, hn⟩
  else .error (.duplicateField ((Table.firstRepeated? [] (fields.map FieldSchema.name)).getD ""))

/-- Reads a list of fields, or a mapping that has one under `fields`. All of the document has to
be readable, even what is passed over. -/
def ofDocument (depth : Nat) (d : Document) : Except SchemaError Schema :=
  let read (items : List Document) : Except SchemaError Schema :=
    match items.mapM (FieldSchema.ofDocument? FieldSchema.numericKey? depth) with
    | some fields => ofFields fields
    | none => .error .malformed
  if d.isReadable depth then
    match d with
    | .list items => read items
    | .mapping entries =>
      match Document.parts? .byMeaning ["fields"] (.mapping entries) with
      | some [(_, .list items)] => read items
      | _ => .error .malformed
    | .scalar .. => .error .malformed
  else .error .malformed

def names (s : Schema) : List String := s.fields.map FieldSchema.name

def field? (s : Schema) (name : String) : Option FieldSchema := s.fields.find? (·.name == name)

def index? (s : Schema) (name : String) : Option Nat := s.fields.findIdx? (·.name == name)

def type? (s : Schema) (name : String) : Option FieldType := (s.field? name).map FieldSchema.type

def primitive? (s : Schema) (name : String) : Option PrimitiveType :=
  (s.field? name).map FieldSchema.primitive

/-- The number of bins that a bin without one has at most. -/
def defaultMaxBins : UInt32 := 10

/-- How many values a field takes: by its bins if it is binned, else by its time unit, else
as it stands. The field `*` takes one. -/
def cardinality (s : Schema) (q : FieldEncoding) : Except SchemaError Nat :=
  match q.field with
  | .wild _ => .error .openField
  | .fixed name =>
    if name = "*" then .ok 1
    else
      match s.field? name with
      | none => .error (.fieldNotFound name)
      | some f =>
        if q.isBinned then
          let maxbins := ((q.bin?.bind Bin.maxbins).bind Slot.value?).getD defaultMaxBins
          match f.binStats.lookup maxbins with
          | some stats => .ok stats.distinct
          | none => .ok (min f.stats.distinct maxbins.toNat)
        else
          match q.timeUnit? with
          | none => .ok f.stats.distinct
          | some unit =>
            match f.timeStats.lookup unit with
            | some stats => .ok stats.distinct
            | none => .ok (unit.cycle?.getD f.stats.distinct)

end Schema
end ChartAdvisor
