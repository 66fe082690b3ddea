import ChartAdvisor.Json.Coded
import ChartAdvisor.Yaml.Scalar

/-!
# Types that are read from documents

`Readable` says how a type is read under either reading. What a type does not ask for is never
looked at: an unknown part of a record may hold anything that a format can write. `Parts` are the
parts of a record on their way into it.
-/
namespace ChartAdvisor

/-- A type that documents are read into. At most `depth` lists and mappings may stand inside one
another where they are read. -/
class Readable (α : Type) where
  read? : Reading → (depth : Nat) → Document → Option α

export Readable (read?)

instance : Readable Json := ⟨fun r depth d => d.toJson? r depth⟩

instance : Readable Bool where
  read?
    | _, _, .scalar (.bool b) _ => some b
    | _, _, _ => none

instance : Readable String := ⟨fun r _ d => d.key? r⟩

instance : Readable Number where
  read?
    | _, _, .scalar (.number n) _ => some n
    | _, _, _ => none

/-- Natural numbers that fit an unsigned 64-bit word; by spelling they have no minus. -/
instance : Readable Nat where
  read?
    | r, _, .scalar (.number n) spelling =>
      if r = .bySpelling ∧ (Document.scalar (.number n) spelling).isNegated then none else n.toNat?
    | _, _, _ => none

instance : Readable UInt32 where
  read? r depth d := (read? r depth d).bind fun (n : Nat) =>
    if n < 4294967296 then some (UInt32.ofNat n) else none

/-- By spelling, every scalar without quotes that writes a decimal is a number, and none that
writes an integer in another base. -/
instance : Readable Binary64.Extended where
  read?
    | .byMeaning, _, .scalar (.number n) _ => some (.finite n.toBinary64)
    | .bySpelling, _, .scalar _ (some s) => Yaml.float? s
    | _, _, _ => none

/-- An absent value is `null`. -/
instance {α : Type} [Readable α] : Readable (Option α) where
  read?
    | _, _, .scalar .null _ => some none
    | r, depth, d => (read? r depth d).map some

/-- By spelling, a list of which nothing is written is empty. -/
instance {α : Type} [Readable α] : Readable (List α) where
  read?
    | r, depth + 1, .list items => items.mapM (read? r depth)
    | r, _, d => if r = .bySpelling ∧ d.isBlank then some [] else none

/-- The members of an object; by spelling, an object of which nothing is written is empty. -/
instance : Readable Json.Members where
  read?
    | r, depth, .mapping entries => ((Document.mapping entries).toJson? r depth).bind Json.object?
    | r, _, d => if r = .bySpelling ∧ d.isBlank then some [] else none

/-- The parts of a record with the way they are to be read. -/
structure Parts where
  reading : Reading
  depth : Nat
  named : List (String × Document)

namespace Parts

/-- The parts that a document gives of a record with parts of these names. -/
def ofDocument? (names : List String) (r : Reading) (depth : Nat) (d : Document) : Option Parts :=
  match depth with
  | 0 => none
  | depth + 1 => (d.parts? r names).map fun named => ⟨r, depth, named⟩

/-- A part that must be there. -/
def required {α : Type} [Readable α] (p : Parts) (name : String) : Option α :=
  (p.named.lookup name).bind (read? p.reading p.depth)

/-- A part with a value to take when it is left out. -/
def orElse {α : Type} [Readable α] (p : Parts) (name : String) (absent : α) : Option α :=
  match p.named.lookup name with
  | some d => read? p.reading p.depth d
  | none => some absent

end Parts

namespace Json

/-- Reads a JSON value as a member of a type. -/
def readAs? (α : Type) [Readable α] (v : Json) : Option α :=
  Readable.read? .byMeaning depthLimit (Document.ofJson v)

/-- Reads a JSON text as a member of a type. -/
def readTextAs? (α : Type) [Readable α] (text : List Char) : Option α :=
  (readDocument? text).bind (Readable.read? .byMeaning depthLimit)

end Json
end ChartAdvisor
