import ChartAdvisor.Json.Basic

/-!
# Documents

What a text in any of the formats says before it is known what it should hold: scalars, lists,
and mappings whose entries keep their order and may repeat a key. A scalar of which no value can
be made is part of a document like any other, and is refused only where its value is asked for.

There are two readings of a document. By meaning, a scalar is first taken for what it says by
itself. By spelling, a scalar that is written without quotes is read as what is wanted in its
place, so that `null` may be a word and `7` a text.
-/
namespace ChartAdvisor

/-- A value that is not made of others. -/
inductive Scalar
  | null
  | bool (b : Bool)
  | number (n : Number)
  | text (s : String)
  /-- An infinity, or what is not a number. -/
  | unbounded
  /-- A number that is out of range, or a text with half a character. -/
  | unreadable
deriving DecidableEq

/-- The value as JSON, which has no word for a number without bounds but `null`. -/
def Scalar.toJson? : Scalar → Option Json
  | null | unbounded => some .null
  | bool b => some (.bool b)
  | number n => some (.number n)
  | text s => some (.text s)
  | unreadable => none

/-- What a text says; a scalar without quotes keeps its spelling in formats where texts need
none. -/
inductive Document
  | scalar (value : Scalar) (spelling : Option String)
  | list (items : List Document)
  | mapping (entries : List (Document × Document))
deriving Inhabited

/-- The two ways to read a document. -/
inductive Reading
  | byMeaning | bySpelling
deriving DecidableEq

namespace Document

/-- The text of a key. -/
def key? : Reading → Document → Option String
  | .byMeaning, scalar (.text s) _ => some s
  | .bySpelling, scalar (.text s) none => some s
  | .bySpelling, scalar _ spelling => spelling
  | _, _ => none

/-- A scalar of which nothing is written. -/
def isBlank : Document → Bool
  | scalar _ (some "") => true
  | _ => false

/-- A scalar that is spelled with a minus. -/
def isNegated : Document → Bool
  | scalar _ (some s) => s.toList.head? == some '-'
  | _ => false

mutual

/-- The document as JSON, with the last of several entries under one key; at most `depth` lists
and mappings may stand inside one another. -/
def toJson? (r : Reading) : (depth : Nat) → Document → Option Json
  | _, scalar s _ => s.toJson?
  | depth + 1, list items => (itemsToJson? r depth items).map .list
  | depth + 1, mapping entries => (entriesToJson? r depth entries).map fun ms => .object (Json.extend [] ms)
  | 0, list _ | 0, mapping _ => none

def itemsToJson? (r : Reading) (depth : Nat) : List Document → Option (List Json)
  | [] => some []
  | d :: rest => do
    let v ← toJson? r depth d
    let vs ← itemsToJson? r depth rest
    return v :: vs

def entriesToJson? (r : Reading) (depth : Nat) :
    List (Document × Document) → Option (List (String × Json))
  | [] => some []
  | (k, d) :: rest => do
    let k ← k.key? r
    let v ← toJson? r depth d
    let ms ← entriesToJson? r depth rest
    return (k, v) :: ms

end

mutual

/-- Whether every scalar has a value, and at most `depth` lists and mappings stand inside one
another. -/
def isReadable : (depth : Nat) → Document → Bool
  | _, scalar s _ => s != .unreadable
  | depth + 1, list items => areReadable depth items
  | depth + 1, mapping entries => hasReadableEntries depth entries
  | 0, list _ | 0, mapping _ => false

def areReadable (depth : Nat) : List Document → Bool
  | [] => true
  | d :: rest => isReadable depth d && areReadable depth rest

def hasReadableEntries (depth : Nat) : List (Document × Document) → Bool
  | [] => true
  | (k, d) :: rest => isReadable depth k && isReadable depth d && hasReadableEntries depth rest

end

mutual

/-- A JSON value as a document. -/
def ofJson : Json → Document
  | .null => .scalar .null none
  | .bool b => .scalar (.bool b) none
  | .number n => .scalar (.number n) none
  | .text s => .scalar (.text s) none
  | .list items => .list (ofItems items)
  | .object members => .mapping (ofMembers members)

def ofItems : List Json → List Document
  | [] => []
  | v :: rest => ofJson v :: ofItems rest

def ofMembers : List (String × Json) → List (Document × Document)
  | [] => []
  | (k, v) :: rest => (.scalar (.text k) none, ofJson v) :: ofMembers rest

end

/-- The name that a key stands for, inside another option that is empty where it is none of the
names of a record. By meaning, a number without a minus stands for the name in its position.
Other keys cannot stand in a record. -/
def partName? (r : Reading) (names : List String) (key : Document) : Option (Option String) :=
  match r, key with
  | .byMeaning, scalar (.number n) _ =>
    if key.isNegated then none else n.toNat?.map fun position => names[position]?
  | _, _ => (key.key? r).map fun s => if names.contains s then some s else none

/-- The parts of a record that has parts of these names. A part may be given once only, and what
stands under other keys is passed over. By meaning, a list gives the parts in their order; by
spelling, a record of which nothing is written has no parts. -/
def parts? (r : Reading) (names : List String) : Document → Option (List (String × Document))
  | mapping entries => do
    let named ← entries.mapM fun (k, d) => (partName? r names k).map (·, d)
    let parts := named.filterMap fun (name, d) => name.map (·, d)
    if (parts.map Prod.fst).Nodup then some parts else none
  | list items => if r = .byMeaning ∧ items.length ≤ names.length then some (names.zip items) else none
  | d => if r = .bySpelling ∧ d.isBlank then some [] else none

end Document
end ChartAdvisor
