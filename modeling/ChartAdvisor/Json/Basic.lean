import ChartAdvisor.Number.Decimal
import ChartAdvisor.Table

/-!
# JSON values

A number is an integer when it fits a signed or an unsigned 64-bit word, and a 64-bit
floating point number otherwise. The members of an object form a list. Values that come
from the reader list them by key, strictly ascending; values that are about to be printed
may list them in the order in which a record declares them, and `Json.sorted` puts them
in order.
-/
namespace ChartAdvisor

/-- Integers that a signed or an unsigned 64-bit word holds. -/
def WordSized (n : Int) : Prop := -9223372036854775808 ≤ n ∧ n < 18446744073709551616

instance (n : Int) : Decidable (WordSized n) := by unfold WordSized; infer_instance

/-- A number as JSON writes it, told apart by its size and its form. -/
inductive Number
  | int (n : Int) (sized : WordSized n)
  | float (x : Binary64)
deriving DecidableEq

namespace Number

/-- A 32-bit count as a number. -/
def ofCount (n : UInt32) : Number :=
  .int n.toNat (by have := n.toNat_lt; unfold WordSized; omega)

/-- An integer as a number, a floating point number when it is too large. -/
def ofInt (n : Int) : Number :=
  if h : WordSized n then .int n h else .float (.ofRat false n)

/-- The number as a natural number that fits an unsigned 64-bit word. -/
def toNat? : Number → Option Nat
  | .int n _ => if 0 ≤ n then some n.toNat else none
  | .float _ => none

/-- The number as a 32-bit count. -/
def toCount? (n : Number) : Option UInt32 :=
  n.toNat?.bind fun k => if k < 4294967296 then some (UInt32.ofNat k) else none

/-- The nearest floating point number. -/
def toBinary64 : Number → Binary64
  | .int n _ => .ofRat false n
  | .float x => x

end Number

/-- A JSON value. -/
inductive Json
  | null
  | bool (b : Bool)
  | number (n : Number)
  | text (s : String)
  | list (items : List Json)
  | object (members : List (String × Json))
deriving Inhabited

namespace Json

/-- The members of an object. -/
abbrev Members := List (String × Json)

mutual

def decEq : (a b : Json) → Decidable (a = b)
  | .null, .null => .isTrue rfl
  | .bool a, .bool b =>
    if h : a = b then .isTrue (h ▸ rfl) else .isFalse fun e => h (Json.bool.inj e)
  | .number a, .number b =>
    if h : a = b then .isTrue (h ▸ rfl) else .isFalse fun e => h (Json.number.inj e)
  | .text a, .text b =>
    if h : a = b then .isTrue (h ▸ rfl) else .isFalse fun e => h (Json.text.inj e)
  | .list a, .list b =>
    match decEqItems a b with
    | .isTrue h => .isTrue (h ▸ rfl)
    | .isFalse h => .isFalse fun e => h (Json.list.inj e)
  | .object a, .object b =>
    match decEqMembers a b with
    | .isTrue h => .isTrue (h ▸ rfl)
    | .isFalse h => .isFalse fun e => h (Json.object.inj e)
  | .null, .bool _ | .null, .number _ | .null, .text _ | .null, .list _ | .null, .object _
  | .bool _, .null | .bool _, .number _ | .bool _, .text _ | .bool _, .list _ | .bool _, .object _
  | .number _, .null | .number _, .bool _ | .number _, .text _ | .number _, .list _
  | .number _, .object _ | .text _, .null | .text _, .bool _ | .text _, .number _
  | .text _, .list _ | .text _, .object _ | .list _, .null | .list _, .bool _
  | .list _, .number _ | .list _, .text _ | .list _, .object _ | .object _, .null
  | .object _, .bool _ | .object _, .number _ | .object _, .text _ | .object _, .list _ =>
    .isFalse (by simp)

def decEqItems : (a b : List Json) → Decidable (a = b)
  | [], [] => .isTrue rfl
  | x :: a, y :: b =>
    match decEq x y, decEqItems a b with
    | .isTrue h, .isTrue k => .isTrue (h ▸ k ▸ rfl)
    | .isFalse h, _ => .isFalse fun e => h (List.cons.inj e).1
    | _, .isFalse h => .isFalse fun e => h (List.cons.inj e).2
  | [], _ :: _ | _ :: _, [] => .isFalse (by simp)

def decEqMembers : (a b : List (String × Json)) → Decidable (a = b)
  | [], [] => .isTrue rfl
  | (k, x) :: a, (l, y) :: b =>
    if hk : k = l then
      match decEq x y, decEqMembers a b with
      | .isTrue h, .isTrue g => .isTrue (by simp [hk, h, g])
      | .isFalse h, _ => .isFalse fun e => h (Prod.mk.inj (List.cons.inj e).1).2
      | _, .isFalse h => .isFalse fun e => h (List.cons.inj e).2
    else .isFalse fun e => hk (Prod.mk.inj (List.cons.inj e).1).1
  | [], _ :: _ | _ :: _, [] => .isFalse (by simp)

end

instance : DecidableEq Json := decEq

/-- The value under a key; the first one, of several. -/
def lookup (members : Members) (key : String) : Option Json := List.lookup key members

/-- Members by ascending key with all of `more` added in turn. -/
def extend (members more : Members) : Members :=
  more.foldl (fun ms (k, v) => Table.insert k v ms) members

def without (members : Members) (key : String) : Members := Table.erase key members

mutual

/-- The value with every object listed by ascending key; of several members with one key
the last one stays. -/
def sorted : Json → Json
  | .list items => .list (sortedItems items)
  | .object members => .object (extend [] (sortedMembers members))
  | v => v

def sortedItems : List Json → List Json
  | [] => []
  | v :: rest => sorted v :: sortedItems rest

def sortedMembers : List (String × Json) → List (String × Json)
  | [] => []
  | (k, v) :: rest => (k, sorted v) :: sortedMembers rest

end

def isNull : Json → Bool
  | .null => true
  | _ => false

def text? : Json → Option String
  | .text s => some s
  | _ => none

def list? : Json → Option (List Json)
  | .list items => some items
  | _ => none

def object? : Json → Option Members
  | .object members => some members
  | _ => none

/-- The member of an object under a key. -/
def get? (v : Json) (key : String) : Option Json :=
  v.object?.bind (lookup · key)

/-- A natural number as a value. -/
def ofNat (n : Nat) : Json := .number (.ofInt n)

/-- An optional value, `null` when absent. -/
def ofOption {α : Type} (f : α → Json) : Option α → Json
  | none => .null
  | some a => f a

/-- An object whose absent members are left out. -/
def ofPresent (members : List (String × Option Json)) : Json :=
  .object (members.filterMap fun (k, v) => v.map (k, ·))

end Json
end ChartAdvisor
