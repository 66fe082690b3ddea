import ChartAdvisor.Event

/-!
# Walking through the choices for a property

A walk tries every value for every open slot of one property, one encoding after another, and
keeps the drafts that no rule refuses. It changes one draft in place: a value is overwritten by
the next one, and the slot is opened again when its values are used up. A walk that meets an
error stops there, with what it has found so far.
-/
namespace ChartAdvisor

/-- What a walk leaves: the draft as it is now, the drafts that were kept, the refusals in the
order in which they came, and the error that ended it. -/
structure Walk where
  draft : Draft
  found : List Draft := []
  refusals : List Refusal := []
  failure : Option Error := none

namespace Walk

/-- A walk that has not begun. -/
def start (d : Draft) : Walk := { draft := d }

/-- Keeps a draft. -/
def keep (d : Draft) : Walk := { draft := d, found := [d] }

/-- Goes on from where a walk has ended, unless an error ended it. -/
def andThen (w : Walk) (next : Draft → Walk) : Walk :=
  match w.failure with
  | some _ => w
  | none =>
    let v := next w.draft
    { v with found := w.found ++ v.found, refusals := w.refusals ++ v.refusals }

/-- Changes the draft; a change that fails ends the walk. -/
def change : Attempt Draft → (Draft → Walk) → Walk
  | (d, none), next => next d
  | (d, some e), _ => { draft := d, failure := some (.draft e) }

/-- Goes on with a draft if nothing is said against it. -/
def judge (d : Draft) (verdict : Except RuleError (Option Refusal)) (next : Draft → Walk) : Walk :=
  match verdict with
  | .error e => { draft := d, failure := some (.rule e) }
  | .ok (some r) => { draft := d, refusals := [r] }
  | .ok none => next d

/-- Tries one value after another. -/
def tryAll {α : Type} (values : List α) (attempt : α → Draft → Walk) (d : Draft) : Walk :=
  values.foldl (fun w v => w.andThen (attempt v)) (start d)

end Walk

namespace Draft

/-- What the rules say against a draft after a property of an encoding was chosen, those about
encodings first. -/
def verdict (ctx : Context) (index : Nat) (p : Property) (d : Draft) :
    Except RuleError (Option Refusal) := do
  match ← d.refusedByEncoding? ctx index p with
  | some r => return some r
  | none => d.refused? ctx p

/-- The values to try for a property of an encoding. None are tried for a constant, for a count
of rows that is switched off, and for what lies in a part that is switched off. -/
def valuesAt? (d : Draft) (index : Nat) (p : Property) : Option (List Choice) :=
  match d.encoding? index with
  | some e =>
    if !e.isValue && !e.isDisabledAutoCount && e.isOpen p then
      some (((d.slots.slot? index p).map Candidates.values).getD [])
    else none
  | none => none

/-- Tries the values of a property in the listed encodings. -/
def walkEncodings (ctx : Context) (p : Property) : List Nat → Draft → Walk
  | [], d => .keep d
  | index :: rest, d =>
    match d.valuesAt? index p with
    | none => walkEncodings ctx p rest d
    | some values =>
      let tried := Walk.tryAll values (fun v d =>
        Walk.change (d.assign index p v) fun d =>
          Walk.judge d (d.verdict ctx index p) (walkEncodings ctx p rest)) d
      tried.andThen fun d => Walk.change (d.reset index p) Walk.start

/-- Tries the marks of an open mark. -/
def walkMark (ctx : Context) (d : Draft) : Walk :=
  match d.slots.mark with
  | none => .keep d
  | some c =>
    let tried := Walk.tryAll c.values (fun m d =>
      Walk.change (d.setMark m) fun d => Walk.judge d (d.refused? ctx .mark) Walk.keep) d
    tried.andThen fun d => Walk.start d.resetMark

/-- Tries every value for every open slot of a property. -/
def walk (ctx : Context) (p : Property) (d : Draft) : Walk :=
  if p = .mark then d.walkMark ctx else d.walkEncodings ctx p (d.slots.indices p)

end Draft
end ChartAdvisor
