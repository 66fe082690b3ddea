import ChartAdvisor.Draft.Basic
import ChartAdvisor.Proofs.Table

/-!
# The outline of open slots

The open slots and their names, without the values that are listed. Rules see nothing else of the open
slots of a draft.
-/
namespace ChartAdvisor

/-- The open slots without the values to try. -/
def SlotIndex.outline (slots : SlotIndex) : Option String × List (List (Property × String)) :=
  (slots.mark.map Candidates.name, slots.encodings.map fun opened => opened.map fun x => (x.1, x.2.name))

namespace SlotIndex

variable {s t : SlotIndex}

theorem ofEncoding_congr (h : s.outline = t.outline) (i : Nat) :
    ((s.ofEncoding i).map fun x => (x.1, x.2.name)) = (t.ofEncoding i).map fun x => (x.1, x.2.name) := by
  have hi := congrArg (fun o => (o.2[i]?).getD []) h
  simp only [outline, List.getElem?_map] at hi
  unfold ofEncoding
  cases hs : s.encodings[i]? <;> cases ht : t.encodings[i]? <;> simp_all

theorem lookup_names (opened : OpenSlots) (p : Property) :
    (opened.lookup p).map Candidates.name = (opened.map fun x => (x.1, x.2.name)).lookup p :=
  (Table.lookup_map (fun _ => Candidates.name) opened p).symm

theorem names_eq (slots : SlotIndex) :
    slots.names = slots.outline.1.toList ++ slots.outline.2.flatMap (List.map Prod.snd) := by
  simp [names, outline, List.flatMap_map, Function.comp_def]

theorem name_slot?_congr (h : s.outline = t.outline) (i : Nat) (p : Property) :
    (s.slot? i p).map Candidates.name = (t.slot? i p).map Candidates.name := by
  rw [slot?, slot?, lookup_names, lookup_names, ofEncoding_congr h]

theorem slot?_isSome_congr (h : s.outline = t.outline) (i : Nat) (p : Property) :
    (s.slot? i p).isSome = (t.slot? i p).isSome := by
  rw [← Option.isSome_map (f := Candidates.name), name_slot?_congr h, Option.isSome_map]

theorem mark_isSome_congr (h : s.outline = t.outline) : s.mark.isSome = t.mark.isSome := by
  have hm : s.mark.map Candidates.name = t.mark.map Candidates.name := congrArg Prod.fst h
  rw [← Option.isSome_map (f := Candidates.name), hm, Option.isSome_map]

theorem indices_congr (h : s.outline = t.outline) (p : Property) : s.indices p = t.indices p := by
  have hlength : s.encodings.length = t.encodings.length := by
    have h' := congrArg (fun o => o.2.length) h
    simpa [outline] using h'
  unfold indices
  rw [hlength]
  exact List.filter_congr fun i _ => slot?_isSome_congr h i p

theorem has_congr (h : s.outline = t.outline) (p : Property) : s.has p = t.has p := by
  unfold has
  rw [mark_isSome_congr h, indices_congr h]

end SlotIndex

end ChartAdvisor
