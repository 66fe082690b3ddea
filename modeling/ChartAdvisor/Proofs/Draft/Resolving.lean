import ChartAdvisor.Proofs.Draft.AgreeOff
import Mathlib.Logic.Relation

/-!
# Drafts get more resolved

A draft gets more resolved when a listed value is chosen for what is still open in it, for no part
before what it is a part of. A search passes some encodings by; such choices may be made in any of
them, in a count of rows that is switched off too.
-/
namespace ChartAdvisor

namespace Draft

/-! ## One choice -/

/-- Whether a spot is still open, and lies in no part that is. -/
def isOpenAt (d : Draft) : Spot → Bool
  | .mark => d.query.mark.isOpen
  | .slot i p => (d.encoding? i).any fun e => e.isOpen p && !p.parent?.any e.isOpen

/-- The draft with a listed value chosen at a spot that is still open. -/
def resolve? (d : Draft) (s : Spot) (c : Choice) : Option Draft :=
  match d.chooseAt s c with
  | (d', none) => if d.isOpenAt s ∧ c ∈ d.listed s then some d' else none
  | (_, some _) => none

variable {d d' : Draft} {s : Spot} {c : Choice}

theorem resolve?_eq_some (h : d.resolve? s c = some d') :
    d.isOpenAt s = true ∧ (d.chooseAt s c).2 = none ∧ d' = (d.chooseAt s c).1 := by
  unfold resolve? at h
  rcases hc : d.chooseAt s c with ⟨after, _ | error⟩ <;> simp only [hc] at h
  · split at h
    · next hs => exact ⟨hs.1, rfl, (Option.some.inj h).symm⟩
    · contradiction
  · contradiction

theorem isOpenAt_slot {i : Nat} {p : Property} (h : d.isOpenAt (.slot i p) = true) :
    ∃ e, d.encoding? i = some e ∧ e.isOpen p = true := by
  obtain ⟨e, he, hopen⟩ := (Option.any_eq_true _ _).mp h
  exact ⟨e, he, (Bool.and_eq_true_iff.mp hopen).1⟩

theorem Coherent.resolve? (hd : d.Coherent) (h : d.resolve? s c = some d') : d'.Coherent := by
  obtain ⟨-, -, rfl⟩ := resolve?_eq_some h
  exact hd.chooseAt s c

theorem agreeOff_resolve? (hd : d.Coherent) (h : d.resolve? s c = some d') : AgreeOff (· = s) d d' := by
  obtain ⟨-, hn, rfl⟩ := resolve?_eq_some h
  exact agreeOff_chooseAt hd hn

theorem slots_resolve? (hd : d.Coherent) (h : d.resolve? s c = some d') : d.slots = d'.slots := by
  obtain ⟨-, hn, rfl⟩ := resolve?_eq_some h
  exact (alikeApart_chooseAt hd hn).slots

/-- The encodings before and after a choice side by side. -/
theorem encodings_resolve? (hd : d.Coherent) (h : d.resolve? s c = some d') :
    List.Forall₂ Encoding.MoreResolved d.query.encodings d'.query.encodings := by
  obtain ⟨hs, hn, rfl⟩ := resolve?_eq_some h
  cases s with
  | mark =>
    rw [encodings_chooseAt_mark]
    exact List.forall₂_same.mpr fun e _ => .refl e
  | slot i p =>
    obtain ⟨e, he, hopen⟩ := isOpenAt_slot hs
    obtain ⟨k, e', o, after, -, he', ho, hc, ha⟩ := assign_eq_none hd hn
    obtain rfl := Option.some.inj (he.symm.trans he')
    rw [chooseAt_slot, ha]
    exact forall₂_set Encoding.MoreResolved.refl he
      (Encoding.moreResolved_choose (hd.kind_eq he ho) hc hopen)

/-- A choice leaves what is settled as it is. -/
theorem keptBy_resolve? (hd : d.Coherent) (h : d.resolve? s c = some d') : d.KeptBy d' where
  slots := slots_resolve? hd h
  mark hm := by
    obtain ⟨hs, hn, rfl⟩ := resolve?_eq_some h
    refine (alikeApart_chooseAt hd hn).mark ?_
    rintro rfl
    have hopen : d.query.mark.isOpen = true := hs
    rw [hm] at hopen
    contradiction
  encodings := encodings_resolve? hd h

/-! ## Any number of choices -/

/-- Further choices lead from one draft to another. -/
def MoreResolved : Draft → Draft → Prop :=
  Relation.ReflTransGen fun d d' => ∃ s c, d.resolve? s c = some d'

/-- The draft after several choices. -/
def resolveEach? (d : Draft) (choices : List (Spot × Choice)) : Option Draft :=
  choices.foldlM (fun d (s, c) => d.resolve? s c) d

theorem moreResolved_of_resolveEach? {choices : List (Spot × Choice)}
    (h : d.resolveEach? choices = some d') : d.MoreResolved d' := by
  induction choices generalizing d with
  | nil =>
    obtain rfl := Option.some.inj h
    exact .refl
  | cons x rest ih =>
    obtain ⟨mid, hmid, hrest⟩ := Option.bind_eq_some_iff.mp h
    exact .head ⟨x.1, x.2, hmid⟩ (ih hrest)

namespace MoreResolved

theorem coherent (h : d.MoreResolved d') (hd : d.Coherent) : d'.Coherent := by
  induction h with
  | refl => exact hd
  | tail _ hstep ih =>
    obtain ⟨s, c, hstep⟩ := hstep
    exact ih.resolve? hstep

theorem keptBy (h : d.MoreResolved d') (hd : d.Coherent) : d.KeptBy d' := by
  induction h with
  | refl => exact .refl d
  | tail hrun hstep ih =>
    obtain ⟨s, c, hstep⟩ := hstep
    exact ih.trans (keptBy_resolve? (coherent hrun hd) hstep)

/-- Nothing comes open that was not open when the draft was built. -/
theorem openAsBuilt (h : d.MoreResolved d') (hd : d.Coherent) (built : d.OpenAsBuilt) : d'.OpenAsBuilt := by
  induction h with
  | refl => exact built
  | tail hrun hstep ih =>
    obtain ⟨s, c, hstep⟩ := hstep
    obtain ⟨-, hn, rfl⟩ := resolve?_eq_some hstep
    exact ih.chooseAt (coherent hrun hd) hn

/-- An encoding in the draft to which choices led. -/
theorem encoding (h : d.MoreResolved d') (hd : d.Coherent) {i : Nat} {e : Encoding}
    (he : d.encoding? i = some e) : ∃ e', d'.encoding? i = some e' ∧ e.MoreResolved e' := by
  have hi := getElem?_rel_of_forall₂ (h.keptBy hd).encodings i
  rw [show d.query.encodings[i]? = some e from he] at hi
  cases he' : d'.query.encodings[i]? with
  | none => rw [he'] at hi; exact absurd hi nofun
  | some e' =>
    rw [he'] at hi
    cases hi with
    | some hmore => exact ⟨e', he', hmore⟩

end MoreResolved

end Draft
end ChartAdvisor
