import ChartAdvisor.Proofs.Draft.Progress
import ChartAdvisor.Proofs.Draft.Sources
import ChartAdvisor.Proofs.Rules.Agreement
import ChartAdvisor.Proofs.Search.Exploring

/-!
# Drafts that agree off some spots

Two drafts agree off some spots when all other slots stand alike in them and all other choices on
record are the same. They may come of queries that list different values for a slot, and what they
hold at the spots, parts that lie in one of them included, may come of different branches of a search.
A choice that is made in both drafts at a spot makes them agree there.
-/
namespace ChartAdvisor

/-! ## Encodings -/

/-- Two encodings of one kind in which the slots of some properties stand alike. -/
structure Encoding.AgreeWhere (P : Property → Prop) (e f : Encoding) : Prop where
  kind : e.kind = f.kind
  standing : ∀ p, P p → e.standing p = f.standing p

namespace Encoding.AgreeWhere

variable {P Q : Property → Prop} {e f g : Encoding}

theorem mono (h : e.AgreeWhere P f) (hQ : ∀ p, Q p → P p) : e.AgreeWhere Q f :=
  ⟨h.kind, fun p hp => h.standing p (hQ p hp)⟩

theorem agree (h : e.AgreeWhere P f) {ps : List Property} (hps : ∀ p ∈ ps, P p) : e.Agree ps f :=
  ⟨h.kind, fun p hp => h.standing p (hps p hp)⟩

theorem rel_refl (a : Option Encoding) : Option.Rel (AgreeWhere P) a a := by
  cases a with
  | none => exact .none
  | some e => exact .some ⟨rfl, fun _ _ => rfl⟩

theorem rel_symm {a b : Option Encoding} (h : Option.Rel (AgreeWhere P) a b) :
    Option.Rel (AgreeWhere P) b a := by
  cases h with
  | none => exact .none
  | some h => exact .some ⟨h.kind.symm, fun p hp => (h.standing p hp).symm⟩

theorem rel_trans {a b c : Option Encoding} (h : Option.Rel (AgreeWhere P) a b)
    (h' : Option.Rel (AgreeWhere P) b c) : Option.Rel (AgreeWhere P) a c := by
  cases h with
  | none => cases h'; exact .none
  | some h =>
    cases h' with
    | some h' =>
      exact .some ⟨h.kind.trans h'.kind, fun p hp => (h.standing p hp).trans (h'.standing p hp)⟩

end Encoding.AgreeWhere

namespace Draft

variable {F G : Spot → Prop} {d d' e f : Draft} {s t : Spot}

/-! ## Open slots -/

theorem spots_of_outline (h : d.slots.outline = d'.slots.outline) (p : Property) :
    d.spots p = d'.spots p := by
  unfold spots
  rw [SlotIndex.indices_congr h]

theorem nameAt?_of_outline (h : d.slots.outline = d'.slots.outline) (s : Spot) :
    d.nameAt? s = d'.nameAt? s := by
  cases s with
  | mark => exact congrArg Prod.fst h
  | slot i p => exact SlotIndex.name_slot?_congr h i p

/-! ## Agreement -/

/-- A slot of an encoding is one of some spots, or lies in one of them. -/
def Within (F : Spot → Prop) (i : Nat) (p : Property) : Prop :=
  F (.slot i p) ∨ ∃ r, p.parent? = some r ∧ F (.slot i r)

theorem Within.mono (hFG : ∀ s, F s → G s) {i : Nat} {p : Property} (h : Within F i p) : Within G i p :=
  h.imp (hFG _) fun ⟨r, hr, hF⟩ => ⟨r, hr, hFG _ hF⟩

/-- Two drafts that differ at most in what they hold at some spots, in the values that are listed and
in what the rules do not see. -/
structure AgreeOff (F : Spot → Prop) (d d' : Draft) : Prop where
  outline : d.slots.outline = d'.slots.outline
  config : d.query.config = d'.query.config
  origin : ∀ i : Nat, Option.Rel (Encoding.AgreeWhere fun _ => True) d.origin.encodings[i]?
    d'.origin.encodings[i]?
  mark : ¬F .mark → Standing.ofSlot d.query.mark = Standing.ofSlot d'.query.mark
  encodings : ∀ i, Option.Rel (Encoding.AgreeWhere fun p => ¬Within F i p) (d.encoding? i)
    (d'.encoding? i)
  lookup : ∀ n, (∀ s, F s → n ∉ d.nameAt? s) → d.assignment.lookup n = d'.assignment.lookup n

namespace AgreeOff

theorem refl (F : Spot → Prop) (d : Draft) : AgreeOff F d d where
  outline := rfl
  config := rfl
  origin _ := Encoding.AgreeWhere.rel_refl _
  mark _ := rfl
  encodings _ := Encoding.AgreeWhere.rel_refl _
  lookup _ _ := rfl

theorem nameAt?_eq (h : AgreeOff F d d') (s : Spot) : d.nameAt? s = d'.nameAt? s :=
  nameAt?_of_outline h.outline s

theorem symm (h : AgreeOff F d d') : AgreeOff F d' d where
  outline := h.outline.symm
  config := h.config.symm
  origin i := Encoding.AgreeWhere.rel_symm (h.origin i)
  mark hF := (h.mark hF).symm
  encodings i := Encoding.AgreeWhere.rel_symm (h.encodings i)
  lookup n hn := (h.lookup n fun s hs => by rw [h.nameAt?_eq]; exact hn s hs).symm

theorem trans (h : AgreeOff F d e) (h' : AgreeOff F e f) : AgreeOff F d f where
  outline := h.outline.trans h'.outline
  config := h.config.trans h'.config
  origin i := Encoding.AgreeWhere.rel_trans (h.origin i) (h'.origin i)
  mark hF := (h.mark hF).trans (h'.mark hF)
  encodings i := Encoding.AgreeWhere.rel_trans (h.encodings i) (h'.encodings i)
  lookup n hn := (h.lookup n hn).trans (h'.lookup n fun s hs => by
    rw [← h.nameAt?_eq]; exact hn s hs)

theorem mono (h : AgreeOff F d d') (hFG : ∀ s, F s → G s) : AgreeOff G d d' where
  outline := h.outline
  config := h.config
  origin := h.origin
  mark hG := h.mark fun hF => hG (hFG _ hF)
  encodings i := by
    have hi := h.encodings i
    generalize d.encoding? i = a, d'.encoding? i = b at hi
    cases hi with
    | none => exact .none
    | some hab => exact .some (hab.mono fun p hp hw => hp (hw.mono hFG))
  lookup n hn := h.lookup n fun s hs => hn s (hFG s hs)

/-- The encodings of the two drafts side by side. -/
theorem encoding (h : AgreeOff F d d') {i : Nat} {e : Encoding} (he : d.encoding? i = some e) :
    ∃ e', d'.encoding? i = some e' ∧ e.AgreeWhere (fun p => ¬Within F i p) e' := by
  have hi := h.encodings i
  rw [he] at hi
  cases he' : d'.encoding? i with
  | none => rw [he'] at hi; exact absurd hi nofun
  | some e' =>
    rw [he'] at hi
    cases hi with
    | some hi => exact ⟨e', rfl, hi⟩

end AgreeOff

/-- Drafts that agree everywhere have the same choices on record. -/
theorem AgreeOff.assignment_eq (h : AgreeOff (fun _ => False) d d') (hd : d.Coherent)
    (hd' : d'.Coherent) : d.assignment = d'.assignment :=
  hd.recorded.eq_of_lookup_eq hd'.recorded fun n => h.lookup n fun _ hF => hF.elim

/-- Drafts that are alike apart from a spot agree off it, if the rest of the record is the same. -/
theorem AlikeApart.agreeOff (h : d.AlikeApart s d')
    (record : ∀ n, n ∉ d.nameAt? s → d.assignment.lookup n = d'.assignment.lookup n) :
    AgreeOff (· = s) d d' where
  outline := congrArg SlotIndex.outline h.slots
  config := by
    have hconfig := congrArg ChartQuery.config h.settings
    exact hconfig
  origin i := by
    rw [h.origin]
    exact Encoding.AgreeWhere.rel_refl _
  mark hs := by rw [h.mark (Ne.symm hs)]
  encodings i := by
    cases he' : d'.encoding? i with
    | none =>
      cases he : d.encoding? i with
      | none => exact .none
      | some e =>
        have hi := h.encodings i
        rw [he, he'] at hi
        contradiction
    | some e' =>
      have hi := h.encodings i
      rw [he'] at hi
      obtain ⟨e, he, heq⟩ := Option.map_eq_some_iff.mp hi
      rw [he]
      refine .some ⟨?_, fun p hp => ?_⟩
      · cases s with
        | mark => exact Encoding.kind_congr heq
        | slot j q =>
          by_cases hj : j = i
          · simp only [Spot.rest, if_pos hj] at heq
            exact Encoding.kind_of_apart heq
          · rw [Spot.rest_of_ne hj] at heq
            exact Encoding.kind_congr heq
      · obtain ⟨e₀, he₀, hstanding⟩ := h.standing_of_ne (q := p)
          (fun hs => hp (.inl hs.symm)) (fun r hs hr => hp (.inr ⟨r, hr, hs.symm⟩)) he'
        obtain rfl := Option.some.inj (he.symm.trans he₀)
        exact hstanding
  lookup n hn := record n (hn s rfl)

/-- A choice, or taking one back, leaves all else as it is. -/
theorem agreeOff_chooseAt (h : d.Coherent) {c : Choice} (hn : (d.chooseAt s c).2 = none) :
    AgreeOff (· = s) d (d.chooseAt s c).1 :=
  (alikeApart_chooseAt h hn).agreeOff fun _ hname => (lookup_chooseAt h hn hname).symm

theorem agreeOff_reopenAt (h : d.Coherent) (hn : (d.reopenAt s).2 = none) :
    AgreeOff (· = s) d (d.reopenAt s).1 :=
  (alikeApart_reopenAt h hn).agreeOff fun _ hname => (lookup_reopenAt h hn hname).symm

/-- What had been chosen at a spot does not matter once a choice is made there in both drafts. -/
theorem AgreeOff.chooseAt (h : AgreeOff (fun t => t = s ∨ F t) d d') (hd : d.Coherent)
    (hd' : d'.Coherent) {c : Choice} (hn : (d.chooseAt s c).2 = none)
    (hn' : (d'.chooseAt s c).2 = none) : AgreeOff F (d.chooseAt s c).1 (d'.chooseAt s c).1 := by
  have hmid : AgreeOff (fun t => t = s ∨ F t) (d.chooseAt s c).1 (d'.chooseAt s c).1 :=
    (((agreeOff_chooseAt hd hn).mono fun _ ht => .inl ht).symm.trans h).trans
      ((agreeOff_chooseAt hd' hn').mono fun _ ht => .inl ht)
  refine ⟨hmid.outline, hmid.config, hmid.origin, fun hF => ?_, fun i => ?_, fun n hname => ?_⟩
  · by_cases hs : .mark = s
    · subst hs
      obtain ⟨m, k, rfl, -, heq⟩ := chooseAt_mark_eq_none hn
      obtain ⟨m', k', hm, -, heq'⟩ := chooseAt_mark_eq_none hn'
      obtain rfl := Choice.mark.inj hm
      rw [heq, heq']
    · exact hmid.mark (not_or.mpr ⟨hs, hF⟩)
  · cases hi : (d.chooseAt s c).1.encoding? i with
    | none =>
      have hi' := hmid.encodings i
      rw [hi] at hi'
      cases he' : (d'.chooseAt s c).1.encoding? i with
      | none => exact .none
      | some e' => rw [he'] at hi'; exact absurd hi' nofun
    | some g =>
      obtain ⟨g', hg', hgg'⟩ := hmid.encoding hi
      rw [hg']
      refine .some ⟨hgg'.kind, fun q hq => ?_⟩
      by_cases hwithin : Within (fun t => t = s ∨ F t) i q
      · -- the slot is the one for which the choice was made, or lies in it
        obtain ⟨p, rfl, hp⟩ : ∃ p, s = .slot i p ∧ (q = p ∨ q.parent? = some p) := by
          rcases hwithin with (hs | hF) | ⟨r, hr, hs | hF⟩
          · exact ⟨q, hs.symm, .inl rfl⟩
          · exact absurd (.inl hF) hq
          · exact ⟨r, hs.symm, .inr hr⟩
          · exact absurd (.inr ⟨r, hr, hF⟩) hq
        obtain ⟨e, o, he, ho, hk, htaken, hchosen⟩ := encoding_chooseAt hd hn
        obtain ⟨e', o', he', ho', hk', htaken', hchosen'⟩ := encoding_chooseAt hd' hn'
        obtain rfl := Option.some.inj (hi.symm.trans hchosen)
        obtain rfl := Option.some.inj (hg'.symm.trans hchosen')
        rcases hp with rfl | hparent
        · rw [Encoding.standing_choose htaken, Encoding.standing_choose htaken']
        · rw [Encoding.standing_choose_child hk hparent htaken,
            Encoding.standing_choose_child hk' hparent htaken']
          have hoo' := h.origin i
          rw [ho, ho'] at hoo'
          cases hoo' with
          | some hoo' => rw [hoo'.standing q trivial]
      · exact hgg'.standing q hwithin
  · by_cases hns : n ∈ d'.nameAt? s
    · rw [lookup_chooseAt_self hd' hn' hns, lookup_chooseAt_self hd hn (h.nameAt?_eq s ▸ hns)]
    · refine hmid.lookup n fun t ht => ?_
      rcases ht with rfl | hF
      · rwa [hmid.nameAt?_eq, ← (agreeOff_chooseAt hd' hn').nameAt?_eq]
      · exact hname t hF

/-! ## What is offered -/

theorem encoding_hosts {i : Nat} {p : Property} (hF : ∀ t, F t → hostOf t ≠ some i) :
    ¬Within F i p := by
  rintro (h | ⟨r, -, h⟩)
  · exact hF _ h rfl
  · exact hF _ h rfl

/-- Values are offered at a spot in both drafts or in neither, if the drafts agree in its encoding. -/
theorem AgreeOff.offered_eq (h : AgreeOff F d d') (hF : ∀ t, F t → hostOf t ≠ hostOf s) :
    (d.choicesAt? s).isSome = (d'.choicesAt? s).isSome := by
  cases s with
  | mark =>
    simp only [choicesAt?, Option.isSome_map]
    exact SlotIndex.mark_isSome_congr h.outline
  | slot i p =>
    have hi := h.encodings i
    simp only [choicesAt?, valuesAt?]
    generalize d.encoding? i = a, d'.encoding? i = b at hi
    cases hi with
    | none => rfl
    | some hab =>
      have hagree : Encoding.Agree [.autoCount, p] _ _ := hab.agree fun _ _ => encoding_hosts hF
      simp only [Encoding.isValue_eq, hagree.kind, hagree.isDisabledAutoCount (by simp),
        hagree.isOpen (p := p) (by simp)]
      split <;> rfl

end Draft
end ChartAdvisor
