import ChartAdvisor.Proofs.Draft.Undoing
import ChartAdvisor.Proofs.Encoding.Progress
import ChartAdvisor.Proofs.Pointwise

/-!
# Drafts get settled

Choices at spots that await them lead to later drafts. A property is resolved once no encoding that
plays a part in the search leaves it open, and it stays resolved.
-/
namespace ChartAdvisor
namespace Draft

/-- A draft as it may be later in a search. -/
structure Later (d d' : Draft) : Prop where
  slots : d.slots = d'.slots
  config : d.query.config = d'.query.config
  mark : d.query.mark.isOpen = false → d.query.mark = d'.query.mark
  encodings : List.Forall₂ Encoding.Later d.query.encodings d'.query.encodings

/-- What is settled in a draft is kept by another one of the same query. -/
structure KeptBy (d d' : Draft) : Prop where
  slots : d.slots = d'.slots
  mark : d.query.mark.isOpen = false → d.query.mark = d'.query.mark
  encodings : List.Forall₂ Encoding.MoreResolved d.query.encodings d'.query.encodings

/-- A spot that is open, and not passed by. -/
def Awaits (d : Draft) : Spot → Prop
  | .mark => d.query.mark.isOpen = true
  | .slot i p => ∀ e, d.encoding? i = some e → e.isOpen p = true ∧ e.isFrozen = false

/-- A property is left open by none but frozen encodings. -/
def Resolved (d : Draft) (p : Property) : Prop :=
  ∀ e ∈ d.query.encodings, e.isFrozen = false → e.standing p ≠ .undecided

namespace KeptBy

variable {d d' d'' : Draft}

theorem refl (d : Draft) : d.KeptBy d := ⟨rfl, fun _ => rfl, List.forall₂_same.mpr fun e _ => .refl e⟩

theorem trans (h : d.KeptBy d') (h' : d'.KeptBy d'') : d.KeptBy d'' where
  slots := h.slots.trans h'.slots
  mark hm := by
    have hd' := h.mark hm
    exact hd'.trans (h'.mark (hd' ▸ hm))
  encodings := forall₂_trans (R := Encoding.MoreResolved) .trans h.encodings h'.encodings

end KeptBy

namespace Later

variable {d d' d'' : Draft}

theorem refl (d : Draft) : d.Later d :=
  ⟨rfl, rfl, fun _ => rfl, List.forall₂_same.mpr fun e _ => .refl e⟩

theorem trans (h : d.Later d') (h' : d'.Later d'') : d.Later d'' where
  slots := h.slots.trans h'.slots
  config := h.config.trans h'.config
  mark hm := by
    have hd' := h.mark hm
    exact hd'.trans (h'.mark (hd' ▸ hm))
  encodings := forall₂_trans (R := Encoding.Later) .trans h.encodings h'.encodings

theorem keptBy (h : d.Later d') : d.KeptBy d' :=
  ⟨h.slots, h.mark, h.encodings.imp fun _ _ hef => hef.moreResolved⟩

theorem next_encoding (h : d.Later d') {i : Nat} {e : Encoding} (he : d.encoding? i = some e) :
    ∃ f, d'.encoding? i = some f ∧ e.Later f := by
  have hi := getElem?_rel_of_forall₂ h.encodings i
  rw [show d.query.encodings[i]? = some e from he] at hi
  cases hf : d'.query.encodings[i]? with
  | none => rw [hf] at hi; contradiction
  | some f =>
    rw [hf] at hi
    cases hi with
    | some hef => exact ⟨f, hf, hef⟩

theorem encoding (h : d.Later d') {i : Nat} {f : Encoding} (hf : d'.encoding? i = some f) :
    ∃ e, d.encoding? i = some e ∧ e.Later f := by
  have hi := getElem?_rel_of_forall₂ h.encodings i
  rw [show d'.query.encodings[i]? = some f from hf] at hi
  cases he : d.query.encodings[i]? with
  | none => rw [he] at hi; contradiction
  | some e =>
    rw [he] at hi
    cases hi with
    | some hef => exact ⟨e, he, hef⟩

end Later

theorem later_chooseAt {d : Draft} (h : d.Coherent) {s : Spot} {c : Choice} (hs : d.Awaits s)
    (hn : (d.chooseAt s c).2 = none) : d.Later (d.chooseAt s c).1 := by
  have hap := alikeApart_chooseAt h hn
  have hconfig := congrArg ChartQuery.config hap.settings
  refine ⟨hap.slots, hconfig, fun hm => hap.mark ?_, ?_⟩
  · rintro rfl
    have hopen : d.query.mark.isOpen = true := hs
    rw [hm] at hopen
    contradiction
  · cases s with
    | mark =>
      rw [encodings_chooseAt_mark]
      exact List.forall₂_same.mpr fun e _ => .refl e
    | slot i p =>
      obtain ⟨k, e, o, after, hk, he, ho, hc, ha⟩ := assign_eq_none h hn
      rw [chooseAt_slot, ha]
      obtain ⟨hopen, hfrozen⟩ := hs e he
      have hlater := Encoding.later_choose (h.kind_eq he ho) (c := c) (by rw [hc]) hopen hfrozen
      rw [hc] at hlater
      exact forall₂_set Encoding.Later.refl he hlater

/-- A choice settles its slot. -/
theorem standing_chooseAt_ne {d : Draft} (h : d.Coherent) {i : Nat} {p : Property} {c : Choice}
    (hn : (d.chooseAt (.slot i p) c).2 = none) {e : Encoding}
    (he : (d.chooseAt (.slot i p) c).1.encoding? i = some e) : e.standing p ≠ .undecided := by
  obtain ⟨before, o, -, -, -, htaken, hafter⟩ := encoding_chooseAt h hn
  obtain rfl := Option.some.inj (hafter.symm.trans he)
  rw [Encoding.standing_choose htaken]
  exact p.standingFor_ne_undecided c

/-- Nothing is open that was not open when the draft was built. -/
def OpenAsBuilt (d : Draft) : Prop :=
  ∀ i e o, d.encoding? i = some e → d.origin.encodings[i]? = some o →
    ∀ p, e.isOpen p = true → o.isOpen p = true

/-- Where only one encoding changes, it is enough to look at that one. -/
theorem OpenAsBuilt.of_alikeApart {d d' : Draft} (hd : d.OpenAsBuilt) {s : Spot} (hap : d.AlikeApart s d')
    (there : ∀ i p, s = .slot i p → ∀ f o, d'.encoding? i = some f → d.origin.encodings[i]? = some o →
      ∀ r, f.isOpen r = true → o.isOpen r = true) : d'.OpenAsBuilt := by
  intro j f o hf ho r hr
  rw [← hap.origin] at ho
  by_cases hs : ∃ p, s = .slot j p
  · obtain ⟨p, rfl⟩ := hs
    exact there j p rfl f o hf ho r hr
  · obtain ⟨e, he, hee⟩ := hap.exists_encoding_of_ne (fun p e => hs ⟨p, e⟩) hf
    refine hd j e o he ho r ?_
    rwa [Encoding.isOpen_eq, Encoding.standing_congr hee, ← Encoding.isOpen_eq]

theorem OpenAsBuilt.chooseAt {d : Draft} (hd : d.OpenAsBuilt) (h : d.Coherent) {s : Spot} {c : Choice}
    (hn : (d.chooseAt s c).2 = none) : (d.chooseAt s c).1.OpenAsBuilt := by
  refine hd.of_alikeApart (alikeApart_chooseAt h hn) fun j p hs f o hf ho r hr => ?_
  subst hs
  obtain ⟨e, o', he, ho', hk, htaken, hafter⟩ := encoding_chooseAt h hn
  obtain rfl := Option.some.inj (ho'.symm.trans ho)
  obtain rfl := Option.some.inj (hafter.symm.trans hf)
  exact Encoding.isOpen_of_choose hk htaken (hd j e o' he ho r) hr

theorem OpenAsBuilt.reopenAt {d : Draft} (hd : d.OpenAsBuilt) (h : d.Coherent) {s : Spot}
    (hn : (d.reopenAt s).2 = none) : (d.reopenAt s).1.OpenAsBuilt := by
  refine hd.of_alikeApart (alikeApart_reopenAt h hn) fun j p hs f o hf ho r hr => ?_
  subst hs
  obtain ⟨e, o', he, ho', hk, -, hafter⟩ := encoding_reopenAt h hn
  obtain rfl := Option.some.inj (ho'.symm.trans ho)
  obtain rfl := Option.some.inj (hafter.symm.trans hf)
  exact (Encoding.isOpen_of_restore hk hr).elim (hd j e o' he ho r) id

/-- What lies inside a part cannot come open that was not, however the part is switched. -/
theorem OpenAsBuilt.standing_ne {d : Draft} (hd : d.OpenAsBuilt) (h : d.Coherent) {p : Property}
    (closed : ∀ o ∈ d.origin.encodings, o.isOpen p = false) {i : Nat} {e : Encoding}
    (he : d.encoding? i = some e) : e.standing p ≠ .undecided := by
  obtain ⟨o, ho⟩ := h.exists_origin he
  intro hopen
  have hp := hd i e o he ho p ((e.isOpen_iff p).mpr hopen)
  rw [closed o (List.mem_of_getElem? ho)] at hp
  contradiction

/-- An encoding is listed for what was open in it when the draft was built. -/
theorem Coherent.mem_indices {d : Draft} (h : d.Coherent) {i : Nat} {o : Encoding} {p : Property}
    (ho : d.origin.encodings[i]? = some o) (hopen : o.isOpen p = true) :
    i ∈ d.slots.indices p := by
  have hslot : (d.slots.slot? i p).isSome := by
    rw [h.opened, ho]
    exact hopen
  have hlength : i < d.slots.encodings.length := by
    by_contra hle
    rw [SlotIndex.slot?, SlotIndex.ofEncoding, List.getElem?_eq_none (Nat.not_lt.mp hle)] at hslot
    contradiction
  exact List.mem_filter.mpr ⟨List.mem_range.mpr hlength, hslot⟩

end Draft
end ChartAdvisor
