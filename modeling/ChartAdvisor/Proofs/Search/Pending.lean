import ChartAdvisor.Proofs.Draft.AgreeOff
import ChartAdvisor.Proofs.Search.Failure

/-!
# Spots that are still to be tried

While values are tried at a spot, other spots of the same property may still be open. What lies in the
parts of which the switch is open has no say then: a rule that looks into such a part waits until the
switch is settled. So drafts that differ at most at open spots get alike verdicts, and once a choice is
taken back values are offered at its spot again.
-/
namespace ChartAdvisor

namespace Rule

variable {α : Type} [Judged α]

theorem check_of_waits {r : Rule α} {a : α} (h : r.waits a = true) (ctx : Context) :
    r.check ctx a = .ok true := by
  rw [check, if_pos h]

theorem waits_of_isOpen {r : Rule α} {a : α} (strict : r.allowsOpen = false) {p : Property}
    (hp : p ∈ r.properties) (ha : Judged.isOpen a p = true) : r.waits a = true := by
  rw [waits, strict]
  exact List.any_eq_true.mpr ⟨p, hp, ha⟩

/-- What a rule would wait for is settled where it does not wait. -/
theorem closed_of_runs {r : Rule α} {a : α} (strict : r.allowsOpen = false) (runs : r.waits a = false) :
    ∀ p ∈ r.properties, Judged.isOpen a p = false := fun p hp => by
  rw [← Bool.not_eq_true]
  intro hopen
  rw [waits_of_isOpen strict hp hopen] at runs
  contradiction

end Rule

/-- A rule about charts that looks into a part of a property it is about waits while that property is
open. -/
theorem ChartRule.looksInside_or_waits : ∀ r ∈ all, ∀ p ∈ r.properties,
    (∀ q ∈ r.reach, q.parent? ≠ some p) ∨ r.allowsOpen = false := by
  decide

theorem Encoding.isFrozen_of_undecided {e : Encoding} (hk : e.kind ≠ .value)
    (h : e.standing .autoCount = .undecided) : e.isFrozen = false := by
  rw [isFrozen, isValue_eq, isDisabledAutoCount_eq, h, beq_eq_false_iff_ne.mpr hk]
  cases e.kind <;> rfl

theorem Encoding.kind_ne_of_isFrozen {e : Encoding} (h : e.isFrozen = false) : e.kind ≠ .value := by
  cases e with
  | field | autoCount => nofun
  | value => contradiction

namespace Draft

variable {F : Spot → Prop} {d d' : Draft} {s : Spot} {ctx : Context}

/-! ## Offers -/

/-- What is open in an encoding that plays a part is open in the draft. -/
theorem isOpen_of_mem_active {e : Encoding} {p : Property} (he : e ∈ d.active) (hopen : e.isOpen p = true) :
    Judged.isOpen d p = true := by
  have hp : p ≠ .mark := by
    rintro rfl
    cases e <;> contradiction
  exact (if_neg hp).trans (List.any_eq_true.mpr ⟨e, he, hopen⟩)

/-- Where values are offered the property is open in the draft. -/
theorem isOpen_of_choicesAt? {i : Nat} {p : Property} (h : (d.choicesAt? (.slot i p)).isSome) :
    Judged.isOpen d p = true := by
  obtain ⟨e, he, hfrozen, hopen⟩ := choicesAt?_slot_isSome_iff.mp h
  refine isOpen_of_mem_active (List.mem_filter.mpr ⟨List.mem_of_getElem? he, ?_⟩)
    ((e.isOpen_iff p).mpr hopen)
  rw [(Bool.or_eq_false_iff.mp hfrozen).2]
  rfl

/-- A slot that is neither that of a spot nor inside it is not touched by spots in other encodings. -/
theorem not_within {i : Nat} {p q : Property} (hosts : ∀ t, F t → hostOf t ≠ some i) (hqp : q ≠ p)
    (hq : q.parent? ≠ some p) : ¬Within (fun t => t = .slot i p ∨ F t) i q := by
  rintro ((hs | hF) | ⟨r, hr, hs | hF⟩)
  · exact hqp (Spot.slot.inj hs).2
  · exact hosts _ hF rfl
  · exact hq (by rw [hr, (Spot.slot.inj hs).2])
  · exact hosts _ hF rfl

/-- Where values were offered, the part in which the spot lies is there whatever is chosen at the spot
and in other encodings. -/
theorem AgreeOff.hasParent (h : AgreeOff (fun t => t = s ∨ F t) d d')
    (hosts : ∀ t, F t → hostOf t ≠ hostOf s) (offered : (d.choicesAt? s).isSome) : d'.HasParent s := by
  cases s with
  | mark => trivial
  | slot i p =>
    intro r hr e' he'
    obtain ⟨e, he, hagree⟩ := h.symm.encoding he'
    have htop := Property.parent?_parent? hr
    have hrp : r ≠ p := by
      rintro rfl
      rw [hr] at htop
      contradiction
    rw [hagree.standing r (not_within hosts hrp (by rw [htop]; nofun))]
    exact hasParent_of_choicesAt? offered r hr e he

/-- Where values were offered, they are again once the choice is taken back, whatever was chosen at the
spot and in other encodings. -/
theorem AgreeOff.offered_reopenAt (h : AgreeOff (fun t => t = s ∨ F t) d d')
    (hosts : ∀ t, F t → hostOf t ≠ hostOf s) (hd' : d'.Coherent) (offered : (d.choicesAt? s).isSome)
    (hn : (d'.reopenAt s).2 = none) : ((d'.reopenAt s).1.choicesAt? s).isSome := by
  have hparent := h.hasParent hosts offered
  cases s with
  | mark =>
    simp only [choicesAt?, Option.isSome_map] at offered ⊢
    rwa [← (alikeApart_reopenAt hd' hn).slots, ← SlotIndex.mark_isSome_congr h.outline]
  | slot i p =>
    obtain ⟨e, he, hfrozen, hopen⟩ := choicesAt?_slot_isSome_iff.mp offered
    obtain ⟨e', o, he', ho, hk, hbuilt, hafter⟩ := encoding_reopenAt hd' hn
    obtain ⟨e₁, he₁, hagree⟩ := h.encoding he
    obtain rfl := Option.some.inj (he'.symm.trans he₁)
    have hundecided : (e'.restore o p).standing p = .undecided :=
      Encoding.standing_restore hk hbuilt fun r hr => hparent r hr e' he'
    have hkind : (e'.restore o p).kind = e.kind :=
      (Encoding.kind_restore e' o p).trans hagree.kind.symm
    refine choicesAt?_slot_isSome_iff.mpr ⟨e'.restore o p, hafter, ?_, hundecided⟩
    by_cases hp : p = .autoCount
    · subst hp
      exact Encoding.isFrozen_of_undecided
        (by rw [hkind]; exact Encoding.kind_ne_of_isFrozen hfrozen) hundecided
    · have htop : Property.parent? .autoCount ≠ some p := (Option.some_ne_none p).symm
      have hrestore := Encoding.standing_of_apart (Encoding.apart_restore p hk) (Ne.symm hp) htop
      rw [Encoding.isFrozen_congr hkind, hfrozen]
      rw [hrestore, hagree.standing .autoCount (not_within hosts (Ne.symm hp) htop)]

/-! ## Verdicts -/

/-- Some spots at which values for a property are offered in two drafts. -/
def Pending (p : Property) (F : Spot → Prop) (d d' : Draft) : Prop :=
  ∀ t, F t → ∃ i, t = .slot i p ∧ (d.choicesAt? t).isSome ∧ (d'.choicesAt? t).isSome

/-- Drafts that differ at most at pending spots agree on whatever lies in none of them. -/
theorem AgreeOff.agree (h : AgreeOff F d d') (hd : d.Coherent) (hd' : d'.Coherent) {p : Property}
    (pending : Pending p F d d') {ps : List Property} (hps : (∀ t, ¬F t) ∨ ∀ q ∈ ps, q.parent? ≠ some p) :
    d.Agree ps d' := by
  refine .of_encodings hd hd' h.outline h.config (fun _ => h.mark fun hF => ?_) ?_
  · obtain ⟨i, hi, -⟩ := pending _ hF
    contradiction
  · refine forall₂_of_getElem?_rel fun i => ?_
    have hi := h.encodings i
    have pending := fun q => pending (.slot i q)
    simp only [choicesAt?_slot_isSome_iff] at pending
    rw [show d.query.encodings[i]? = d.encoding? i from rfl,
      show d'.query.encodings[i]? = d'.encoding? i from rfl]
    generalize d.encoding? i = a, d'.encoding? i = b at hi pending
    cases hi with
    | none => exact .none
    | @some e e' hee' =>
      refine .some ⟨hee'.kind, fun q hq => ?_⟩
      by_cases hwithin : Within F i q
      · rcases hwithin with hF | ⟨r, hr, hF⟩
        · -- the slot itself is pending, so that it is undecided in both
          obtain ⟨j, hj, ⟨a, ha, -, hopen⟩, ⟨a', ha', -, hopen'⟩⟩ := pending q hF
          obtain rfl := (Spot.slot.inj hj).2
          obtain rfl := Option.some.inj ha
          obtain rfl := Option.some.inj ha'
          rw [hopen, hopen']
        · obtain ⟨j, hj, -⟩ := pending r hF
          obtain rfl := (Spot.slot.inj hj).2
          exact absurd hr ((hps.resolve_left fun hnone => hnone _ hF) q hq)
      · exact hee'.standing q hwithin

/-- What is pending in other encodings has no say in a verdict. -/
theorem AgreeOff.verdictAt_eq (h : AgreeOff F d d') (hd : d.Coherent) (hd' : d'.Coherent)
    (pending : Pending s.property F d d') (hosts : ∀ t, F t → hostOf t ≠ hostOf s) (ctx : Context) :
    (d.verdictAt ctx s).map Option.isSome = (d'.verdictAt ctx s).map Option.isSome := by
  refine verdictAt_congr (fun r hr hp => ?_) fun i p hs => ?_
  · rcases Classical.em (∃ t, F t) with ⟨t, hF⟩ | hnone
    · rcases ChartRule.looksInside_or_waits r hr _ hp with houtside | strict
      · exact ChartRule.check_congr_reach hr (h.agree hd hd' pending (.inr houtside)) ctx
      · obtain ⟨i, rfl, hoffered, hoffered'⟩ := pending t hF
        rw [Rule.check_of_waits (Rule.waits_of_isOpen strict hp (isOpen_of_choicesAt? hoffered)),
          Rule.check_of_waits (Rule.waits_of_isOpen strict hp (isOpen_of_choicesAt? hoffered'))]
    · exact ChartRule.check_congr_reach hr
        (h.agree hd hd' pending (.inl (not_exists.mp hnone))) ctx
  · subst hs
    have hi := h.encodings i
    generalize d.encoding? i = a, d'.encoding? i = b at hi
    cases hi with
    | none => exact .none
    | some hee' =>
      have hslots : (d.slots.ofEncoding i).map Prod.fst = (d'.slots.ofEncoding i).map Prod.fst := by
        have hmap := congrArg (List.map Prod.fst) (SlotIndex.ofEncoding_congr h.outline i)
        simpa only [List.map_map, Function.comp_def] using hmap
      exact .some fun r hr _ => EncodingRule.check_congr_reach hr
        (hee'.agree fun _ _ => encoding_hosts hosts) hslots ctx

end Draft
end ChartAdvisor
