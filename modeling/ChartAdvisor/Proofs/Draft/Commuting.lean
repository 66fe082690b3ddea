import ChartAdvisor.Proofs.Draft.Recording
import ChartAdvisor.Proofs.Encoding.Commuting
import ChartAdvisor.Proofs.Search.Replaying

/-!
# The order of two choices

Two choices of which neither lies in the part that the other one switches may be made in either order.
In one encoding they write different members, or different parts of one scale; in two encodings, or at
the mark, they do not meet at all. The record holds both under their own names, and the counter, which
the two orders move along different paths, is told by the query alone.
-/
namespace ChartAdvisor
namespace Draft

variable {d : Draft} {s t : Spot} {i j : Nat} {p r : Property} {v w : Choice}

/-- A choice that its encoding takes. -/
theorem assign_of_choose {k : Candidates Choice} {e o after : Encoding}
    (hk : d.slots.slot? i p = some k) (he : d.encoding? i = some e)
    (ho : d.origin.encodings[i]? = some o) (h : e.choose o p v = (after, none)) :
    d.assign i p v =
      ({ d.putEncoding i e after with assignment := Table.insert k.name v d.assignment }, none) := by
  rw [assign_eq hk he ho, h]

/-- Two choices, one after the other, that their encodings take; the second one may meet the first. -/
theorem assign_assign_of_choose {k k' : Candidates Choice} {e o a e' o' b : Encoding}
    (hk : d.slots.slot? i p = some k) (he : d.encoding? i = some e)
    (ho : d.origin.encodings[i]? = some o) (ha : e.choose o p v = (a, none))
    (hk' : d.slots.slot? j r = some k') (he' : (if i = j then some a else d.encoding? j) = some e')
    (ho' : d.origin.encodings[j]? = some o') (hb : e'.choose o' r w = (b, none)) :
    (d.assign i p v).2 = none ∧ ((d.assign i p v).1.assign j r w).2 = none ∧
      ((d.assign i p v).1.assign j r w).1.query =
        { d.query with encodings := (d.query.encodings.set i a).set j b } := by
  have hfirst := assign_of_choose hk he ho ha
  have hput := (d.encoding?_putEncoding he a j).trans he'
  have hsecond := assign_of_choose (d := (d.assign i p v).1) (v := w) (by rw [hfirst]; exact hk')
    (by rw [hfirst]; exact hput) (by rw [hfirst]; exact ho') hb
  rw [hsecond, hfirst]
  exact ⟨rfl, rfl, rfl⟩

/-- Of two choices in encodings either one may be made first. -/
theorem assign_assign (hd : d.Coherent) (hne : Spot.slot i p ≠ .slot j r)
    (hp : (Spot.slot i p).parent? ≠ some (.slot j r)) (hr : (Spot.slot j r).parent? ≠ some (.slot i p))
    (hv : (d.assign i p v).2 = none) (hw : ((d.assign i p v).1.assign j r w).2 = none) :
    (d.assign j r w).2 = none ∧ ((d.assign j r w).1.assign i p v).2 = none ∧
      ((d.assign i p v).1.assign j r w).1.query = ((d.assign j r w).1.assign i p v).1.query := by
  obtain ⟨k, e, o, a, hk, he, ho, ha, hfirst⟩ := assign_eq_none hd hv
  obtain ⟨k', e', o', b, hk', he', ho', hb, -⟩ := assign_eq_none (hd.assign i p v) hw
  rw [hfirst] at hk' he' ho'
  replace hk' : d.slots.slot? j r = some k' := hk'
  replace ho' : d.origin.encodings[j]? = some o' := ho'
  replace he' := (d.encoding?_putEncoding he a j).symm.trans he'
  obtain ⟨-, -, hthere⟩ := assign_assign_of_choose hk he ho ha hk' he' ho' hb
  by_cases hij : i = j
  · subst hij
    obtain rfl : a = e' := Option.some.inj ((if_pos rfl).symm.trans he')
    obtain rfl : o = o' := Option.some.inj (ho.symm.trans ho')
    have hkind := hd.kind_eq he ho
    have hpr : r ≠ p := fun h => hne (h ▸ rfl)
    have hp' : p.parent? ≠ some r := fun h => hp (by rw [Spot.parent?, h, Option.map_some])
    have hr' : r.parent? ≠ some p := fun h => hr (by rw [Spot.parent?, h, Option.map_some])
    -- What the encoding takes in one order it takes in the other.
    have htakes := Encoding.choose_choose hkind hpr hp' hr' v w
    have hswapped := Encoding.choose_choose hkind hpr.symm hr' hp' w v
    rcases hx : e.choose o r w with ⟨x, error⟩
    rw [ha, hb, hx, Prod.mk.injEq] at htakes
    obtain ⟨-, rfl⟩ := htakes
    rw [ha, hb, hx] at hswapped
    obtain ⟨hw', hv', hback⟩ := assign_assign_of_choose hk' he ho hx hk (if_pos rfl) ho hswapped
    exact ⟨hw', hv', by rw [hthere, hback, List.set_set, List.set_set]⟩
  · obtain ⟨hw', hv', hback⟩ := assign_assign_of_choose hk' ((if_neg hij).symm.trans he') ho' hb hk
      ((if_neg (Ne.symm hij)).trans he) ho ha
    exact ⟨hw', hv', by rw [hthere, hback, List.set_comm _ _ hij]⟩

/-- Whether an encoding takes a choice does not depend on the mark. -/
theorem assign_of_setMark (hd : d.Coherent) {m : Mark} (h : ((d.setMark m).1.assign i p v).2 = none) :
    (d.assign i p v).2 = none := by
  obtain ⟨k, e, o, a, hk, he, ho, ha, -⟩ := assign_eq_none (hd.setMark m) h
  have hslots : (d.setMark m).1.slots = d.slots := by unfold setMark; split <;> rfl
  have horigin : (d.setMark m).1.origin = d.origin := by unfold setMark; split <;> rfl
  have hencodings : (d.setMark m).1.encoding? i = d.encoding? i := by unfold setMark; split <;> rfl
  rw [assign_of_choose (hslots ▸ hk) (hencodings ▸ he) (horigin ▸ ho) ha]

/-- Of two choices either one may be made first, if neither is made for the part in which the other one
lies, and the query that results is the same. -/
theorem Coherent.chooseAt_chooseAt (hd : d.Coherent) (hne : s ≠ t) (hst : s.parent? ≠ some t)
    (hts : t.parent? ≠ some s) (hv : (d.chooseAt s v).2 = none)
    (hw : ((d.chooseAt s v).1.chooseAt t w).2 = none) :
    (d.chooseAt t w).2 = none ∧ ((d.chooseAt t w).1.chooseAt s v).2 = none ∧
      ((d.chooseAt s v).1.chooseAt t w).1.query = ((d.chooseAt t w).1.chooseAt s v).1.query := by
  cases s with
  | mark =>
    cases t with
    | mark => exact absurd rfl hne
    | slot j r =>
      obtain ⟨m, k, rfl, hk, -⟩ := chooseAt_mark_eq_none hv
      have htaken : (d.assign j r w).2 = none := assign_of_setMark hd hw
      have hmark : (d.assign j r w).1.slots.mark = some k :=
        (congrArg SlotIndex.mark (alikeApart_chooseAt (s := .slot j r) hd htaken).slots).symm.trans hk
      rw [chooseAt_mark, chooseAt_slot, chooseAt_slot, chooseAt_mark, assign_setMark hd htaken m]
      exact ⟨htaken, congrArg Prod.snd (setMark_eq hmark m), rfl⟩
  | slot i p =>
    cases t with
    | mark =>
      obtain ⟨m, k, rfl, hk, -⟩ := chooseAt_mark_eq_none hw
      have hmark : d.slots.mark = some k :=
        (congrArg SlotIndex.mark (alikeApart_chooseAt hd hv).slots).trans hk
      rw [chooseAt_mark, chooseAt_slot, chooseAt_slot, chooseAt_mark, assign_setMark hd hv m]
      exact ⟨congrArg Prod.snd (setMark_eq hmark m), rfl, rfl⟩
    | slot j r => exact assign_assign hd hne hst hts hv hw

/-- Two choices are on record alike, whichever was made first. -/
theorem Coherent.assignment_chooseAt_chooseAt (hd : d.Coherent) (hne : s ≠ t)
    (hv : (d.chooseAt s v).2 = none) (hw : ((d.chooseAt s v).1.chooseAt t w).2 = none)
    (hw' : (d.chooseAt t w).2 = none) (hv' : ((d.chooseAt t w).1.chooseAt s v).2 = none) :
    ((d.chooseAt s v).1.chooseAt t w).1.assignment =
      ((d.chooseAt t w).1.chooseAt s v).1.assignment := by
  obtain ⟨n, hn, hfirst⟩ := assignment_chooseAt hd hv
  obtain ⟨n', hn', hsecond⟩ := assignment_chooseAt (hd.chooseAt s v) hw
  obtain ⟨k', hk', hfirst'⟩ := assignment_chooseAt hd hw'
  obtain ⟨k, hk, hsecond'⟩ := assignment_chooseAt (hd.chooseAt t w) hv'
  rw [← (alikeApart_chooseAt hd hv).nameAt?_eq] at hn'
  rw [← (alikeApart_chooseAt hd hw').nameAt?_eq] at hk
  obtain rfl := Option.mem_unique hn hk
  obtain rfl := Option.mem_unique hn' hk'
  have hnames : n' ≠ n := by
    rintro rfl
    exact hne (hd.eq_of_nameAt? hn hn')
  rw [hsecond, hfirst, hsecond', hfirst', Table.insert_comm hd.recorded hnames]

/-- Whatever has been done to a built draft, two choices for different slots of it, neither of which
lies in the part of the other, may be made in either order: if the second one succeeds after the first,
so does the first one after the second, to the same query with the same record and the same channels in
use. No part of a scale need be free of `null` for that. -/
theorem choices_commute {q : ChartQuery} {schema : Schema} {config : Config} {d₀ : Draft}
    (hbuild : build q schema config = .ok d₀) (calls : List Call) {s t : Spot} (hne : s ≠ t)
    (hst : s.parent? ≠ some t) (hts : t.parent? ≠ some s) (v w : Choice)
    (hv : ((d₀.after calls).chooseAt s v).2 = none)
    (hw : (((d₀.after calls).chooseAt s v).1.chooseAt t w).2 = none) :
    ((d₀.after calls).chooseAt t w).2 = none ∧
      (((d₀.after calls).chooseAt t w).1.chooseAt s v).2 = none ∧
      (((d₀.after calls).chooseAt s v).1.chooseAt t w).1.Same
        (((d₀.after calls).chooseAt t w).1.chooseAt s v).1 := by
  have hd : (d₀.after calls).Coherent := (derived_after d₀ calls).coherent (isBuilt_of_build hbuild).coherent
  obtain ⟨hw', hv', hquery⟩ := hd.chooseAt_chooseAt hne hst hts hv hw
  refine ⟨hw', hv', hquery, hd.assignment_chooseAt_chooseAt hne hv hw hw' hv', ?_⟩
  exact ((hd.chooseAt s v).chooseAt t w).channelUsed_eq ((hd.chooseAt t w).chooseAt s v) hquery

/-- A count of rows that was switched off is put on a channel and switched on, in either order. The
channel counts as used only once both are done. -/
theorem choices_commute_count :
    ∃ d₀, build { mark := .fixed .point } oneField { autoAddCount := true } = .ok d₀ ∧
      let d := d₀.after [.assign 0 .autoCount (.flag false)]
      let move (e : Draft) := e.chooseAt (.slot 0 .channel) (.channel .x)
      let switch (e : Draft) := e.chooseAt (.slot 0 .autoCount) (.flag true)
      (move d).1.channelUsed .x = false ∧ (switch d).2 = none ∧ (switch d).1.channelUsed .x = false ∧
        (move (switch d).1).2 = none ∧ (move (switch d).1).1.channelUsed .x = true := by
  obtain ⟨d₀, hd₀⟩ : ∃ d₀, build { mark := .fixed .point } oneField { autoAddCount := true } = .ok d₀ :=
    ⟨_, rfl⟩
  have hv : ((d₀.after [.assign 0 .autoCount (.flag false)]).chooseAt (.slot 0 .channel)
      (.channel .x)).2 = none := by
    cases hd₀
    decide
  have hw : (((d₀.after [.assign 0 .autoCount (.flag false)]).chooseAt (.slot 0 .channel)
      (.channel .x)).1.chooseAt (.slot 0 .autoCount) (.flag true)).2 = none := by
    cases hd₀
    decide
  obtain ⟨hw', hv', hsame⟩ := choices_commute hd₀ [.assign 0 .autoCount (.flag false)]
    (by decide) (by decide) (by decide) (.channel .x) (.flag true) hv hw
  refine ⟨d₀, hd₀, ?_, hw', ?_, hv', (hsame.channels .x).symm.trans ?_⟩
  all_goals
    cases hd₀
    decide

end Draft
end ChartAdvisor
