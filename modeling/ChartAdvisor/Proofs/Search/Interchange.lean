import ChartAdvisor.Proofs.Draft.Commuting
import ChartAdvisor.Proofs.Search.Neglect

/-!
# Exploring in another order

Two choices that follow one another may be explored in the other order, if neither spot lies in the part
that is chosen at the other one, and no rule that is run for one of them neglects the other: values are
offered at the same spots, the encodings take them all the same, and the rules let the same choices pass.
One exchange after another, what is explored in one order of the spots is explored in another.
-/
namespace ChartAdvisor

/-- Two spots that may be visited in either order. -/
structure Config.Interchanges (config : Config) (s t : Spot) : Prop where
  ne : s ≠ t
  outside : s.parent? ≠ some t
  inside : t.parent? ≠ some s
  free : ¬config.Neglects s t
  free' : ¬config.Neglects t s

namespace Config.Interchanges

variable {config : Config} {s t : Spot}

theorem symm (h : config.Interchanges s t) : config.Interchanges t s :=
  ⟨h.ne.symm, h.inside, h.outside, h.free', h.free⟩

/-- Channels are not exchanged with switches of counts of rows. -/
theorem placed (h : config.Interchanges s t) (hs : s.property = .channel) : t.property ≠ .autoCount := by
  intro ht
  refine h.free (.inl ⟨(.noRepeatedChannel, [.autoCount, .channel]), by simp [ChartRule.readings], rfl, ?_⟩)
  rw [hs, ht]
  decide

end Config.Interchanges

namespace Draft

variable {ctx : Context} {d e c : Draft} {s t : Spot} {v w : Choice} {rest : List Spot}

/-! ## Twins -/

/-- What is not refused in a draft is not refused in its twin. -/
theorem Twin.verdictAt_eq_none (h : Twin [] d e) (kept : d.verdictAt ctx s = .ok none) :
    e.verdictAt ctx s = .ok none := by
  obtain ⟨u, hu, hsome⟩ := exists_of_map_isSome_eq
    (h.alike.verdictAt_eq h.coherent h.copy_coherent ctx s).symm kept
  cases u with
  | none => exact hu
  | some => contradiction

/-- Twins are explored alike. -/
theorem Twin.explored {spots : List Spot} (h : Twin [] d e) (run : Explored ctx spots d c) :
    ∃ c', Explored ctx spots e c' ∧ Twin [] c c' := by
  induction run generalizing e with
  | done => exact ⟨e, .done e, h⟩
  | skip passed _ ih =>
    obtain ⟨c', hc', htwin⟩ := ih h
    exact ⟨c', .skip (by rw [← h.alike.choicesAt?_eq, passed]) hc', htwin⟩
  | @choose s _ _ _ _ _ offered listed taken kept _ ih =>
    obtain ⟨taken', hnext⟩ := (h.pending [s]).sibling.chooseAt (fun _ ht => absurd ht List.not_mem_nil) taken
    obtain ⟨c', hc', htwin⟩ := ih hnext
    exact ⟨c', .choose (by rw [← h.alike.choicesAt?_eq, offered]) listed taken'
      (hnext.verdictAt_eq_none kept) hc', htwin⟩

/-- Two choices make twins in either order. -/
theorem Coherent.twin_chooseAt (hd : d.Coherent) (hne : s ≠ t) (hst : s.parent? ≠ some t)
    (hts : t.parent? ≠ some s) (hv : (d.chooseAt s v).2 = none)
    (hw : ((d.chooseAt s v).1.chooseAt t w).2 = none) :
    (d.chooseAt t w).2 = none ∧ ((d.chooseAt t w).1.chooseAt s v).2 = none ∧
      Twin [] ((d.chooseAt s v).1.chooseAt t w).1 ((d.chooseAt t w).1.chooseAt s v).1 := by
  obtain ⟨hw', hv', hquery⟩ := hd.chooseAt_chooseAt hne hst hts hv hw
  have hrecord := hd.assignment_chooseAt_chooseAt hne hv hw hw' hv'
  have hap := alikeApart_chooseAt hd hv
  have hap' := alikeApart_chooseAt (hd.chooseAt s v) hw
  have haq := alikeApart_chooseAt hd hw'
  have haq' := alikeApart_chooseAt (hd.chooseAt t w) hv'
  refine ⟨hw', hv', (hd.chooseAt s v).chooseAt t w, (hd.chooseAt t w).chooseAt s v, ?_,
    fun n => .inl (by rw [hrecord])⟩
  exact {
    slots := (hap.slots.trans hap'.slots).symm.trans (haq.slots.trans haq'.slots)
    origin := (hap.origin.trans hap'.origin).symm.trans (haq.origin.trans haq'.origin)
    settings := by rw [hquery]
    encodings := fun j => by rw [encoding?, encoding?, hquery] }

/-! ## Offers -/

/-- In a count of rows nothing but its channel and its switch is ever open. -/
theorem Coherent.choicesAt?_count (hd : d.Coherent) {i : Nat} {o : Encoding}
    (ho : d.origin.encodings[i]? = some o) (hcount : o.isOpen .autoCount = true) {p : Property}
    (hp : p ≠ .channel) (hp' : p ≠ .autoCount) : d.choicesAt? (.slot i p) = none := by
  refine choicesAt?_slot_eq_none_iff.mpr fun e he _ => ?_
  have hkind := hd.kind_eq he ho
  cases o with
  | field | value => contradiction
  | autoCount =>
    cases e with
    | field | value => contradiction
    | autoCount => simp [Encoding.standing, hp, hp']

/-- What is offered at a spot does not depend on a choice at another one in which it does not lie, unless
the choice switches the count of rows whose channel is to be chosen. -/
theorem choicesAt?_chooseAt (hd : d.Coherent) (taken : (d.chooseAt t w).2 = none) (hne : s ≠ t)
    (outside : s.parent? ≠ some t) (placed : s.property = .channel → t.property ≠ .autoCount) :
    (d.chooseAt t w).1.choicesAt? s = d.choicesAt? s := by
  have hap := alikeApart_chooseAt hd taken
  by_cases hhost : hostOf t = hostOf s
  · cases s with
    | mark => rw [choicesAt?, choicesAt?, hap.slots]
    | slot i p =>
      obtain ⟨r, rfl⟩ : ∃ r, t = .slot i r := by
        cases t with
        | mark => contradiction
        | slot j r => exact ⟨r, by rw [Option.some.inj hhost]⟩
      have hpr : p ≠ r := fun h => hne (by rw [h])
      have hparent : p.parent? ≠ some r := fun h => outside (by rw [Spot.parent?, h, Option.map_some])
      by_cases hr : r = .autoCount
      · subst hr
        obtain ⟨k, e, o, -, hk, he, ho, -⟩ := assign_eq_none hd taken
        have hcount := hd.isOpen hk ho
        have hp : p ≠ .channel := fun h => placed h rfl
        rw [hd.choicesAt?_count ho hcount hp hpr,
          (hd.chooseAt _ w).choicesAt?_count (hap.origin ▸ ho) hcount hp hpr]
      · have hquiet : r.QuietFor [.autoCount, p] := by
          refine ⟨fun h => ?_, fun q hq => ?_⟩
          · rcases List.mem_pair.mp h with h | h
            · exact hr h
            · exact hpr h.symm
          · rcases List.mem_pair.mp hq with rfl | rfl
            · simp [Property.parent?]
            · exact hparent
        exact (valuesAt?_congr hap.slots ((agree_chooseAt hd taken hquiet).encoding? i)).symm
  · exact (hap.choicesAt?_eq hhost).symm

/-! ## Verdicts -/

/-- The encoding in which a spot lies is there. -/
def Hosts (d : Draft) (s : Spot) : Prop := ∀ i, hostOf s = some i → (d.encoding? i).isSome

theorem hosts_of_choicesAt? (h : (d.choicesAt? s).isSome) : d.Hosts s := by
  intro i hi
  cases s with
  | mark => contradiction
  | slot j p =>
    obtain rfl := Option.some.inj hi
    obtain ⟨e, he, -⟩ := choicesAt?_slot_isSome_iff.mp h
    rw [he]
    rfl

theorem Hosts.chooseAt (h : d.Hosts s) (hd : d.Coherent) (taken : (d.chooseAt t w).2 = none) :
    (d.chooseAt t w).1.Hosts s := fun i hi => by
  rw [← (alikeApart_chooseAt hd taken).isSome_encoding?]
  exact h i hi

/-- Two choices that the rules let pass one after the other they let pass in the other order. -/
theorem verdictAt_interchange (makes : d.Makes s v) (kept : (d.chooseAt s v).1.verdictAt ctx s = .ok none)
    (makes' : (d.chooseAt s v).1.Makes t w)
    (kept' : ((d.chooseAt s v).1.chooseAt t w).1.verdictAt ctx t = .ok none) (first : d.Makes t w)
    (second : (d.chooseAt t w).1.Makes s v) (free : ctx.config.Interchanges s t) :
    (d.chooseAt t w).1.verdictAt ctx t = .ok none ∧
      ((d.chooseAt t w).1.chooseAt s v).1.verdictAt ctx s = .ok none := by
  obtain ⟨-, -, htwin⟩ :=
    makes.coherent.twin_chooseAt free.ne free.outside free.inside makes.taken makes'.taken
  have hs : (d.chooseAt s v).1.Hosts s := (hosts_of_choicesAt? makes.offered).chooseAt makes.coherent makes.taken
  have ht : (d.chooseAt t w).1.Hosts t := (hosts_of_choicesAt? first.offered).chooseAt first.coherent first.taken
  have hs' := hs.chooseAt makes'.coherent makes'.taken
  have ht' := (hosts_of_choicesAt? makes'.offered).chooseAt makes'.coherent makes'.taken
  -- what `s` was kept for is kept after `t`, and what `t` was kept for was kept before `s`
  have hstill := ((verdictAt_eq_none_iff hs).mp kept).chooseAt makes'
    ((verdictAt_eq_none_iff ht').mp kept') free.free
  have hthere := (verdictAt_eq_none_iff (ht.chooseAt second.coherent second.taken)).mp
    (htwin.verdictAt_eq_none kept')
  exact ⟨(verdictAt_eq_none_iff ht).mpr (.of_chooseAt second hthere free.free'),
    htwin.verdictAt_eq_none ((verdictAt_eq_none_iff hs').mpr hstill)⟩

/-! ## Runs -/

theorem Due.perm {xs ys : List Spot} (h : Due xs d) (perm : xs.Perm ys) : Due ys d :=
  ⟨h.coherent, h.asBuilt, perm.nodup h.nodup, fun hm => h.mark (perm.mem_iff.mpr hm)⟩

/-- The first two spots of a run may be visited in the other order. -/
theorem interchange (run : Explored ctx (s :: t :: rest) d c) (due : Due (s :: t :: rest) d)
    (free : ctx.config.Interchanges s t) :
    ∃ c', Explored ctx (t :: s :: rest) d c' ∧ Twin [] c c' := by
  have hd := due.coherent
  have due' : Due (t :: s :: rest) d := due.perm (.swap ..)
  have hc : c.Coherent := (run.frame hd).1
  cases run with
  | skip passed onward =>
    cases onward with
    | skip passed' onward => exact ⟨c, .skip passed' (.skip passed onward), .refl hc _⟩
    | choose offered listed taken kept onward =>
      have hpassed := (choicesAt?_chooseAt hd taken free.ne free.outside free.placed).trans passed
      exact ⟨c, .choose offered listed taken kept (.skip hpassed onward), .refl hc _⟩
  | @choose _ _ _ _ choices v offered listed taken kept onward =>
    have hoffer := choicesAt?_chooseAt hd taken free.ne.symm free.inside free.symm.placed
    cases onward with
    | skip passed onward =>
      exact ⟨c, .skip (hoffer.symm.trans passed) (.choose offered listed taken kept onward), .refl hc _⟩
    | @choose _ _ _ _ choices' w offered' listed' taken' kept' onward =>
      obtain ⟨hw, hv, htwin⟩ := hd.twin_chooseAt free.ne free.outside free.inside taken taken'
      have hoffered : d.choicesAt? t = some choices' := hoffer.symm.trans offered'
      have hoffered' : (d.chooseAt t w).1.choicesAt? s = some choices :=
        (choicesAt?_chooseAt hd hw free.ne free.outside free.placed).trans offered
      obtain ⟨hfirst, hsecond⟩ := verdictAt_interchange (due.makes offered taken) kept
        ((due.chooseAt taken).makes offered' taken') kept' (due'.makes hoffered hw)
        ((due'.chooseAt hw).makes hoffered' hv) free
      obtain ⟨c', hc', hcc'⟩ := htwin.explored onward
      exact ⟨c', .choose hoffered listed' hw hfirst (.choose hoffered' listed hv hsecond hc'), hcc'⟩

/-- A spot may be visited first, if it may be exchanged with all that are visited before it. -/
theorem explored_front {before after : List Spot} (run : Explored ctx (before ++ t :: after) d c)
    (due : Due (before ++ t :: after) d) (free : ∀ s ∈ before, ctx.config.Interchanges s t) :
    ∃ c', Explored ctx (t :: (before ++ after)) d c' ∧ Twin [] c c' := by
  induction before generalizing d with
  | nil => exact ⟨c, run, .refl (run.frame due.coherent).1 _⟩
  | cons s before ih =>
    obtain ⟨hs, hbefore⟩ := List.forall_mem_cons.mp free
    -- past the spots in between first
    obtain ⟨c₁, hc₁, htwin₁⟩ : ∃ c₁, Explored ctx (s :: t :: (before ++ after)) d c₁ ∧ Twin [] c c₁ := by
      cases run with
      | skip passed onward =>
        obtain ⟨c₁, hc₁, htwin₁⟩ := ih onward due.tail hbefore
        exact ⟨c₁, .skip passed hc₁, htwin₁⟩
      | choose offered listed taken kept onward =>
        obtain ⟨c₁, hc₁, htwin₁⟩ := ih onward (due.chooseAt taken) hbefore
        exact ⟨c₁, .choose offered listed taken kept hc₁, htwin₁⟩
    obtain ⟨c₂, hc₂, htwin₂⟩ := interchange hc₁ (due.perm (List.perm_middle.cons s)) hs
    exact ⟨c₂, hc₂, htwin₁.trans htwin₂⟩

/-- What is explored in one order of the spots is explored in another one, if any two spots that have
changed places may be visited in either order. -/
theorem explored_perm {xs ys : List Spot} (run : Explored ctx xs d c) (due : Due xs d) (perm : xs.Perm ys)
    (free : ∀ s t, [s, t].Sublist xs → [t, s].Sublist ys → ctx.config.Interchanges s t) :
    ∃ c', Explored ctx ys d c' ∧ Twin [] c c' := by
  induction ys generalizing xs d c with
  | nil =>
    obtain rfl := perm.eq_nil
    exact ⟨c, run, .refl (run.frame due.coherent).1 _⟩
  | cons t ys ih =>
    obtain ⟨before, after, rfl⟩ := List.append_of_mem (perm.mem_iff.mpr (List.mem_cons_self ..))
    have hrest : (before ++ after).Perm ys := (List.perm_middle.symm.trans perm).cons_inv
    have hbefore : ∀ s ∈ before, ctx.config.Interchanges s t := fun s hs =>
      free s t ((List.singleton_sublist.mpr hs).append (List.singleton_sublist.mpr (List.mem_cons_self ..)))
        ((List.singleton_sublist.mpr (hrest.subset (List.mem_append_left _ hs))).cons_cons t)
    have hfree (s u : Spot) (hxs : [s, u].Sublist (before ++ after)) (hys : [u, s].Sublist ys) :
        ctx.config.Interchanges s u :=
      free s u (hxs.trans ((List.sublist_cons_self t after).append_left before)) (hys.cons t)
    obtain ⟨c₁, hc₁, htwin₁⟩ := explored_front run due hbefore
    have due₁ := due.perm List.perm_middle
    cases hc₁ with
    | skip passed onward =>
      obtain ⟨c₂, hc₂, htwin₂⟩ := ih onward due₁.tail hrest hfree
      exact ⟨c₂, .skip passed hc₂, htwin₁.trans htwin₂⟩
    | choose offered listed taken kept onward =>
      obtain ⟨c₂, hc₂, htwin₂⟩ := ih onward (due₁.chooseAt taken) hrest hfree
      exact ⟨c₂, .choose offered listed taken kept hc₂, htwin₁.trans htwin₂⟩

end Draft
end ChartAdvisor
