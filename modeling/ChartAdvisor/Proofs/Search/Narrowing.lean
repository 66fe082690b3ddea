import ChartAdvisor.Proofs.Query.Offering
import ChartAdvisor.Proofs.Styling

/-!
# A narrowed search

Where a query lists fewer values for one of its slots, a search finds what it found before, in the same
order, but for the drafts that have one of the other values on record. The branches in which such a
value was tried leave no trace on what is tried after them.
-/
namespace ChartAdvisor
namespace Draft

variable {ctx : Context} {d₀ d₀' a b d : Draft} {s t : Spot} {p : Property}

/-! ## Values on record -/

/-- A draft that comes of listed choices, with no values on record but those that are listed for their
slots. -/
structure Answered (d₀ d : Draft) : Prop where
  comes : ComesOf d₀ d
  lists : ∀ t, ∀ n ∈ d.nameAt? t, ∀ c, d.assignment.lookup n = some c → d.Lists t c

namespace Answered

theorem coherent (h : Answered d₀ d) : d.Coherent := h.comes.sourced.coherent

theorem chooseAt (h : Answered d₀ d) {c : Choice} (hc : d.Lists s c) (taken : (d.chooseAt s c).2 = none) :
    Answered d₀ (d.chooseAt s c).1 where
  comes := h.comes.chooseAt hc taken
  lists t n hn v hv := by
    have hap := alikeApart_chooseAt h.coherent taken
    rw [← hap.nameAt?_eq] at hn
    refine lists_congr hap.slots ?_
    by_cases hs : n ∈ d.nameAt? s
    · obtain rfl := h.coherent.eq_of_nameAt? hn hs
      rw [lookup_chooseAt_self h.coherent taken hs] at hv
      exact Option.some.inj hv ▸ hc
    · rw [lookup_chooseAt h.coherent taken hs] at hv
      exact h.lists t n hn v hv

theorem reopenAt (h : Answered d₀ d) (taken : (d.reopenAt s).2 = none) :
    Answered d₀ (d.reopenAt s).1 where
  comes := h.comes.reopenAt taken
  lists t n hn v hv := by
    have hap := alikeApart_reopenAt h.coherent taken
    rw [← hap.nameAt?_eq] at hn
    refine lists_congr hap.slots ?_
    by_cases hs : n ∈ d.nameAt? s
    · rw [lookup_reopenAt_self h.coherent taken hs] at hv
      contradiction
    · rw [lookup_reopenAt h.coherent taken hs] at hv
      exact h.lists t n hn v hv

theorem walk (h : Answered d₀ d) (ctx : Context) (p : Property) : Ends ctx (Answered d₀) (d.walk ctx p) := by
  rw [walk_eq_walkSpots]
  refine walkSpots_ends ctx (hosts_spots d p) (fun _ he => he.comes.sourced) (fun s hs e he => ?_)
    (fun s _ c e he => he.chooseAt) (fun s _ e he => he.reopenAt) h
  exact named_of_mem_spots (by rwa [spots_congr (he.comes.slots.trans h.comes.slots.symm)])

end Answered

theorem IsBuilt.answered {q : ChartQuery} {schema : Schema} {config : Config}
    (h : IsBuilt q schema config d) : Answered d d where
  comes := ⟨h.sourced, rfl, rfl⟩
  lists _ n _ c hc := by
    rw [h.assignment_eq] at hc
    contradiction

/-! ## Two searches -/

/-- A draft of a query and one of the query with fewer values to try at a spot. -/
structure Narrows (s : Spot) (kept : List Choice) (d₀' d₀ : Draft) : Prop where
  agree : AgreeOff (fun _ => False) d₀' d₀
  lists : ∀ t, d₀'.listed t = (d₀.listed t).filter fun c => decide (t = s → c ∈ kept)

/-- A value is on record that is not kept. -/
def HasOther (n : String) (kept : List Choice) (d : Draft) : Prop :=
  ∃ c, d.assignment.lookup n = some c ∧ c ∉ kept

/-- Two drafts of the searches side by side, after some properties were resolved. -/
structure SideBySide (d₀' d₀ : Draft) (seen : List Property) (a b : Draft) : Prop where
  agree : AgreeOff (fun _ => False) a b
  answered : Answered d₀' a
  recorded : Recorded d₀ seen b

section Searches

variable {kept : List Choice} {n : String} {steps seen rest : List Property}

/-- Where fewer values are listed, no other value goes on record. -/
theorem SideBySide.mem_kept (h : SideBySide d₀' d₀ seen a b) (narrows : Narrows s kept d₀' d₀)
    (hn : n ∈ d₀.nameAt? s) {c : Choice} (hc : a.assignment.lookup n = some c) : c ∈ kept := by
  have hslots := h.answered.comes.slots
  have hname : n ∈ a.nameAt? s := by
    rwa [nameAt?_congr hslots, narrows.agree.nameAt?_eq]
  have hlisted := mem_listed_iff.mpr (h.answered.lists s n hname c hc)
  rw [listed_congr hslots, narrows.lists] at hlisted
  exact of_decide_eq_true (List.mem_filter.mp hlisted).2 rfl

/-- What a search finds from drafts side by side lies side by side, but for what has another value on
record. -/
theorem SideBySide.walk (h : SideBySide d₀' d₀ seen a b) (narrows : Narrows s kept d₀' d₀)
    (hn : n ∈ d₀.nameAt? s) (parents : ∀ q ∈ seen, q.parent? = some p → p ∈ seen) :
    Follows (ctx = ctx) (SideBySide d₀' d₀ (seen ++ [p]))
      (fun f => Recorded d₀ (seen ++ [p]) f ∧ HasOther n kept f) (a.walk ctx p) (b.walk ctx p) := by
  have hslots : b.slots = d₀.slots := h.recorded.course.comes.slots
  have same : Looser ctx ctx := fun _ _ _ hv hv' => (Except.ok.inj (hv.symm.trans hv')).symm
  have lists (t : Spot) : a.listed t = (b.listed t).filter fun c => decide (t = s → c ∈ kept) := by
    rw [listed_congr h.answered.comes.slots, listed_congr hslots, narrows.lists]
  have dropped (t : Spot) (m : String) (hm : m ∈ b.nameAt? t) (c : Choice)
      (hc : decide (t = s → c ∈ kept) = false) (f : Draft) (hf : f.assignment.lookup m = some c) :
      HasOther n kept f := by
    obtain ⟨rfl, hother⟩ := Classical.not_imp.mp (of_decide_eq_false hc)
    rw [nameAt?_congr hslots] at hm
    obtain rfl := Option.mem_unique hn hm
    exact ⟨c, hf, hother⟩
  have hfollows := walk_follows (fun t c => decide (t = s → c ∈ kept)) (HasOther n kept) (p := p) same
    (.inl rfl) h.agree h.answered.comes.sourced h.recorded.coherent (fun t _ => lists t)
    fun t _ => dropped t
  refine hfollows.imp_of_mem (fun ok ok' f hf g hg hfg => ⟨hfg, ?_, ?_⟩) fun ok g hg hother => ⟨?_, hother⟩
  · exact ((h.answered.walk ctx p).leaves ok).2 f hf
  · exact h.recorded.walk parents ok' hg
  · exact h.recorded.walk parents ok hg

/-- A value stays on record when properties are resolved that had no turn before. -/
theorem HasOther.walk (h : HasOther n kept b) (recorded : Recorded d₀ seen b) (hn : n ∈ d₀.nameAt? s)
    (hp : p ∉ seen) (ok : (b.walk ctx p).failure = none) {f : Draft} (hf : f ∈ (b.walk ctx p).found) :
    HasOther n kept f := by
  obtain ⟨c, hc, hother⟩ := h
  have hname : n ∈ b.nameAt? s := by rwa [nameAt?_congr recorded.course.comes.slots]
  have hspots : ∀ t ∈ b.spots p, n ∉ b.nameAt? t := by
    intro t ht hnt
    obtain rfl := recorded.coherent.eq_of_nameAt? hname hnt
    -- before the turn of its property nothing is on record for the spot
    have hunseen := recorded.unseen s (by rwa [property_of_mem_spots ht]) n hname
    rw [hunseen] at hc
    contradiction
  rw [walk_eq_walkSpots] at ok hf
  exact ⟨c, ((walkSpots_sameUnder ctx recorded.coherent hspots ok).2 f hf).lookup.trans hc, hother⟩

/-- The search with fewer values goes along with the other one. -/
theorem resolveAll_narrows (narrows : Narrows s kept d₀' d₀) (hn : n ∈ d₀.nameAt? s)
    (order : PartsAfter steps) (once : steps.Nodup) (start : SideBySide d₀' d₀ [] a b) {found' : List Draft}
    (ok : (resolveAll ctx steps [b]).outcome = .ok found') :
    ∃ found, (resolveAll ctx steps [a]).outcome = .ok found ∧
      Thinned (SideBySide d₀' d₀ steps) (fun f => Recorded d₀ steps f ∧ HasOther n kept f) found found' := by
  refine resolveAll_follows (SideBySide d₀' d₀) (fun seen f => Recorded d₀ seen f ∧ HasOther n kept f)
    (fun seen p rest hsplit a b h => h.walk narrows hn (order.mem_of_parent? hsplit.symm))
    (fun seen p rest hsplit b ⟨hrecorded, hother⟩ ok f hf => ⟨?_, ?_⟩)
    (List.nil_append steps) (.both start .nil) ok (.inl rfl)
  · exact hrecorded.walk (order.mem_of_parent? hsplit.symm) ok hf
  · have hp : p ∉ seen := by
      rw [← hsplit] at once
      exact fun hmem => (List.nodup_append.mp once).2.2 p hmem p (List.mem_cons_self ..) rfl
    exact hother.walk hrecorded hn hp ok hf

/-- What goes along with drafts that can be styled can be styled. -/
theorem finish_narrows {found found' drafts' : List Draft} {gone : Draft → Prop}
    (h : Thinned (SideBySide d₀' d₀ steps) gone found found') (ok : finish ctx found' = .ok drafts') :
    ∃ drafts, finish ctx found = .ok drafts := by
  unfold finish stylizeAll at ok ⊢
  split at ok
  · next hstylize =>
    have hstyled := forall₂_of_mapM_eq_ok (mapError_eq_ok.mp ok)
    have hall (f : Draft) (hf : f ∈ found) : ∃ e, f.stylize ctx.schema ctx.config = .ok e := by
      obtain ⟨g, hg, hfg⟩ := h.exists_right hf
      obtain ⟨e', -, he'⟩ := exists_of_forall₂ hstyled hg
      have hagree : f.Agree stylingInputs g :=
        hfg.agree.agree hfg.answered.coherent hfg.recorded.coherent (p := .mark)
          (fun _ hF => hF.elim) (.inl fun _ hF => hF)
      obtain ⟨e, he, -⟩ := hagree.stylize ctx.schema ctx.config e' he'
      exact ⟨e, he⟩
    rw [if_pos hstylize]
    cases hm : found.mapM (Draft.stylize ctx.schema ctx.config) with
    | ok drafts => exact ⟨drafts, rfl⟩
    | error e =>
      obtain ⟨f, hf, hfail⟩ := exists_of_mapM_eq_error hm
      obtain ⟨g, hg⟩ := hall f hf
      rw [hfail] at hg
      contradiction
  · next hplain =>
    rw [if_neg hplain]
    exact ⟨found, rfl⟩

end Searches

/-! ## Fewer candidates -/

variable {q : ChartQuery} {w : Wildcard Choice} {all kept : List Choice} {drafts : List Draft}

/-- A query that lists fewer values for a slot is built with those. -/
theorem narrows_of_sublist (hd : IsBuilt q ctx.schema ctx.config d₀)
    (hd' : IsBuilt (q.offering s kept) ctx.schema ctx.config d₀') (opened : q.choicesAt? s = some w)
    (explicit : w.candidates = some all) (nodup : all.Nodup) (sub : kept.Sublist all) :
    Narrows s kept d₀' d₀ := by
  have hkept : w.Admits kept := ⟨all, explicit, fun _ hc => sub.subset hc⟩
  refine ⟨agreeOff_offering hd hd' opened hkept, fun t => ?_⟩
  rw [listed_offering hd hd' opened hkept]
  by_cases ht : t = s
  · subst ht
    rw [if_pos rfl, listed_of_candidates hd opened explicit]
    simp [filter_mem_of_sublist sub nodup]
  · simp [ht]

/-- Leaving out candidates of a slot leaves out what was found with them, and nothing else. -/
theorem generate_narrows (valid : ctx.config.validate = .ok ())
    (once : ctx.config.propertyPrecedence.Nodup) (opened : q.choicesAt? s = some w)
    (explicit : w.candidates = some all) (nodup : all.Nodup) (sub : kept.Sublist all)
    (h : (generate q ctx).outcome = .ok drafts) :
    ∃ d₀ n drafts', build q ctx.schema ctx.config = .ok d₀ ∧ d₀.nameAt? s = some n ∧
      (generate (q.offering s kept) ctx).outcome = .ok drafts' ∧
      drafts'.map Draft.assignment =
        (drafts.map Draft.assignment).filter fun record => (record.lookup n).all (decide <| · ∈ kept) := by
  obtain ⟨d₀, steps, found, hbuild, hsteps, hfound, hdrafts⟩ := generate_eq_ok_iff.mp h
  have hbuilt := isBuilt_of_build hbuild
  have hkept : w.Admits kept := ⟨all, explicit, fun _ hc => sub.subset hc⟩
  obtain ⟨d₀', hbuild'⟩ := build_offering hbuild opened hkept
  have hbuilt' := isBuilt_of_build hbuild'
  have narrows := narrows_of_sublist hbuilt hbuilt' opened explicit nodup sub
  obtain ⟨n, hn⟩ := Option.isSome_iff_exists.mp (nameAt?_isSome_of_choicesAt? hbuilt opened)
  have hsteps' : d₀'.steps ctx.config = .ok steps := by
    have hhas : d₀'.slots.has = d₀.slots.has := funext (SlotIndex.has_congr narrows.agree.outline)
    rw [Draft.steps, hhas]
    exact hsteps
  have hstart : SideBySide d₀' d₀ [] d₀' d₀ :=
    ⟨narrows.agree, hbuilt'.answered, hbuilt.recorded⟩
  have honce : steps.Nodup := by
    rw [steps_eq_ok hsteps]
    exact once.filter _
  obtain ⟨found', hfound', hthin⟩ := resolveAll_narrows narrows hn (partsAfter_of_validate valid hsteps)
    honce hstart hfound
  obtain ⟨drafts', hdrafts'⟩ := finish_narrows hthin hdrafts
  refine ⟨d₀, n, drafts', hbuild, hn, generate_eq_ok_iff.mpr ⟨d₀', steps, found', hbuild', hsteps', hfound',
    hdrafts'⟩, ?_⟩
  rw [map_assignment_finish hdrafts, map_assignment_finish hdrafts']
  refine hthin.map_eq_filter (fun a b hab => ?_) ?_
  · have hsame := hab.agree.assignment_eq hab.answered.coherent hab.recorded.coherent
    refine ⟨hsame, (Option.all_eq_true _ _).mpr fun c hc => ?_⟩
    rw [← hsame] at hc
    exact decide_eq_true (hab.mem_kept narrows hn hc)
  · rintro b ⟨-, c, hc, hother⟩
    rw [hc]
    exact decide_eq_false hother

/-- With ten bins as the only number to try, ten bins and no bins are left. -/
theorem generate_narrows_openBin :
    ∃ drafts d₀ n drafts', (generate openBin ⟨oneField, {}⟩).outcome = .ok drafts ∧ drafts.length = 3 ∧
      build openBin oneField {} = .ok d₀ ∧ d₀.nameAt? (.slot 0 .maxBins) = some n ∧
      (generate (openBin.offering (.slot 0 .maxBins) [.count 10]) ⟨oneField, {}⟩).outcome = .ok drafts' ∧
      drafts'.length = 2 ∧ drafts'.map Draft.assignment =
        (drafts.map Draft.assignment).filter fun record =>
          (record.lookup n).all (decide <| · ∈ [.count 10]) := by
  have hthree : ((generate openBin ⟨oneField, {}⟩).outcome.map List.length).toOption = some 3 := by
    decide
  have htwo : ((generate (openBin.offering (.slot 0 .maxBins) [.count 10]) ⟨oneField, {}⟩).outcome.map
      List.length).toOption = some 2 := by decide
  obtain ⟨drafts, hdrafts, hlength⟩ := exists_of_map_toOption hthree
  obtain ⟨found, hfound, hlength'⟩ := exists_of_map_toOption htwo
  obtain ⟨d₀, n, drafts', hbuild, hn, hdrafts', hrecords⟩ := generate_narrows (by decide) (by decide)
    (show openBin.choicesAt? (.slot 0 .maxBins) = some (.ofCandidates [.count 5, .count 10]) from rfl)
    rfl (by decide) (.cons _ (.refl _)) hdrafts
  obtain rfl := Except.ok.inj (hfound.symm.trans hdrafts')
  exact ⟨drafts, d₀, n, found, hdrafts, hlength, hbuild, hn, hdrafts', hlength', hrecords⟩

end Draft
end ChartAdvisor
