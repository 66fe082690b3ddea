import ChartAdvisor.Proofs.Rules.Relaxing
import ChartAdvisor.Proofs.Search.Abreast

/-!
# A relaxed search

Under a relaxed configuration a search starts from the same draft, resolves the same properties in the
same order and tries the same values. It goes on from whatever is not refused, so that it finds all that
is found under the stricter configuration, in the same order, and what else it finds lies between.
-/
namespace ChartAdvisor

namespace Draft

/-- How a draft is built does not depend on what only rules consult. -/
theorem build_loosest (q : ChartQuery) (schema : Schema) (c : Config) :
    build q schema c.loosest = build q schema c := rfl

theorem steps_loosest (d : Draft) (c : Config) : d.steps c.loosest = d.steps c := rfl

/-! ## Two searches -/

variable {q : ChartQuery} {schema : Schema} {a b : Config}

/-- Whatever is found is found under a relaxed configuration as well, in the same order. -/
theorem generate_relaxes (h : a.Relaxes b) {drafts drafts' : List Draft}
    (ok : (generate q ⟨schema, a⟩).outcome = .ok drafts)
    (ok' : (generate q ⟨schema, b⟩).outcome = .ok drafts') :
    (drafts.map Draft.assignment).Sublist (drafts'.map Draft.assignment) := by
  obtain ⟨d₀, steps, found, hbuild, hsteps, hfound, hdrafts⟩ := generate_eq_ok_iff.mp ok
  obtain ⟨d₀', steps', found', hbuild', hsteps', hfound', hdrafts'⟩ := generate_eq_ok_iff.mp ok'
  have hstart : ComesOf d₀ d₀ := ⟨(isBuilt_of_build hbuild).sourced, rfl, rfl⟩
  obtain rfl : d₀ = d₀' := by
    rw [← build_loosest, h.same, build_loosest, hbuild'] at hbuild
    exact (Except.ok.inj hbuild).symm
  obtain rfl : steps = steps' := by
    rw [← steps_loosest, h.same, steps_loosest, hsteps'] at hsteps
    exact (Except.ok.inj hsteps).symm
  let Beside (d d' : Draft) : Prop := AgreeOff (fun _ => False) d d' ∧ ComesOf d₀ d ∧ ComesOf d₀ d'
  have hlooser := h.looser schema
  have step (p : Property) (d d' : Draft) (hd : Beside d d') :
      Follows ((⟨schema, a⟩ : Context) = ⟨schema, b⟩) Beside (fun _ => True)
        (d.walk ⟨schema, a⟩ p) (d'.walk ⟨schema, b⟩ p) := by
    obtain ⟨hagree, hcomes, hcomes'⟩ := hd
    have hfollows := walk_follows (fun _ _ => true) (fun _ => True) (p := p) hlooser
      (.inr fun _ => trivial) hagree hcomes.sourced hcomes'.sourced.coherent
      (fun s _ => by rw [List.filter_true, listed_congr (hcomes.slots.trans hcomes'.slots.symm)])
      (fun _ _ _ _ _ hkeep => absurd hkeep nofun)
    refine hfollows.imp_of_mem (fun hn hn' f hf f' hf' hff' => ⟨hff', ?_, ?_⟩) fun _ _ _ _ => trivial
    · exact ((hcomes.walk _ p).leaves hn).2 f hf
    · exact ((hcomes'.walk _ p).leaves hn').2 f' hf'
  obtain ⟨found₁, hfound₁, hthin⟩ := resolveAll_follows (fun _ => Beside) (fun _ _ => True)
    (fun _ p _ _ => step p) (fun _ _ _ _ _ _ _ _ _ => trivial) (List.nil_append steps)
    (.both ⟨.refl _ d₀, hstart, hstart⟩ .nil) hfound' (.inr ⟨found, hfound⟩)
  obtain rfl := Except.ok.inj (hfound.symm.trans hfound₁)
  rw [map_assignment_finish hdrafts, map_assignment_finish hdrafts']
  exact hthin.map_sublist fun d d' ⟨hagree, hcomes, hcomes'⟩ =>
    hagree.assignment_eq hcomes.sourced.coherent hcomes'.sourced.coherent

/-- Numbers on both axes, with thirty names on a channel that is open. -/
def namesAnywhere : ChartQuery where
  mark := .fixed .point
  encodings := [
    .field { channel := .fixed .x, field := .fixed "Q", type := .fixed .quantitative },
    .field { channel := .fixed .y, field := .fixed "R", type := .fixed .quantitative },
    .field {
      channel := .wild (.ofCandidates [.color, .size])
      field := .fixed "N"
      type := .fixed .nominal }]

/-- Where the ceiling on colours is raised, names are found on the colour too. -/
theorem generate_relaxes_namesAnywhere :
    ∃ drafts drafts', (generate namesAnywhere ⟨threeFields, {}⟩).outcome = .ok drafts ∧
      (generate namesAnywhere ⟨threeFields, { maxCardinalityForCategoricalColor := some 30 }⟩).outcome =
        .ok drafts' ∧ drafts.length = 1 ∧ drafts'.length = 2 ∧
      (drafts.map Draft.assignment).Sublist (drafts'.map Draft.assignment) := by
  have hone : ((generate namesAnywhere ⟨threeFields, {}⟩).outcome.map List.length).toOption =
      some 1 := by decide
  have htwo : ((generate namesAnywhere
      ⟨threeFields, { maxCardinalityForCategoricalColor := some 30 }⟩).outcome.map List.length).toOption =
      some 2 := by decide
  obtain ⟨drafts, hdrafts, hlength⟩ := exists_of_map_toOption hone
  obtain ⟨drafts', hdrafts', hlength'⟩ := exists_of_map_toOption htwo
  refine ⟨drafts, drafts', hdrafts, hdrafts', hlength, hlength', generate_relaxes ?_ hdrafts hdrafts'⟩
  exact {
    same := rfl
    enabled := fun rule => by unfold Config.isEnabled; split <;> exact id
    color := fun m hm => ⟨20, rfl, by rw [← Option.some.inj hm]; decide⟩
    facet := fun m hm => ⟨m, hm, le_rfl⟩
    shape := fun m hm => ⟨m, hm, le_rfl⟩
    bins := le_rfl
    manual := id }

end Draft
end ChartAdvisor
