import ChartAdvisor.Proofs.Charting
import ChartAdvisor.Proofs.Outcome
import ChartAdvisor.Proofs.Search.Settling
import ChartAdvisor.Proofs.Styling

/-!
# What a search leaves open

Under an order of resolution that is accepted, whatever plays a part in a draft that is found is
settled, but for constants, which a search passes by: a draft is a chart exactly if the query left no
constant open.
-/
namespace ChartAdvisor

/-- In an order that is accepted a part comes after what it is a part of. -/
theorem Config.mem_before_of_beforeParent? {precedence seen rest : List Property}
    (h : beforeParent? precedence seen rest = none) {before after : List Property} {q p : Property}
    (hsplit : rest = before ++ q :: after) (hparent : q.parent? = some p) : p ∈ seen ∨ p ∈ before := by
  induction rest generalizing seen before with
  | nil => simp at hsplit
  | cons r rest ih =>
    have onward (hr : beforeParent? precedence (r :: seen) rest = none) {before' : List Property}
        (hrest : rest = before' ++ q :: after) : p ∈ seen ∨ p ∈ r :: before' := by
      rcases ih hr hrest with hseen | hbefore
      · exact (List.mem_cons.mp hseen).elim (fun heq => .inr (heq ▸ List.mem_cons_self ..)) .inl
      · exact .inr (List.mem_cons_of_mem _ hbefore)
    unfold beforeParent? at h
    cases before with
    | nil =>
      obtain ⟨rfl, rfl⟩ := List.cons.inj hsplit
      rw [hparent] at h
      simp only at h
      split at h
      · next hseen => exact .inl (List.contains_iff_mem.mp hseen)
      · contradiction
    | cons b before' =>
      obtain ⟨rfl, hrest⟩ := List.cons.inj hsplit
      split at h
      · split at h
        · exact onward h hrest
        · contradiction
      · exact onward h hrest

namespace Draft

/-- What is open is resolved part after whole, if the configuration is accepted. -/
theorem partsAfter_of_validate {config : Config} (valid : config.validate = .ok ()) {d : Draft}
    {steps : List Property} (h : d.steps config = .ok steps) : PartsAfter steps := by
  have horder := Config.beforeParent?_eq_none valid
  intro before q after hsplit p hp hparent
  rw [steps_eq_ok h] at hsplit hp
  obtain ⟨l₁, l₂, hl, rfl, htail⟩ := List.filter_eq_append_iff.mp hsplit
  obtain ⟨m₁, m₂, rfl, hm₁, -, -⟩ := List.filter_eq_cons_iff.mp htail
  have hfull : config.propertyPrecedence = (l₁ ++ m₁) ++ q :: m₂ := by rw [hl, List.append_assoc]
  have hmem := (Config.mem_before_of_beforeParent? horder hfull hparent).resolve_left
    List.not_mem_nil
  have hopen := (List.mem_filter.mp hp).2
  rcases List.mem_append.mp hmem with hl₁ | hm
  · exact List.mem_filter.mpr ⟨hl₁, hopen⟩
  · exact absurd hopen (hm₁ p hm)

variable {q : ChartQuery} {ctx : Context} {drafts : List Draft}

/-- What is found was resolved, and then styled if the configuration asks for it. -/
theorem generate_eq_ok (h : (generate q ctx).outcome = .ok drafts) :
    ∃ d₀ steps found, build q ctx.schema ctx.config = .ok d₀ ∧ d₀.steps ctx.config = .ok steps ∧
      (resolveAll ctx steps [d₀]).outcome = .ok found ∧ ∀ d ∈ drafts, ∃ f ∈ found,
        f = d ∨ ctx.config.stylize = true ∧ f.stylize ctx.schema ctx.config = .ok d := by
  obtain ⟨d₀, steps, found, hb, hsteps, hfound, hdrafts⟩ := generate_eq_ok_iff.mp h
  refine ⟨d₀, steps, found, hb, hsteps, hfound, fun d hd => ?_⟩
  unfold finish stylizeAll at hdrafts
  split at hdrafts
  · next hstylize =>
    obtain ⟨f, hf, hfd⟩ := exists_of_mapM_eq_ok (mapError_eq_ok.mp hdrafts) hd
    exact ⟨f, hf, .inr ⟨hstylize, hfd⟩⟩
  · obtain rfl := Except.ok.inj hdrafts
    exact ⟨d, hd, .inl rfl⟩

/-- What is found was resolved part after whole, and then perhaps styled. -/
theorem onCourse_of_generate (valid : ctx.config.validate = .ok ())
    (h : (generate q ctx).outcome = .ok drafts) :
    ∃ d₀ steps, build q ctx.schema ctx.config = .ok d₀ ∧ d₀.steps ctx.config = .ok steps ∧
      ∀ d ∈ drafts, ∃ f, OnCourse d₀ steps f ∧ f.Restyled d := by
  obtain ⟨d₀, steps, found, hb, hsteps, hfound, hstyled⟩ := generate_eq_ok h
  have hbuilt := isBuilt_of_build hb
  have hstart : ∀ d ∈ [d₀], OnCourse d₀ [] d := by
    intro d hd
    obtain rfl := List.mem_singleton.mp hd
    exact ⟨⟨hbuilt.sourced, rfl, rfl⟩, fun _ _ he _ => he, fun _ hp => absurd hp List.not_mem_nil⟩
  have hcourse := OnCourse.of_resolveAll (partsAfter_of_validate valid hsteps) hstart hfound
  refine ⟨d₀, steps, hb, hsteps, fun d hd => ?_⟩
  obtain ⟨f, hf, rfl | ⟨-, hfd⟩⟩ := hstyled d hd
  · exact ⟨f, hcourse f hf, .refl f⟩
  · exact ⟨f, hcourse f hf, restyled_of_stylize hfd⟩

/-! ## Constants -/

/-- The constants of a built draft are those of the query, their channels filled. -/
theorem IsBuilt.constants_closed_iff {d₀ : Draft} (hb : IsBuilt q ctx.schema ctx.config d₀) :
    (∀ c v, .value c v ∈ d₀.query.encodings → c.isOpen = false ∧ v.isOpen = false) ↔
      ∀ c v, .value c v ∈ q.encodings → c.isOpen = false ∧ v.isOpen = false := by
  rw [hb.query_eq, hb.origin_eq]
  constructor
  · intro h c v hmem
    obtain ⟨i, hi⟩ := List.mem_iff_getElem?.mp hmem
    let f : Filling := { index := i, schema := ctx.schema, config := ctx.config }
    have hfilled : (Encoding.value c v).fill f ∈ fillEncodings ctx.schema ctx.config q.encodings := by
      rw [fillEncodings_eq]
      exact List.mem_append_left _
        (List.mem_map.mpr ⟨(.value c v, i), List.mem_zipIdx_iff_getElem?.mpr hi, rfl⟩)
    have hclosed := h _ _ (List.mem_map.mpr ⟨_, hfilled, rfl⟩)
    exact ⟨Filling.isOpen_slot f .channel c ▸ hclosed.1, hclosed.2⟩
  · intro h c v hmem
    obtain ⟨filled, hfilled, heq⟩ := List.mem_map.mp hmem
    rcases mem_fillEncodings hfilled with ⟨e, he, index, rfl⟩ | rfl
    · cases e with
      | value c' v' =>
        obtain ⟨rfl, rfl⟩ := Encoding.value.inj heq
        obtain ⟨hc, hv⟩ := h c' v' he
        exact ⟨(Filling.isOpen_slot _ .channel c').trans hc, hv⟩
      | field | autoCount => contradiction
    · contradiction

/-- A search, and styling after it, leave the constants of a draft alone. -/
theorem OnCourse.constant_iff {d₀ f d : Draft} {steps : List Property}
    (hb : IsBuilt q ctx.schema ctx.config d₀) (h : OnCourse d₀ steps f) (hfd : f.Restyled d)
    (c : Slot Channel) (v : Slot Json) :
    .value c v ∈ d.query.encodings ↔ .value c v ∈ d₀.query.encodings := by
  constructor
  · intro hmem
    obtain ⟨e, he, hrestyles⟩ := exists_of_forall₂ hfd.encodings.flip hmem
    have hkind : e.kind ≠ .field := by rw [← hrestyles.kind]; nofun
    obtain rfl := hrestyles.same hkind
    obtain ⟨i, hi⟩ := List.mem_iff_getElem?.mp he
    obtain ⟨o, ho⟩ := h.comes.sourced.coherent.exists_origin hi
    have hok := h.comes.sourced.coherent.kind_eq hi ho
    rw [h.comes.origin, ← hb.query_eq] at ho
    have hvalue : o.isValue = true := by rw [o.isValue_eq, ← hok]; rfl
    obtain rfl := Option.some.inj ((h.constants i o ho hvalue).symm.trans hi)
    exact List.mem_of_getElem? ho
  · intro hmem
    obtain ⟨i, hi⟩ := List.mem_iff_getElem?.mp hmem
    have hf := List.mem_of_getElem? (show f.query.encodings[i]? = _ from h.constants i _ hi rfl)
    obtain ⟨e, he, hrestyles⟩ := exists_of_forall₂ hfd.encodings hf
    rwa [hrestyles.same nofun] at he

/-- What plays a part is settled, unless it is a constant. -/
theorem OnCourse.closed {d₀ f d : Draft} {config : Config} {steps : List Property}
    (h : OnCourse d₀ steps f) (hsteps : d₀.steps config = .ok steps) (hfd : f.Restyled d)
    {e : Encoding} (he : e ∈ d.active) (hvalue : e.isValue = false) (p : Property) :
    e.isOpen p = false := by
  obtain ⟨he, hactive⟩ := List.mem_filter.mp he
  obtain ⟨e₀, he₀, hrestyles⟩ := exists_of_forall₂ hfd.encodings.flip he
  obtain ⟨i, hi⟩ := List.mem_iff_getElem?.mp he₀
  have hfrozen : e₀.isFrozen = false := by
    cases e₀ with
    | field q => rfl
    | value | autoCount =>
      rw [hrestyles.same Encoding.Kind.noConfusion] at hvalue hactive
      simpa [Encoding.isFrozen, hvalue] using hactive
  rw [hrestyles.isOpen, e₀.isOpen_eq, beq_eq_false_iff_ne]
  exact h.settledAt hsteps (.slot i p) e₀ hi hfrozen

/-- Whatever plays a part in a draft that is found is settled, constants apart, and the draft is a chart
exactly if the query leaves no constant open. -/
theorem generate_resolves (valid : ctx.config.validate = .ok ())
    (h : (generate q ctx).outcome = .ok drafts) :
    ∀ d ∈ drafts, d.query.mark.isOpen = false ∧
      (∀ e ∈ d.active, e.isValue = false → ∀ p, e.isOpen p = false) ∧
      (d.toChart?.isSome = true ↔
        ∀ c v, .value c v ∈ q.encodings → c.isOpen = false ∧ v.isOpen = false) := by
  intro d hd
  obtain ⟨d₀, steps, hb, hsteps, hfound⟩ := onCourse_of_generate valid h
  obtain ⟨f, hf, hfd⟩ := hfound d hd
  have hbuilt := isBuilt_of_build hb
  have hmark : d.query.mark.isOpen = false := hfd.mark ▸ hf.mark_isOpen hsteps
  have closed {e : Encoding} (he : e ∈ d.active) := hf.closed hsteps hfd he
  refine ⟨hmark, fun e he => closed he, ?_⟩
  rw [← hbuilt.constants_closed_iff, toChart?, ChartQuery.toChart?_isSome_iff]
  constructor
  · rintro ⟨-, hcomplete⟩ c v hmem
    have hactive : Encoding.value c v ∈ d.query.active :=
      List.mem_filter.mpr ⟨(hf.constant_iff hbuilt hfd c v).mpr hmem, rfl⟩
    have he := hcomplete _ hactive
    exact ⟨by simpa [Encoding.isOpen] using he.closed .channel, he.known c v rfl⟩
  · refine fun hconstants => ⟨hmark, fun e he => ?_⟩
    cases e with
    | field | autoCount => exact ⟨closed he rfl, fun _ _ heq => Encoding.noConfusion heq⟩
    | value c v =>
      obtain ⟨hc, hv⟩ :=
        hconstants c v ((hf.constant_iff hbuilt hfd c v).mp (List.mem_filter.mp he).1)
      refine ⟨fun p => by simp [Encoding.isOpen, hc], fun c' v' heq => ?_⟩
      obtain ⟨-, rfl⟩ := Encoding.value.inj heq
      exact hv

/-- Numbers that may be binned, with a colour for all of them. -/
def painted (color : Slot Json) : ChartQuery where
  mark := .wild (.ofCandidates [.tick, .point])
  encodings := [
    .field {
      channel := .fixed .x
      field := .fixed "Q"
      type := .fixed .quantitative
      bin := some (.wild .short { maxbins := some (.wild (.ofCandidates [5, 10])) }) },
    .value (.fixed .color) color]

/-- All points and ticks that are found with a colour that is known are charts. -/
theorem generate_resolves_painted :
    ∃ drafts, (generate (painted (.fixed (.text "red"))) ⟨oneField, {}⟩).outcome = .ok drafts ∧
      drafts.length = 4 ∧ ∀ d ∈ drafts, d.toChart?.isSome = true := by
  have hfour : ((generate (painted (.fixed (.text "red"))) ⟨oneField, {}⟩).outcome.map
      List.length).toOption = some 4 := by decide
  obtain ⟨drafts, hdrafts, hlength⟩ := exists_of_map_toOption hfour
  refine ⟨drafts, hdrafts, hlength, fun d hd => ?_⟩
  refine (generate_resolves (by decide) hdrafts d hd).2.2.mpr fun c v hmem => ?_
  simp only [painted, List.mem_cons, reduceCtorEq, false_or, List.not_mem_nil, or_false,
    Encoding.value.injEq] at hmem
  rw [hmem.1, hmem.2]
  exact ⟨rfl, rfl⟩

/-- A colour that the query leaves open is tried by no search, so that what is found is no chart. -/
theorem generate_leaves_constant :
    ¬ ∀ (q : ChartQuery) (ctx : Context) (drafts : List Draft), ctx.config.validate = .ok () →
      (generate q ctx).outcome = .ok drafts → ∀ d ∈ drafts, d.toChart?.isSome = true := by
  intro h
  have hopen : ((generate (painted (.wild .short)) ⟨oneField, {}⟩).outcome.map
      fun drafts => drafts.any fun d => d.toChart?.isNone).toOption = some true := by decide
  cases hout : (generate (painted (.wild .short)) ⟨oneField, {}⟩).outcome with
  | error e => rw [hout] at hopen; exact absurd hopen nofun
  | ok drafts =>
    rw [hout] at hopen
    obtain ⟨d, hd, hnone⟩ := List.any_eq_true.mp (Option.some.inj hopen)
    have hchart := h _ ⟨oneField, {}⟩ drafts (by decide) hout d hd
    rw [Option.isNone_iff_eq_none.mp hnone] at hchart
    exact absurd hchart (by decide)

end Draft
end ChartAdvisor
