import ChartAdvisor.Proofs.Search.Replaying

/-!
# No draft is found twice

Each value that is tried at a spot goes on record, and the rest of the walk leaves it there, so that
the branches of a walk can be told apart by their records. A property whose turn comes again has
nothing left to try. The mark is an exception: where the order names it twice and it is open, all
marks are tried again on every draft, and every draft is found once for each of them.
-/
namespace ChartAdvisor

/-- No value is listed twice for an open slot. -/
structure SlotIndex.Distinct (slots : SlotIndex) : Prop where
  mark : ∀ k ∈ slots.mark, k.values.Nodup
  encodings : ∀ opened ∈ slots.encodings, ∀ x ∈ opened, x.2.values.Nodup

namespace Draft

variable {ctx : Context} {d : Draft} {s : Spot} {p : Property} {spots rest : List Spot}

theorem nodup_of_choicesAt? (h : d.slots.Distinct) {choices : List Choice}
    (offered : d.choicesAt? s = some choices) : choices.Nodup := by
  obtain rfl := eq_listed_of_choicesAt? offered
  cases s with
  | mark =>
    rw [listed]
    cases hk : d.slots.mark with
    | none => exact .nil
    | some k => exact (h.mark k hk).map fun _ _ heq => Choice.mark.inj heq
  | slot i p =>
    rw [listed]
    cases hk : d.slots.slot? i p with
    | none => exact .nil
    | some k =>
      obtain ⟨hi, hmem⟩ := mem_names hk
      exact h.encodings _ (List.getElem_mem hi) _ hmem

/-! ## The record along a walk -/

/-- A walk keeps the open slots. -/
theorem walkSpots_slots (ctx : Context) (hd : d.Coherent) :
    Leaves (fun f => f.Coherent ∧ f.slots = d.slots) (walkSpots ctx spots d) :=
  walkSpots_keeps ctx (fun _ _ _ _ _ hap he => hap.slots.symm.trans he) hd rfl

/-- A draft with the same open slots and the same on record under a name. -/
structure SameUnder (d : Draft) (n : String) (f : Draft) : Prop where
  coherent : f.Coherent
  slots : f.slots = d.slots
  lookup : f.assignment.lookup n = d.assignment.lookup n

theorem SameUnder.trans {e f : Draft} {n : String} (h : d.SameUnder n e) (h' : e.SameUnder n f) :
    d.SameUnder n f :=
  ⟨h'.coherent, h'.slots.trans h.slots, h'.lookup.trans h.lookup⟩

/-- A walk leaves alone what is on record under a name that belongs to none of its spots. -/
theorem walkSpots_sameUnder (ctx : Context) (hd : d.Coherent) {n : String}
    (hn : ∀ s ∈ spots, n ∉ d.nameAt? s) : Leaves (d.SameUnder n) (walkSpots ctx spots d) := by
  refine walkSpots_leaves ctx (fun s hs _ c e he taken => ?_) (fun s hs _ e he taken => ?_)
    ⟨hd, rfl, rfl⟩
  · have hne : n ∉ e.nameAt? s := by
      rw [nameAt?_congr he.slots]
      exact hn s hs
    exact he.trans ⟨he.coherent.chooseAt s c, (alikeApart_chooseAt he.coherent taken).slots.symm,
      lookup_chooseAt he.coherent taken hne⟩
  · have hne : n ∉ e.nameAt? s := by
      rw [nameAt?_congr he.slots]
      exact hn s hs
    exact he.trans ⟨he.coherent.reopenAt s, (alikeApart_reopenAt he.coherent taken).slots.symm,
      lookup_reopenAt he.coherent taken hne⟩

/-- A value that is tried is on record in whatever comes of it. -/
theorem lookup_of_found_tryInPlace (hd : d.Coherent) (hs : s ∉ rest) {c : Choice} {n : String}
    (hn : n ∈ d.nameAt? s) (ok : (tryInPlace ctx s (walkSpots ctx rest) c d).failure = none) {f : Draft}
    (hf : f ∈ (tryInPlace ctx s (walkSpots ctx rest) c d).found) : f.assignment.lookup n = some c := by
  obtain ⟨taken, ⟨-, hnil, -⟩ | ⟨-, heq⟩⟩ := tryInPlace_of_failure_eq_none ok
  · rw [hnil] at hf
    contradiction
  · rw [heq] at ok hf
    have hchosen := hd.chooseAt s c
    have hname : n ∈ (d.chooseAt s c).1.nameAt? s := (alikeApart_chooseAt hd taken).nameAt?_eq s ▸ hn
    have hkept := ((walkSpots_sameUnder ctx hchosen (hchosen.name_ne hs hname) ok).2 f hf).lookup
    exact hkept.trans (lookup_chooseAt_self hd taken hn)

/-! ## The branches of a walk -/

/-- The drafts of a list have different records. -/
def Distinct (drafts : List Draft) : Prop := drafts.Pairwise fun d e => d.assignment ≠ e.assignment

/-- What comes of different values is told apart by the values. -/
theorem distinct_tryAll {P : Draft → Prop} {F : Choice → Draft → Prop}
    {attempt : Choice → Draft → Walk}
    (step : ∀ c e, P e → (attempt c e).failure = none →
      P (attempt c e).draft ∧ Distinct (attempt c e).found ∧ ∀ f ∈ (attempt c e).found, F c f)
    (apart : ∀ c c' f g, c ≠ c' → F c f → F c' g → f.assignment ≠ g.assignment)
    {choices : List Choice} (nodup : choices.Nodup) {e : Draft} (he : P e)
    (ok : (Walk.tryAll choices attempt e).failure = none) :
    Distinct (Walk.tryAll choices attempt e).found ∧
      ∀ f ∈ (Walk.tryAll choices attempt e).found, ∃ c ∈ choices, F c f := by
  induction choices generalizing e with
  | nil => exact ⟨.nil, fun f hf => absurd hf List.not_mem_nil⟩
  | cons c rest ih =>
    obtain ⟨hc, hrest⟩ := List.nodup_cons.mp nodup
    rw [Walk.tryAll_cons] at ok ⊢
    obtain ⟨hfirst, hmore, hfound, -⟩ := Walk.andThen_of_failure_eq_none ok
    obtain ⟨hnext, hdistinct, hvalue⟩ := step c e he hfirst
    obtain ⟨hdistinct', hvalues⟩ := ih hrest hnext hmore
    rw [hfound]
    refine ⟨List.pairwise_append.mpr ⟨hdistinct, hdistinct', fun f hf g hg => ?_⟩, fun f hf => ?_⟩
    · obtain ⟨c', hc', hg⟩ := hvalues g hg
      exact apart c c' f g (fun heq => hc (heq ▸ hc')) (hvalue f hf) hg
    · rcases List.mem_append.mp hf with hf | hf
      · exact ⟨c, List.mem_cons_self .., hvalue f hf⟩
      · obtain ⟨c', hc', hf⟩ := hvalues f hf
        exact ⟨c', List.mem_cons_of_mem _ hc', hf⟩

/-- What a walk finds has different records. -/
theorem distinct_walkSpots (ctx : Context) (hosts : spots.Pairwise fun s t => hostOf s ≠ hostOf t)
    (hd : d.Coherent) (lists : d.slots.Distinct) (ok : (walkSpots ctx spots d).failure = none) :
    Distinct (walkSpots ctx spots d).found := by
  induction spots generalizing d with
  | nil => exact List.pairwise_singleton _ _
  | cons s rest ih =>
    obtain ⟨hs, hrest⟩ := List.pairwise_cons.mp hosts
    cases offered : d.choicesAt? s with
    | none =>
      rw [walkSpots_of_passed offered] at ok ⊢
      exact ih hrest hd lists ok
    | some choices =>
      obtain ⟨tried, rfl, htried, -, hfound, -⟩ := walkSpots_of_offered offered ok
      rw [hfound]
      have hnot : s ∉ rest := fun hmem => hs s hmem rfl
      have step (c : Choice) (e : Draft) (he : e.Coherent ∧ e.slots = d.slots)
          (hn : (tryInPlace ctx s (walkSpots ctx rest) c e).failure = none) :
          (((tryInPlace ctx s (walkSpots ctx rest) c e).draft.Coherent ∧
              (tryInPlace ctx s (walkSpots ctx rest) c e).draft.slots = d.slots) ∧
            Distinct (tryInPlace ctx s (walkSpots ctx rest) c e).found ∧
            ∀ f ∈ (tryInPlace ctx s (walkSpots ctx rest) c e).found,
              ∃ n ∈ d.nameAt? s, f.assignment.lookup n = some c) := by
        obtain ⟨taken, hcases⟩ := tryInPlace_of_failure_eq_none hn
        have he' := he.1.chooseAt s c
        have hslots := (alikeApart_chooseAt he.1 taken).slots.symm.trans he.2
        obtain ⟨n, hname, -⟩ := assignment_chooseAt he.1 taken
        refine and_assoc.mp ⟨?_, fun f hf => ⟨n, nameAt?_congr he.2 s ▸ hname,
          lookup_of_found_tryInPlace he.1 hnot hname hn hf⟩⟩
        rcases hcases with ⟨-, hnil, hdraft⟩ | ⟨-, heq⟩
        · rw [hnil, hdraft]
          exact ⟨⟨he', hslots⟩, .nil⟩
        · rw [heq] at hn ⊢
          obtain ⟨⟨hcoherent, hkept⟩, -⟩ := walkSpots_slots ctx he' hn
          exact ⟨⟨hcoherent, hkept.trans hslots⟩, ih hrest he' (by rw [hslots]; exact lists) hn⟩
      refine (distinct_tryAll step ?_ (nodup_of_choicesAt? lists offered) ⟨hd, rfl⟩ htried).1
      rintro c c' f g hne ⟨n, hn, hf⟩ ⟨n', hn', hg⟩ heq
      obtain rfl := Option.mem_unique hn hn'
      rw [heq, hg] at hf
      exact hne (Option.some.inj hf).symm

/-! ## A search -/

/-- A draft on the course of a search, with nothing on record but what was chosen for the properties
so far. -/
structure Recorded (d₀ : Draft) (seen : List Property) (d : Draft) : Prop where
  course : OnCourse d₀ seen d
  unseen : ∀ s, s.property ∉ seen → ∀ n ∈ d.nameAt? s, d.assignment.lookup n = none

variable {d₀ : Draft} {seen : List Property}

theorem Recorded.coherent (h : Recorded d₀ seen d) : d.Coherent := h.course.comes.sourced.coherent

theorem Recorded.walk (h : Recorded d₀ seen d)
    (parents : ∀ q ∈ seen, q.parent? = some p → p ∈ seen) (ok : (d.walk ctx p).failure = none)
    {f : Draft} (hf : f ∈ (d.walk ctx p).found) : Recorded d₀ (seen ++ [p]) f where
  course := h.course.walk parents ok hf
  unseen s hs n hn := by
    rw [walk_eq_walkSpots] at ok hf
    obtain ⟨hseen, hp⟩ := not_or.mp (mt List.mem_append.mpr hs)
    have hslots := ((walkSpots_slots ctx h.coherent ok).2 f hf).2
    rw [nameAt?_congr hslots] at hn
    have hne : ∀ t ∈ d.spots p, n ∉ d.nameAt? t := by
      intro t ht hnt
      obtain rfl := h.coherent.eq_of_nameAt? hn hnt
      exact hp (List.mem_singleton.mpr (property_of_mem_spots ht))
    rw [((walkSpots_sameUnder ctx h.coherent hne ok).2 f hf).lookup]
    exact h.unseen s hseen n hn

/-- What a walk finds is told apart from what it finds elsewhere by what told the drafts apart. -/
theorem Recorded.apart {e f g : Draft} (hd : Recorded d₀ seen d) (he : Recorded d₀ seen e)
    (hp : p ∉ seen) (hne : d.assignment ≠ e.assignment) (okd : (d.walk ctx p).failure = none)
    (oke : (e.walk ctx p).failure = none) (hf : f ∈ (d.walk ctx p).found)
    (hg : g ∈ (e.walk ctx p).found) : f.assignment ≠ g.assignment := by
  have hslots : e.slots = d.slots := he.course.comes.slots.trans hd.course.comes.slots.symm
  obtain ⟨n, hn⟩ : ∃ n, d.assignment.lookup n ≠ e.assignment.lookup n := by
    refine Classical.not_forall.mp fun hall => hne ?_
    exact hd.coherent.recorded.eq_of_lookup_eq he.coherent.recorded hall
  -- nothing is on record yet under a name of a spot of the property
  have hspots : ∀ s ∈ d.spots p, n ∉ d.nameAt? s := by
    intro s hs hmem
    have hunseen : s.property ∉ seen := by rwa [property_of_mem_spots hs]
    refine hn ?_
    rw [hd.unseen s hunseen n hmem, he.unseen s hunseen n (by rwa [nameAt?_congr hslots])]
  have hspots' : ∀ s ∈ e.spots p, n ∉ e.nameAt? s := by
    intro s hs
    rw [nameAt?_congr hslots]
    exact hspots s (by rwa [← spots_congr hslots])
  rw [walk_eq_walkSpots] at okd oke hf hg
  intro heq
  refine hn ?_
  rw [← ((walkSpots_sameUnder ctx hd.coherent hspots okd).2 f hf).lookup, heq,
    ((walkSpots_sameUnder ctx he.coherent hspots' oke).2 g hg).lookup]

/-- The mark has one turn, or there is no need of one. -/
def MarkOnce (d₀ : Draft) (steps : List Property) : Prop :=
  steps.count .mark ≤ 1 ∨ d₀.slots.mark = none

/-- A property whose turn comes again has nothing left to try. -/
theorem Recorded.walk_again (h : Recorded d₀ seen d) (hp : p ∈ seen)
    (once : MarkOnce d₀ (seen ++ [p])) : d.walk ctx p = .keep d := by
  by_cases hmark : p = .mark
  · subst hmark
    have hnone : d.slots.mark = none := by
      rw [h.course.comes.slots]
      refine once.resolve_left fun hcount => ?_
      have hpos := List.count_pos_iff.mpr hp
      rw [List.count_append, List.count_singleton_self] at hcount
      omega
    simp [Draft.walk, walkMark, hnone]
  · exact walk_of_settled (h.course.settled p hp) hmark

theorem distinct_resolve {drafts found : List Draft} (lists : d₀.slots.Distinct)
    (once : MarkOnce d₀ (seen ++ [p])) (h : ∀ d ∈ drafts, Recorded d₀ seen d)
    (hdistinct : Distinct drafts) (ok : (resolve ctx p drafts).outcome = .ok found) :
    Distinct found := by
  obtain ⟨hall, rfl⟩ := resolve_eq_ok_iff.mp ok
  by_cases hp : p ∈ seen
  · have hagain : ∀ d ∈ drafts, (d.walk ctx p).found = [d] := fun d hd => by
      rw [(h d hd).walk_again hp once]
      rfl
    rwa [List.flatMap_congr hagain, List.flatMap_singleton']
  · refine List.pairwise_flatMap.mpr ⟨fun d hd => ?_, ?_⟩
    · have hlists : d.slots.Distinct := by
        rw [(h d hd).course.comes.slots]
        exact lists
      have hn := hall d hd
      rw [walk_eq_walkSpots] at hn ⊢
      exact distinct_walkSpots ctx (hosts_spots d p) (h d hd).coherent hlists hn
    · refine hdistinct.imp_of_mem fun hd he hne f hf g hg => ?_
      exact (h _ hd).apart (h _ he) hp hne (hall _ hd) (hall _ he) hf hg

theorem distinct_resolveAll {steps : List Property} {drafts found : List Draft}
    (lists : d₀.slots.Distinct) (once : MarkOnce d₀ (seen ++ steps))
    (order : PartsAfter (seen ++ steps)) (h : ∀ d ∈ drafts, Recorded d₀ seen d)
    (hdistinct : Distinct drafts) (ok : (resolveAll ctx steps drafts).outcome = .ok found) :
    Distinct found := by
  induction steps generalizing seen drafts with
  | nil =>
    obtain rfl := Except.ok.inj ok
    exact hdistinct
  | cons p rest ih =>
    obtain ⟨next, hnext, ok⟩ := resolveAll_cons_eq_ok_iff.mp ok
    have hsplit : seen ++ p :: rest = (seen ++ [p]) ++ rest := by simp
    have once' : MarkOnce d₀ (seen ++ [p]) := by
      refine once.imp_left (Nat.le_trans ?_)
      rw [hsplit]
      exact (List.sublist_append_left ..).count_le _
    rw [hsplit] at once
    refine ih once (hsplit ▸ order) (fun f hf => ?_) (distinct_resolve lists once' h hdistinct hnext) ok
    obtain ⟨hall, hmem⟩ := resolve_eq_ok hnext
    obtain ⟨d, hd, hfd⟩ := (hmem f).mp hf
    exact (h d hd).walk (order.mem_of_parent? rfl) (hall d hd) hfd

/-- Styling leaves the record alone. -/
theorem stylable_assignment (schema : Schema) (record : List (String × Choice)) :
    Stylable schema (fun d => d.assignment = record) fun _ => True where
  put h _ _ _ := h
  counts _ _ _ := trivial

theorem map_assignment_finish {found drafts : List Draft} (h : finish ctx found = .ok drafts) :
    drafts.map Draft.assignment = found.map Draft.assignment := by
  unfold finish stylizeAll at h
  split at h
  · refine (List.forall₂_eq_eq_eq (α := List (String × Choice))) ▸ ?_
    rw [List.forall₂_map_left_iff, List.forall₂_map_right_iff]
    refine (forall₂_of_mapM_eq_ok (mapError_eq_ok.mp h)).flip.imp fun d f hfd => ?_
    exact ((stylable_assignment ctx.schema _).stylize rfl ctx.config).kept d hfd
  · rw [Except.ok.inj h]

variable {q : ChartQuery} {drafts : List Draft}

theorem IsBuilt.recorded (hb : IsBuilt q ctx.schema ctx.config d₀) : Recorded d₀ [] d₀ where
  course := ⟨⟨hb.sourced, rfl, rfl⟩, fun _ _ he _ => he, fun _ hp => absurd hp List.not_mem_nil⟩
  unseen s _ n _ := by
    rw [hb.assignment_eq]
    rfl

/-- A mark that is fixed is not open in the query as it is built. -/
theorem IsBuilt.mark_eq_none (hb : IsBuilt q ctx.schema ctx.config d₀) (h : q.mark.isOpen = false) :
    d₀.slots.mark = none := by
  rw [hb.slots_eq]
  cases hm : q.mark with
  | fixed m => rfl
  | wild w => rw [hm] at h; contradiction

/-- No two drafts that are found have the same choices on record, if no candidates are listed twice
and the mark is fixed or named once in the order of resolution. -/
theorem generate_distinct (valid : ctx.config.validate = .ok ())
    (lists : ∀ d₀, build q ctx.schema ctx.config = .ok d₀ → d₀.slots.Distinct)
    (once : ctx.config.propertyPrecedence.count .mark ≤ 1 ∨ q.mark.isOpen = false)
    (h : (generate q ctx).outcome = .ok drafts) : (drafts.map Draft.assignment).Nodup := by
  obtain ⟨d₀, steps, found, hb, hsteps, hfound, hdrafts⟩ := generate_eq_ok_iff.mp h
  have hbuilt := isBuilt_of_build hb
  have once : MarkOnce d₀ ([] ++ steps) := by
    refine once.imp (Nat.le_trans ?_) hbuilt.mark_eq_none
    rw [List.nil_append, steps_eq_ok hsteps]
    exact List.filter_sublist.count_le _
  have hstart : ∀ d ∈ [d₀], Recorded d₀ [] d := by
    intro d hd
    obtain rfl := List.mem_singleton.mp hd
    exact hbuilt.recorded
  have hdistinct := distinct_resolveAll (lists d₀ hb) once (partsAfter_of_validate valid hsteps)
    hstart (List.pairwise_singleton _ _) hfound
  rw [map_assignment_finish hdrafts]
  exact List.pairwise_map.mpr hdistinct

/-- Numbers as points or ticks. -/
def pointsOrTicks : ChartQuery where
  mark := .wild (.ofCandidates [.point, .tick])
  encodings := [.field { channel := .fixed .x, field := .fixed "Q", type := .fixed .quantitative }]

theorem distinct_pointsOrTicks {config : Config} {d₀ : Draft}
    (plain : config.autoAddCount = false) (h : build pointsOrTicks oneField config = .ok d₀) :
    d₀.slots.Distinct := by
  have hslots : d₀.slots = ⟨some ⟨"m", [.point, .tick]⟩, [[]]⟩ := by
    rw [(isBuilt_of_build h).slots_eq, fillEncodings, plain]
    rfl
  rw [hslots]
  exact ⟨by decide, by decide⟩

/-- Points and ticks are found, and told apart by their mark. -/
theorem generate_distinct_pointsOrTicks :
    ∃ drafts, (generate pointsOrTicks ⟨oneField, {}⟩).outcome = .ok drafts ∧ drafts.length = 2 ∧
      (drafts.map Draft.assignment).Nodup := by
  have htwo : ((generate pointsOrTicks ⟨oneField, {}⟩).outcome.map List.length).toOption = some 2 := by
    decide
  obtain ⟨drafts, hdrafts, hlength⟩ := exists_of_map_toOption htwo
  exact ⟨drafts, hdrafts, hlength, generate_distinct (by decide)
    (fun d₀ hb => distinct_pointsOrTicks rfl hb) (.inl (by decide)) hdrafts⟩

/-- A configuration that names the mark twice is accepted, and finds every draft once for each of the
marks. -/
theorem generate_repeats_mark :
    ¬ ∀ (q : ChartQuery) (ctx : Context) (drafts : List Draft), ctx.config.validate = .ok () →
      (∀ d₀, build q ctx.schema ctx.config = .ok d₀ → d₀.slots.Distinct) →
      (generate q ctx).outcome = .ok drafts → (drafts.map Draft.assignment).Nodup := by
  intro h
  let config : Config := { propertyPrecedence := Property.precedence ++ [.mark] }
  have hrepeated : ((generate pointsOrTicks ⟨oneField, config⟩).outcome.map
      fun drafts => decide (drafts.map Draft.assignment).Nodup).toOption = some false := by
    decide
  obtain ⟨drafts, hdrafts, hnot⟩ := exists_of_map_toOption hrepeated
  have hnodup := h _ ⟨oneField, config⟩ drafts (by decide)
    (fun d₀ hb => distinct_pointsOrTicks rfl hb) hdrafts
  exact of_decide_eq_false hnot hnodup

end Draft
end ChartAdvisor
