import ChartAdvisor.Proofs.Rules.ChartForesight
import ChartAdvisor.Proofs.Search.Course
import ChartAdvisor.Proofs.Search.InPlace

/-!
# Completeness of pruning

No branch is cut that leads to a chart that keeps all active rules. A completion settles every open
slot with a listed value; all that the rules see of it on the way is a draft that heads for it, and
no rule refuses such a draft.
-/
namespace ChartAdvisor

namespace Property

theorem not_mem_before_self (p : Property) : p ∉ p.before := by
  cases p with
  | scaleOf part => cases part <;> decide
  | _ => decide

/-- Of two properties the one that is resolved first comes before the other one. -/
theorem precedence_before : precedence.Pairwise fun p q => p ∈ q.before ∧ q ∉ p.before := by
  decide

end Property

theorem Encoding.standing_mark_ne (e : Encoding) : e.standing .mark ≠ .undecided := by
  cases e <;> exact nofun

namespace Draft

/-- The spots of all properties in the order in which they are resolved. -/
def allSpots (d : Draft) : List Spot := Property.precedence.flatMap d.spots

/-- Every open slot of a draft is given one of its listed values, whatever the rules say. What lies
in a part that was switched off, the channel of a count of rows that was switched off and that of
a constant are given none. -/
def Completion (d c : Draft) : Prop := Run (fun _ _ => True) d.allSpots d c

/-- Every active rule is kept, those about encodings by every encoding. -/
structure KeepsRules (ctx : Context) (c : Draft) : Prop where
  chart : ∀ r ∈ ChartRule.all, r.isActive ctx.config = true → r.check ctx c = .ok true
  encoding : ∀ i e, c.encoding? i = some e → ∀ r ∈ EncodingRule.all,
    r.isActive ctx.config = true → r.check ctx (c.place i e) = .ok true

/-! ## Runs lead to later drafts -/

variable {Keeps : Spot → Draft → Prop}

/-- Spots that are still to be visited from a draft, each once. -/
structure Due (spots : List Spot) (d : Draft) : Prop where
  coherent : d.Coherent
  asBuilt : d.OpenAsBuilt
  nodup : spots.Nodup
  mark : .mark ∈ spots → d.slots.mark.isSome = true → d.query.mark.isOpen = true

theorem Due.tail {s : Spot} {rest : List Spot} {d : Draft} (h : Due (s :: rest) d) : Due rest d :=
  ⟨h.coherent, h.asBuilt, (List.nodup_cons.mp h.nodup).2, fun hm => h.mark (List.mem_cons_of_mem _ hm)⟩

theorem Due.awaits {s : Spot} {rest : List Spot} {d : Draft} (h : Due (s :: rest) d)
    {choices : List Choice} (offered : d.choicesAt? s = some choices) : d.Awaits s := by
  cases s with
  | mark =>
    obtain ⟨k, hk, -⟩ := Option.map_eq_some_iff.mp offered
    exact h.mark (List.mem_cons_self ..) (Option.isSome_of_mem hk)
  | slot i p =>
    intro e he
    obtain ⟨e', he', hfrozen, hopen⟩ := choicesAt?_slot_isSome_iff.mp (Option.isSome_of_mem offered)
    obtain rfl := Option.some.inj (he.symm.trans he')
    exact ⟨(e.isOpen_iff p).mpr hopen, hfrozen⟩

theorem Due.chooseAt {s : Spot} {rest : List Spot} {d : Draft} (h : Due (s :: rest) d) {c : Choice}
    (taken : (d.chooseAt s c).2 = none) : Due rest (d.chooseAt s c).1 := by
  have hap := alikeApart_chooseAt h.coherent taken
  obtain ⟨hs, hrest⟩ := List.nodup_cons.mp h.nodup
  refine ⟨h.coherent.chooseAt s c, h.asBuilt.chooseAt h.coherent taken, hrest, fun hm hslot => ?_⟩
  rw [← hap.slots] at hslot
  rw [← hap.mark fun e => hs (e ▸ hm)]
  exact h.mark (List.mem_cons_of_mem _ hm) hslot

/-- What a run still has to visit after its first part. -/
theorem Run.due {xs ys : List Spot} {d d' : Draft} (h : Run Keeps xs d d') (hd : Due (xs ++ ys) d) :
    Due ys d' := by
  induction h with
  | done => exact hd
  | skip _ _ ih => exact ih hd.tail
  | choose _ _ taken _ _ ih => exact ih (hd.chooseAt taken)

theorem Run.later {spots : List Spot} {d d' : Draft} (h : Run Keeps spots d d') (hd : Due spots d) :
    d.Later d' := by
  induction h with
  | done => exact .refl _
  | skip _ _ ih => exact ih hd.tail
  | choose offered _ taken _ _ ih =>
    exact (later_chooseAt hd.coherent (hd.awaits offered) taken).trans (ih (hd.chooseAt taken))

/-- A slot that is to be visited is settled in the end, unless its encoding is frozen. -/
theorem Run.settled {spots : List Spot} {d d' : Draft} (h : Run Keeps spots d d') (hd : Due spots d)
    {i : Nat} {p : Property} (hs : .slot i p ∈ spots) (top : p.parent? = none) {f : Encoding}
    (hf : d'.encoding? i = some f) (hfrozen : f.isFrozen = false) : f.standing p ≠ .undecided := by
  induction h with
  | done => exact absurd hs List.not_mem_nil
  | skip passed onward ih =>
    rcases List.mem_cons.mp hs with rfl | hs
    · obtain ⟨e, he, hef⟩ := (onward.later hd.tail).encoding hf
      have hclosed := choicesAt?_slot_eq_none_iff.mp passed e he (hef.not_frozen hfrozen)
      rwa [hef.settles.eq_of_top hclosed top]
    · exact ih hd.tail hs hf
  | choose offered listed taken kept onward ih =>
    rcases List.mem_cons.mp hs with rfl | hs
    · obtain ⟨e, he, hef⟩ := (onward.later (hd.chooseAt taken)).encoding hf
      have hclosed := standing_chooseAt_ne hd.coherent taken he
      rwa [hef.settles.eq_of_top hclosed top]
    · exact ih (hd.chooseAt taken) hs hf

/-- What a run with some choices leads to, another run leads to with the same choices if it keeps
what they lead to. -/
theorem Run.strengthen {Keeps' : Spot → Draft → Prop} {spots : List Spot} {d d' : Draft}
    (h : Run Keeps spots d d')
    (step : ∀ done s rest e choices c, spots = done ++ s :: rest → Run Keeps done d e →
      e.choicesAt? s = some choices → c ∈ choices → (e.chooseAt s c).2 = none →
      Keeps s (e.chooseAt s c).1 → Run Keeps rest (e.chooseAt s c).1 d' →
      Keeps' s (e.chooseAt s c).1) : Run Keeps' spots d d' := by
  induction h with
  | done d => exact .done d
  | skip passed onward ih =>
    refine .skip passed (ih fun done s rest e choices c hsplit hrun => ?_)
    exact step (_ :: done) s rest e choices c (by rw [hsplit]; rfl) (.skip passed hrun)
  | choose offered listed taken kept onward ih =>
    refine .choose offered listed taken (step [] _ _ _ _ _ rfl (.done _) offered listed taken kept onward)
      (ih fun done s rest e choices c hsplit hrun => ?_)
    exact step (_ :: done) s rest e choices c (by rw [hsplit]; rfl)
      (.choose offered listed taken kept hrun)

/-! ## The order of the spots -/

theorem nodup_spots (d : Draft) {ps : List Property} (h : ps.Nodup) : (ps.flatMap d.spots).Nodup := by
  unfold List.Nodup
  rw [List.pairwise_flatMap]
  refine ⟨fun p _ => (hosts_spots d p).imp fun h e => h (by rw [e]),
    h.imp fun hpq s hs t ht e => ?_⟩
  subst e
  exact hpq ((property_of_mem_spots hs).symm.trans (property_of_mem_spots ht))

theorem nodup_allSpots (d : Draft) : d.allSpots.Nodup :=
  nodup_spots d (Property.precedence_inOrder.imp And.left)

section Split

variable {d : Draft} {done rest : List Spot} {s : Spot}

/-- What comes before a property was visited before its spots. -/
theorem mem_done_of_before (hsplit : d.allSpots = done ++ s :: rest) {t : Spot}
    (ht : t ∈ d.allSpots) (hbefore : t.property ∈ s.property.before) : t ∈ done := by
  have hpairs := pairwise_spots (R := fun p q => q ∉ p.before) Property.not_mem_before_self d
    (Property.precedence_before.imp fun h => h.2)
  rw [show Property.precedence.flatMap d.spots = done ++ s :: rest from hsplit] at hpairs
  rw [hsplit] at ht
  rcases List.mem_append.mp ht with ht | ht
  · exact ht
  · rcases List.mem_cons.mp ht with rfl | ht
    · exact absurd hbefore (Property.not_mem_before_self _)
    · have hlater := (List.pairwise_cons.mp (List.pairwise_append.mp hpairs).2.1).1 t ht
      exact absurd hbefore hlater

/-- What was visited is no later than what is visited now. -/
theorem property_of_mem_done (hsplit : d.allSpots = done ++ s :: rest) {t : Spot}
    (ht : t ∈ done ++ [s]) : t.property ∈ s.property :: s.property.before := by
  have hpairs := pairwise_spots (R := fun p q => p ∈ q :: q.before) (fun p => List.mem_cons_self ..) d
    (Property.precedence_before.imp fun h => List.mem_cons_of_mem _ h.1)
  rw [show Property.precedence.flatMap d.spots = done ++ s :: rest from hsplit] at hpairs
  rcases List.mem_append.mp ht with ht | ht
  · exact (List.pairwise_append.mp hpairs).2.2 t ht s (List.mem_cons_self ..)
  · rw [List.mem_singleton.mp ht]
    exact List.mem_cons_self ..

end Split

theorem Due.sublist {xs ys : List Spot} {d : Draft} (h : Due ys d) (hs : xs.Sublist ys) : Due xs d :=
  ⟨h.coherent, h.asBuilt, h.nodup.sublist hs, fun hm => h.mark (hs.subset hm)⟩

theorem IsBuilt.due {q : ChartQuery} {schema : Schema} {config : Config} {d : Draft}
    (h : IsBuilt q schema config d) : Due d.allSpots d where
  coherent := h.coherent
  asBuilt i e o he ho p hopen := by
    rw [← h.query_eq] at ho
    obtain rfl : e = o := Option.some.inj (he.symm.trans ho)
    exact hopen
  nodup := nodup_allSpots d
  mark _ hslot := by
    obtain ⟨k, hk⟩ := Option.isSome_iff_exists.mp hslot
    rw [h.query_eq, h.coherent.origin_mark_eq hk]
    rfl

/-- A property is resolved once its slots have been visited. -/
theorem Run.resolved {done : List Spot} {d d' : Draft} (h : Run Keeps done d d') (hd : Due done d)
    {p : Property} (top : p.parent? = none)
    (visited : p ≠ .mark → ∀ i ∈ d.slots.indices p, .slot i p ∈ done) : d'.Resolved p := by
  intro e he hfrozen hopen
  have hd' : Due [] d' := h.due (by rwa [List.append_nil])
  obtain ⟨i, hi⟩ := List.mem_iff_getElem?.mp he
  obtain ⟨o, ho⟩ := hd'.coherent.exists_origin hi
  have hmark : p ≠ .mark := by
    rintro rfl
    exact e.standing_mark_ne hopen
  have hlisted := hd'.coherent.mem_indices ho
    (hd'.asBuilt i e o hi ho p ((e.isOpen_iff p).mpr hopen))
  rw [(h.frame hd.coherent).2.1] at hlisted
  exact h.settled hd (visited hmark i hlisted) top hi hfrozen hopen

theorem mem_allSpots {d : Draft} {p : Property} (hp : p ∈ Property.precedence) (hm : p ≠ .mark)
    {i : Nat} (hi : i ∈ d.slots.indices p) : .slot i p ∈ d.allSpots := by
  refine List.mem_flatMap.mpr ⟨p, hp, ?_⟩
  rw [mem_spots_iff, if_neg hm]
  exact ⟨i, hi, rfl⟩

/-! ## Heading for a completion -/

/-- A query that asks for counts has one that is open. -/
theorem IsBuilt.countsOpen {q : ChartQuery} {schema : Schema} {config : Config} {d : Draft}
    (h : IsBuilt q schema config d) (hcount : config.autoAddCount = true) : d.countsOpen = true := by
  have hmem : (openCount config q.encodings.length).1 ∈ d.query.encodings := by
    rw [h.query_eq, h.origin_eq]
    simp [fillEncodings, hcount]
  exact countsOpen_of_isOpen h.coherent h.due.asBuilt hmem rfl

/-- Counts stay open while other properties are chosen. -/
theorem Run.countsOpen {spots : List Spot} {d d' : Draft} (h : Run Keeps spots d d')
    (hd : d.Coherent) (hs : ∀ s ∈ spots, s.property ≠ .autoCount) (ho : d.countsOpen = true) :
    d'.countsOpen = true := by
  refine (h.preserves (P := fun e => e.Coherent ∧ e.countsOpen = true) ?_ ⟨hd, ho⟩).2
  intro s hm c e ⟨he, hopen⟩ _ taken
  have hquiet : s.property.QuietFor [.autoCount] :=
    ⟨fun hp => hs s hm (List.mem_singleton.mp hp), fun p hp => by
      rw [List.mem_singleton.mp hp]
      exact nofun⟩
  exact ⟨he.chooseAt s c, ((agree_chooseAt he taken hquiet).countsOpen (by decide)).symm.trans hopen⟩

section Heading

variable {q : ChartQuery} {ctx : Context} {d₀ d c : Draft} {done rest : List Spot} {s : Spot}

/-- After a choice on the way to a completion the draft heads for the completion. -/
theorem headsFor_of_run (built : IsBuilt q ctx.schema ctx.config d₀)
    (hsplit : d₀.allSpots = done ++ s :: rest) (before : Run Keeps (done ++ [s]) d₀ d)
    (after : Run Keeps rest d c) (valid : c.KeepsRules ctx) : d.HeadsFor ctx s.property c where
  coherent := (before.frame built.coherent).1
  end_coherent := (after.frame (before.frame built.coherent).1).1
  asBuilt := by
    have hdue : Due rest d := before.due (by rw [List.append_assoc]; exact hsplit ▸ built.due)
    exact hdue.asBuilt
  later := after.later (before.due (by rw [List.append_assoc]; exact hsplit ▸ built.due))
  resolved p hp top := by
    have hdue : Due (done ++ [s]) d₀ := built.due.sublist (by rw [hsplit]; simp)
    refine before.resolved hdue top fun hm i hi => List.mem_append_left _ ?_
    exact mem_done_of_before hsplit (mem_allSpots ((List.takeWhile_prefix _).subset hp) hm hi) hp
  counting hcount hpending := by
    refine before.countsOpen built.coherent (fun t ht e => hpending ?_) (built.countsOpen hcount)
    rw [← e]
    exact property_of_mem_done hsplit ht
  valid := valid.chart

/-- All open slots of a completion are settled, those of frozen encodings apart. -/
theorem Completion.resolved (h : d₀.Completion c) (hd : Due d₀.allSpots d₀) {p : Property}
    (hp : p ∈ Property.precedence) (top : p.parent? = none) : c.Resolved p :=
  Run.resolved h hd top fun hm _ hi => mem_allSpots hp hm hi

/-- Nothing is open in a built draft that was not open in the query. -/
theorem IsBuilt.isOpen_origin (built : IsBuilt q ctx.schema ctx.config d₀) {p : Property}
    (hp : p ≠ .channel ∧ p ≠ .autoCount) (closed : ∀ e ∈ q.encodings, e.isOpen p = false) :
    ∀ o ∈ d₀.origin.encodings, o.isOpen p = false := by
  intro o ho
  rw [built.origin_eq] at ho
  obtain ⟨filled, hm, rfl⟩ := List.mem_map.mp ho
  rcases mem_fillEncodings hm with ⟨e, he, index, rfl⟩ | rfl
  · rw [Encoding.isOpen_fill]
    exact closed e he
  · simp [openCount, Encoding.isOpen, hp]

/-- So does every encoding of the draft. -/
theorem encoding_headsFor (built : IsBuilt q ctx.schema ctx.config d₀)
    (bins : ∀ e ∈ q.encodings, e.isOpen .maxBins = false)
    (ranges : ∀ e ∈ q.encodings, e.isOpen (.scaleOf .range) = false)
    (before : Run Keeps done d₀ d) (heading : d.HeadsFor ctx s.property c)
    (completion : d₀.Completion c) (valid : c.KeepsRules ctx) {i : Nat} {e : Encoding}
    (he : d.encoding? i = some e) : ∃ f, e.HeadsFor ctx (d.slots.ofEncoding i) f := by
  obtain ⟨f, hf, hef⟩ := heading.later.next_encoding he
  have horigin := (before.frame built.coherent).2.2
  refine ⟨f, hef, fun p hp hfrozen => ?_, ?_, ?_, fun r hr active => ?_⟩
  · have htop : ∀ p ∈ Property.encodingTop, p ∈ Property.precedence ∧ p.parent? = none := by decide
    exact completion.resolved built.due (htop p hp).1 (htop p hp).2 f (List.mem_of_getElem? hf) hfrozen
  · refine heading.asBuilt.standing_ne heading.coherent ?_ he
    rw [horigin]
    exact built.isOpen_origin (by decide) bins
  · refine heading.asBuilt.standing_ne heading.coherent ?_ he
    rw [horigin]
    exact built.isOpen_origin (by decide) ranges
  · have hkept := valid.encoding i f hf r hr active
    unfold place at hkept
    rwa [← heading.later.slots] at hkept

/-- Nothing is said on the way to a completion that keeps all active rules. -/
theorem Completion.explored (completion : d₀.Completion c)
    (built : IsBuilt q ctx.schema ctx.config d₀)
    (bins : ∀ e ∈ q.encodings, e.isOpen .maxBins = false)
    (ranges : ∀ e ∈ q.encodings, e.isOpen (.scaleOf .range) = false) (valid : c.KeepsRules ctx) :
    Explored ctx d₀.allSpots d₀ c := by
  refine Run.strengthen completion fun done s rest d choices v hsplit before offered listed taken _ after => ?_
  have hbefore : Run (fun _ _ => True) (done ++ [s]) d₀ (d.chooseAt s v).1 :=
    Run.append_iff.mpr ⟨d, before, .choose offered listed taken trivial (.done _)⟩
  have heading := headsFor_of_run built hsplit hbefore after valid
  have hchart {p : Property} (hp : p = s.property) :
      ∀ r ∈ Rule.about ChartRule.all p ctx.config, r.check ctx (d.chooseAt s v).1 = .ok true := by
    intro r hr
    obtain ⟨hr, hread, active⟩ := Rule.mem_about.mp hr
    exact ChartRule.lenient_of_mem hr ctx s.property _ c (hp ▸ hread) heading active
  cases s with
  | mark => exact refused?_eq_none_iff.mpr (hchart rfl)
  | slot i p =>
    obtain ⟨e, o, -, -, -, -, he'⟩ := encoding_chooseAt (before.frame built.coherent).1 taken
    rw [verdictAt_slot_eq_none_iff he']
    refine ⟨fun r hr => ?_, hchart rfl⟩
    obtain ⟨hr, -, active⟩ := Rule.mem_about.mp hr
    obtain ⟨f, hf⟩ := encoding_headsFor built bins ranges hbefore heading completion valid he'
    exact EncodingRule.lenient_of_mem hr ctx _ _ f hf active

end Heading

/-! ## Completeness -/

/-- Properties that are open nowhere are passed over. -/
theorem run_spots_iff_of_has_eq_false {d₀ d c : Draft} (hslots : d.slots = d₀.slots) {p : Property}
    (hnone : d₀.slots.has p = false) : Run Keeps (d₀.spots p) d c ↔ d = c := by
  unfold SlotIndex.has at hnone
  unfold spots
  split at hnone
  · next hm =>
    have passed : d.choicesAt? .mark = none := by
      rw [show d.choicesAt? .mark = d.slots.mark.map fun c => c.values.map toChoice from rfl, hslots,
        Option.isSome_eq_false_iff.mp hnone |> Option.isNone_iff_eq_none.mp]
      rfl
    rw [if_pos hm]
    constructor
    · intro h
      cases h with
      | skip _ onward => cases onward; rfl
      | choose offered => rw [passed] at offered; contradiction
    · rintro rfl
      exact .skip passed (.done d)
  · next hm =>
    rw [Bool.not_eq_false', List.isEmpty_iff] at hnone
    rw [if_neg hm, hnone]
    exact ⟨fun h => by cases h; rfl, fun e => e ▸ .done d⟩

theorem run_filter_has_iff {ps : List Property} {d₀ d c : Draft} (hd : d.Coherent)
    (hslots : d.slots = d₀.slots) : Run Keeps ((ps.filter d₀.slots.has).flatMap d₀.spots) d c ↔
      Run Keeps (ps.flatMap d₀.spots) d c := by
  induction ps generalizing d with
  | nil => exact .rfl
  | cons p rest ih =>
    have hrest (e : Draft) (h : Run Keeps (d₀.spots p) d e) :
        Run Keeps ((rest.filter d₀.slots.has).flatMap d₀.spots) e c ↔
          Run Keeps (rest.flatMap d₀.spots) e c := by
      obtain ⟨he, heslots, -⟩ := h.frame hd
      exact ih he (heslots.trans hslots)
    rw [List.flatMap_cons, Run.append_iff, List.filter_cons]
    split
    · rw [List.flatMap_cons, Run.append_iff]
      exact exists_congr fun e => and_congr_right (hrest e)
    · next hnone =>
      simp only [run_spots_iff_of_has_eq_false hslots (Bool.not_eq_true _ ▸ hnone), exists_eq_left']
      exact ih hd hslots

/-- Every completion that keeps all active rules is found, unless a number of bins or the range of
a scale is open. -/
theorem generate_complete {q : ChartQuery} {ctx : Context} {drafts : List Draft} {d₀ c : Draft}
    (precedence : ctx.config.propertyPrecedence = Property.precedence)
    (plain : ctx.config.stylize = false) (bins : ∀ e ∈ q.encodings, e.isOpen .maxBins = false)
    (ranges : ∀ e ∈ q.encodings, e.isOpen (.scaleOf .range) = false)
    (h : (generate q ctx).outcome = .ok drafts)
    (built : build q ctx.schema ctx.config = .ok d₀) (completion : d₀.Completion c)
    (valid : c.KeepsRules ctx) : ∃ f ∈ drafts, f.assignment = c.assignment ∧ f.Alike c := by
  obtain ⟨d, hd, hstage⟩ := stage_of_generate precedence plain h
  obtain rfl : d₀ = d := Except.ok.inj (built.symm.trans hd)
  have hbuilt := isBuilt_of_build built
  have hexplored := completion.explored hbuilt bins ranges valid
  obtain ⟨f, hf, htwin⟩ := hstage.complete c ((run_filter_has_iff hbuilt.coherent rfl).mpr hexplored)
  refine ⟨f, hf, ?_, htwin.alike⟩
  exact htwin.coherent.recorded.eq_of_lookup_eq htwin.copy_coherent.recorded htwin.lookup_eq

/-- A field of numbers with an open bin and an open mark. -/
def openBinAndMark : ChartQuery where
  mark := .wild (.ofCandidates [.tick, .point])
  encodings := [.field {
    channel := .fixed .x
    field := .fixed "Q"
    type := .fixed .quantitative
    bin := some (.wild .short {}) }]

/-- Points of a binned field keep all active rules, so that they are found. -/
theorem generate_complete_openBinAndMark :
    ∃ drafts d₀ c, (generate openBinAndMark ⟨oneField, { stylize := false }⟩).outcome = .ok drafts ∧
      build openBinAndMark oneField { stylize := false } = .ok d₀ ∧ d₀.Completion c ∧
      c.KeepsRules ⟨oneField, { stylize := false }⟩ ∧
      ∃ f ∈ drafts, f.assignment = [("b0", .flag true), ("m", .mark .point)] := by
  obtain ⟨drafts, hdrafts⟩ : ∃ drafts,
    (generate openBinAndMark ⟨oneField, { stylize := false }⟩).outcome = .ok drafts := ⟨_, rfl⟩
  obtain ⟨d₀, hd₀⟩ : ∃ d₀, build openBinAndMark oneField { stylize := false } = .ok d₀ := ⟨_, rfl⟩
  obtain ⟨c, hc⟩ : ∃ c, c = ((d₀.chooseAt (.slot 0 .bin) (.flag true)).1.chooseAt .mark (.mark .point)).1 :=
    ⟨_, rfl⟩
  have completion : d₀.Completion c := by
    subst hc
    have spots : d₀.allSpots = [.slot 0 .bin, .mark] := by cases hd₀; rfl
    rw [Completion, spots]
    have flags : d₀.choicesAt? (.slot 0 .bin) = some [.flag true, .flag false] := by
      cases hd₀; rfl
    refine .choose (c := .flag true) flags (by decide) (by cases hd₀; rfl) trivial ?_
    have marks : (d₀.chooseAt (.slot 0 .bin) (.flag true)).1.choicesAt? .mark =
        some [.mark .tick, .mark .point] := by cases hd₀; rfl
    exact .choose (c := .mark .point) marks (by decide) (by cases hd₀; rfl) trivial (.done _)
  have valid : c.KeepsRules ⟨oneField, { stylize := false }⟩ := by
    cases hd₀
    subst hc
    refine ⟨Rule.firstViolated?_filter_eq_none_iff.mp rfl, fun i e he =>
      Rule.firstViolated?_filter_eq_none_iff.mp ?_⟩
    cases i with
    | zero => cases he; rfl
    | succ i => contradiction
  have hrecord : c.assignment = [("b0", .flag true), ("m", .mark .point)] := by
    cases hd₀
    subst hc
    decide
  obtain ⟨f, hf, hassignment, -⟩ := generate_complete rfl rfl
    (fun e he => by obtain rfl := List.mem_singleton.mp he; rfl)
    (fun e he => by obtain rfl := List.mem_singleton.mp he; rfl) hdrafts hd₀ completion valid
  exact ⟨drafts, d₀, c, hdrafts, hd₀, completion, valid, f, hf, hassignment.trans hrecord⟩

end Draft
end ChartAdvisor
