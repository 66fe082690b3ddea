import ChartAdvisor.Proofs.Encoding.Nulls
import ChartAdvisor.Proofs.Search.Exploring

/-!
# Walking in place loses nothing

Where no part of a scale is at `null`, what a walk through a property finds is the same, draft by
draft, as what the search on copies finds, and the walk leaves the draft as it was. Only what was
on record for a slot that is open all the same is forgotten.
-/
namespace ChartAdvisor
namespace Draft

/-- The slot of a property in an encoding is as it was built. -/
def AsBuilt (d : Draft) (i : Nat) (p : Property) : Prop :=
  ∀ e o, d.encoding? i = some e → d.origin.encodings[i]? = some o → e.restore o p = e

/-- No scale has a domain or a range that is fixed at `null`. -/
def NullFree (d : Draft) : Prop := ∀ e ∈ d.query.encodings, e.NullFree

/-- Two drafts that are the same chart so far, with the same choices on record and the same
channels in use. -/
structure Same (d d' : Draft) : Prop where
  query : d.query = d'.query
  assignment : d.assignment = d'.assignment
  channels : ∀ c, d.channelUsed c = d'.channelUsed c

/-- Alike drafts without nulls are the same query. -/
theorem Alike.query_eq {d d' : Draft} (h : d.Alike d') (hd : d.NullFree) (hd' : d'.NullFree) :
    d.query = d'.query := by
  have henc : d.query.encodings = d'.query.encodings := by
    refine List.ext_getElem? fun j => ?_
    have hj : (d.query.encodings[j]?).map Encoding.withoutNulls =
        (d'.query.encodings[j]?).map Encoding.withoutNulls := h.encodings j
    cases he : d.query.encodings[j]? <;> cases he' : d'.query.encodings[j]? <;> rw [he, he'] at hj <;>
      simp only [Option.map_none, Option.map_some, reduceCtorEq, Option.some.injEq] at hj ⊢
    rwa [(Encoding.withoutNulls_eq_self_iff _).mpr (hd _ (List.mem_of_getElem? he)),
      (Encoding.withoutNulls_eq_self_iff _).mpr (hd' _ (List.mem_of_getElem? he'))] at hj
  have hset := congrArg (fun q : ChartQuery => { q with encodings := d.query.encodings }) h.settings
  exact hset.trans (congrArg (fun es => { d'.query with encodings := es }) henc)

/-- The channels in use are those of the query. -/
theorem Coherent.channelUsed_eq {d d' : Draft} (h : d.Coherent) (h' : d'.Coherent)
    (hq : d.query = d'.query) (c : Channel) : d.channelUsed c = d'.channelUsed c := by
  unfold channelUsed
  rw [h.counts, h'.counts, hq]

theorem Twin.same {d d' : Draft} (h : Twin [] d d') (hd : d.NullFree) (hd' : d'.NullFree) :
    d.Same d' := by
  have hq := h.alike.query_eq hd hd'
  refine ⟨hq, ?_, h.coherent.channelUsed_eq h.copy_coherent hq⟩
  refine h.coherent.recorded.eq_of_lookup_eq h.copy_coherent.recorded fun n => ?_
  exact (h.remembered n).resolve_right fun ⟨_, s, hs, _⟩ => List.not_mem_nil hs

/-! ## No nulls on the way -/

/-- A draft on the way of a walk through a property, as far as its nulls are concerned. -/
structure OnTheWay (d : Draft) (p : Property) (d' : Draft) : Prop where
  coherent : d'.Coherent
  origin : d'.origin = d.origin
  nullFree : d'.NullFree
  passed : ∀ s ∈ d.spots p, d.choicesAt? s = none → d'.choicesAt? s = none

theorem NullFree.putEncoding {d : Draft} (h : d.NullFree) (i : Nat) (before : Encoding)
    {after : Encoding} (ha : after.NullFree) : (d.putEncoding i before after).NullFree := by
  intro e he
  rcases List.mem_or_eq_of_mem_set he with he | rfl
  · exact h e he
  · exact ha

/-- The origin of an encoding has no nulls that a choice at a spot could bring back. -/
theorem AsBuilt.nullFree_origin {d : Draft} (hd : d.Coherent) (hn : d.NullFree) {i : Nat}
    (h : d.AsBuilt i .scale) {o : Encoding} (ho : d.origin.encodings[i]? = some o) : o.NullFree := by
  obtain ⟨e, he⟩ := hd.exists_encoding ho
  exact (hn e (List.mem_of_getElem? he)).of_restore (hd.kind_eq he ho) (h e o he ho)

theorem NullFree.chooseAt {d : Draft} (hd : d.Coherent) (h : d.NullFree) {s : Spot}
    (hs : ∀ i, s = .slot i .scale → ∀ o, d.origin.encodings[i]? = some o → o.NullFree) {c : Choice}
    (hn : (d.chooseAt s c).2 = none) : (d.chooseAt s c).1.NullFree := by
  cases s with
  | mark =>
    unfold NullFree
    rw [encodings_chooseAt_mark]
    exact h
  | slot i p =>
    obtain ⟨k, e, o, after, hk, he, ho, hc, ha⟩ := assign_eq_none hd hn
    rw [chooseAt_slot, ha]
    refine NullFree.putEncoding h i e ?_
    have hfree := (h e (List.mem_of_getElem? he)).choose (p := p) (hd.kind_eq he ho)
      (fun hp => hs i (by rw [hp]) o ho) (hd.isOpen hk ho) c
    rwa [hc] at hfree

theorem NullFree.reopenAt {d : Draft} (hd : d.Coherent) (h : d.NullFree) {s : Spot}
    (hs : ∀ i, s = .slot i .scale → ∀ o, d.origin.encodings[i]? = some o → o.NullFree)
    (hn : (d.reopenAt s).2 = none) : (d.reopenAt s).1.NullFree := by
  cases s with
  | mark =>
    unfold NullFree
    rw [encodings_reopenAt_mark]
    exact h
  | slot i p =>
    obtain ⟨k, e, o, hk, he, ho, hr⟩ := reset_eq_none hd hn
    rw [reopenAt_slot, hr]
    exact NullFree.putEncoding h i e ((h e (List.mem_of_getElem? he)).restore (hd.kind_eq he ho)
      (fun hp => hs i (by rw [hp]) o ho) (hd.isOpen hk ho))

/-! ## The refinement -/

section OnTheWay

variable {d d' : Draft} (hd : d.Coherent) (hfree : d.NullFree) {p : Property}
  (built : ∀ i ∈ d.slots.indices p, d.valuesAt? i p = none ∨ d.AsBuilt i p) {s : Spot}
  (hs : s ∈ d.spots p) (hoffered : (d.choicesAt? s).isSome) (h : d.OnTheWay p d')

include hd hfree built hs hoffered h in
theorem OnTheWay.origin_nullFree (i : Nat) (hi : s = .slot i .scale) (o : Encoding)
    (ho : d'.origin.encodings[i]? = some o) : o.NullFree := by
  subst hi
  rw [h.origin] at ho
  rw [mem_spots_iff] at hs
  split at hs
  · contradiction
  obtain ⟨j, hj, e⟩ := hs
  cases e
  rcases built i hj with hnone | hbuilt
  · rw [show d.choicesAt? (.slot i .scale) = none from hnone] at hoffered
    contradiction
  · exact hbuilt.nullFree_origin hd hfree ho

include hs hoffered h in
/-- A step at a spot where a choice can be made stays on the way if it leaves alone what is not there. -/
theorem OnTheWay.step {f : Draft} (hap : d'.AlikeApart s f) (coherent : f.Coherent) (nullFree : f.NullFree) :
    d.OnTheWay p f where
  coherent := coherent
  origin := hap.origin.symm.trans h.origin
  nullFree := nullFree
  passed t ht hnone := by
    have hst : hostOf s ≠ hostOf t := hosts_ne hs ht fun e => by rw [e, hnone] at hoffered; contradiction
    rw [← hap.choicesAt?_eq hst]
    exact h.passed t ht hnone

include hd hfree built hs hoffered h

theorem OnTheWay.chooseAt {c : Choice} (hn : (d'.chooseAt s c).2 = none) : d.OnTheWay p (d'.chooseAt s c).1 :=
  h.step hs hoffered (alikeApart_chooseAt h.coherent hn) (h.coherent.chooseAt s c)
    (h.nullFree.chooseAt h.coherent (h.origin_nullFree hd hfree built hs hoffered) hn)

theorem OnTheWay.reopenAt (hn : (d'.reopenAt s).2 = none) : d.OnTheWay p (d'.reopenAt s).1 :=
  h.step hs hoffered (alikeApart_reopenAt h.coherent hn) (h.coherent.reopenAt s)
    (h.nullFree.reopenAt h.coherent (h.origin_nullFree hd hfree built hs hoffered) hn)

end OnTheWay

/-- A mark that is open is as it was built. -/
theorem Derived.mark_eq {d₀ d : Draft} (h : Derived d₀ d) (h₀ : d₀.Coherent)
    (hm : d₀.query.mark = d₀.origin.mark) (hopen : d.query.mark.isOpen = true) :
    d.query.mark = d.origin.mark := by
  induction h with
  | refl => exact hm
  | @assign e h i p c ih =>
    obtain ⟨ho, hq⟩ := e.assign_frame i p c
    rw [ho, hq]
    exact ih (by rwa [hq] at hopen)
  | @reset e h i p ih =>
    obtain ⟨ho, hq⟩ := e.reset_frame i p
    rw [ho, hq]
    exact ih (by rwa [hq] at hopen)
  | @setMark e h m ih =>
    unfold Draft.setMark at hopen ⊢
    cases hs : e.slots.mark with
    | none => rw [hs] at hopen; exact ih hopen
    | some k => rw [hs] at hopen; contradiction
  | @resetMark e h ih =>
    unfold Draft.resetMark at hopen ⊢
    cases hs : e.slots.mark with
    | none => rw [hs] at hopen; exact ih hopen
    | some k => exact ((h.coherent h₀).origin_mark_eq hs).symm

/-- Nothing is on record for the slots of a property at which values are tried. -/
def Unrecorded (d : Draft) (p : Property) : Prop :=
  ∀ s ∈ d.spots p, (d.choicesAt? s).isSome → ∀ n ∈ d.nameAt? s, d.assignment.lookup n = none

/-- A property whose slots are as they were built can be walked through. -/
theorem ready_of_built {d : Draft} {p : Property}
    (built : ∀ i ∈ d.slots.indices p, d.valuesAt? i p = none ∨ d.AsBuilt i p)
    (mark : d.slots.mark.isSome = true → p = .mark → d.query.mark = d.origin.mark) :
    ∀ s ∈ d.spots p, d.Ready s := by
  intro s hs
  by_cases hp : p = .mark
  · subst hp
    obtain rfl := List.mem_singleton.mp hs
    cases hm : d.slots.mark with
    | none => exact .inl (by rw [choicesAt?, hm]; rfl)
    | some k => exact .inr ⟨by rw [nameAt?, hm]; rfl, mark (by rw [hm]; rfl) rfl⟩
  · unfold spots at hs
    rw [if_neg hp] at hs
    obtain ⟨i, hi, rfl⟩ := List.mem_map.mp hs
    rcases built i hi with hnone | h
    · exact .inl hnone
    · have hslot : (d.slots.slot? i p).isSome := (List.mem_filter.mp hi).2
      exact .inr ⟨by rw [nameAt?, Option.isSome_map]; exact hslot,
        fun e o he ho => by rw [h e o he ho]⟩

/-- A walk that changes one draft in place finds what the search on copies finds, in the same
order, and leaves the draft as it was, but for choices on record for slots that are open. -/
theorem walk_refines_copySearch {q : ChartQuery} {schema : Schema} {config : Config} {d₀ d : Draft}
    (hb : build q schema config = .ok d₀) (hd : Derived d₀ d) {p : Property}
    (built : ∀ i ∈ d.slots.indices p, d.valuesAt? i p = none ∨ d.AsBuilt i p)
    (mark : p = .mark → d.slots.mark.isSome = true → d.query.mark.isOpen = true)
    (hfree : d.NullFree) (ctx : Context) (ok : (d.walk ctx p).failure = none) :
    ∃ found, copySearch ctx (d.spots p) d = .ok found ∧
      List.Forall₂ Same (d.walk ctx p).found found ∧
      (d.walk ctx p).draft.query = d.query ∧
      (∀ c, (d.walk ctx p).draft.channelUsed c = d.channelUsed c) ∧
      (∀ n, Remembered (d.spots p) (d.walk ctx p).draft d n) ∧
      (d.Unrecorded p → (d.walk ctx p).draft.assignment = d.assignment) := by
  have hbuilt := isBuilt_of_build hb
  have hcoh := hd.coherent hbuilt.coherent
  have hmark := hd.mark_eq hbuilt.coherent (by rw [hbuilt.query_eq])
  have hready := ready_of_built built fun hm hp => hmark (mark hp hm)
  rw [walk_eq_walkSpots] at ok ⊢
  obtain ⟨found, hfound, htwins, hafter⟩ :=
    walkSpots_matches ctx (d.spots p) (hosts_spots d p) d d (.refl hcoh _) hready ok
  -- No null comes up on the way, in place or on a copy.
  have hstart : d.OnTheWay p d := ⟨hcoh, rfl, hfree, fun _ _ h => h⟩
  have hoffered {s : Spot} (hs : s ∈ d.spots p)
      (h : ∃ d', d.OnTheWay p d' ∧ (d'.choicesAt? s).isSome) : (d.choicesAt? s).isSome := by
    obtain ⟨d', hd', hsome⟩ := h
    cases hc : d.choicesAt? s with
    | none => rw [hd'.passed s hs hc] at hsome; contradiction
    | some choices => rfl
  obtain ⟨hleft, hkept⟩ := walkSpots_leaves (P := d.OnTheWay p) ctx
    (fun s hs h c d' hd' hn => hd'.chooseAt hcoh hfree built hs (hoffered hs h) hn)
    (fun s hs h d' hd' hn => hd'.reopenAt hcoh hfree built hs (hoffered hs h) hn) hstart ok
  have hcopies : ∀ f ∈ found, d.OnTheWay p f := fun f hf =>
    ((mem_copySearch_iff hfound f).mp hf).preserves (fun s hs c d' hd' hsome hn =>
      hd'.chooseAt hcoh hfree built hs (hoffered hs ⟨d', hd', hsome⟩) hn) hstart
  have hquery := hafter.alike.query_eq hleft.nullFree hfree
  refine ⟨found, hfound, ?_, hquery, hleft.coherent.channelUsed_eq hcoh hquery,
    hafter.remembered, fun hun => ?_⟩
  · refine List.forall₂_iff_get.mpr ⟨htwins.length_eq, fun i hi hi' => ?_⟩
    exact (htwins.get hi hi').same (hkept _ (List.get_mem ..)).nullFree
      (hcopies _ (List.get_mem ..)).nullFree
  · refine hleft.coherent.recorded.eq_of_lookup_eq hcoh.recorded fun n => ?_
    rcases hafter.remembered n with heq | ⟨hnone, s, hs, hsome, hn⟩
    · exact heq
    · rw [hnone, hun s hs hsome n hn]

/-! ## A choice that is forgotten -/

/-- A field whose bin is open in its switch and in its number of bins. -/
def openBin : ChartQuery where
  mark := .fixed .point
  encodings := [.field {
    channel := .fixed .x
    field := .fixed "Q"
    type := .fixed .quantitative
    bin := some (.wild .short { maxbins := some (.wild (.ofCandidates [5, 10])) }) }]

theorem nullFree_openBin : ∀ e ∈ openBin.encodings, e.NullFree := by
  intro e he
  obtain rfl := List.mem_singleton.mp he
  rw [← Encoding.withoutNulls_eq_self_iff]
  rfl

/-- A table with one field of numbers. -/
def oneField : Schema where
  fields := [⟨"Q", .quantitative, .number, { distinct := 100 }, [], []⟩]
  ne_nil := by simp
  nodup := by simp

/-- The switch of a bin set, its number of bins chosen, and the switch set again, which opens the
number of bins but leaves the choice on record. -/
def rebinned (d : Draft) : Draft :=
  let d := (d.assign 0 .bin (.flag true)).1
  let d := (d.assign 0 .maxBins (.count 5)).1
  (d.assign 0 .bin (.flag true)).1

theorem derived_rebinned (d : Draft) : Derived d (rebinned d) :=
  .assign (.assign (.assign .refl 0 .bin _) 0 .maxBins _) 0 .bin _

/-- The numbers of bins that the rules allow are found, and the walk leaves the switch on record. -/
theorem walk_refines_copySearch_openBin :
    ∃ d₀ d found, build openBin oneField {} = .ok d₀ ∧ d = (d₀.assign 0 .bin (.flag true)).1 ∧
      copySearch ⟨oneField, {}⟩ (d.spots .maxBins) d = .ok found ∧
      List.Forall₂ Same (d.walk ⟨oneField, {}⟩ .maxBins).found found ∧ found.length = 2 ∧
      (d.walk ⟨oneField, {}⟩ .maxBins).draft.assignment = [("b0", .flag true)] := by
  obtain ⟨d₀, hd₀⟩ : ∃ d₀, build openBin oneField {} = .ok d₀ := ⟨_, rfl⟩
  have hd : Derived d₀ (d₀.assign 0 .bin (.flag true)).1 := .assign .refl 0 .bin _
  have hcount : ((d₀.assign 0 .bin (.flag true)).1.walk ⟨oneField, {}⟩ .maxBins).found.length = 2 := by
    cases hd₀
    decide +kernel
  have hrecord : (d₀.assign 0 .bin (.flag true)).1.assignment = [("b0", .flag true)] := by
    cases hd₀
    decide +kernel
  have hun : (d₀.assign 0 .bin (.flag true)).1.Unrecorded .maxBins := by
    cases hd₀
    intro s hs _ n hn
    obtain rfl : s = .slot 0 .maxBins := by simpa using (show s ∈ [Spot.slot 0 .maxBins] from hs)
    obtain rfl : "mb0" = n := Option.some.inj hn
    decide +kernel
  obtain ⟨found, hfound, hsame, -, -, -, hassignment⟩ :=
    walk_refines_copySearch hd₀ hd (p := .maxBins)
      (fun i hi => by
        cases hd₀
        obtain rfl : i = 0 := by simpa using (show i ∈ [0] from hi)
        exact .inr fun e o he ho => by cases he; cases ho; rfl)
      nofun
      (fun e he => by
        cases hd₀
        obtain rfl := List.mem_singleton.mp he
        rw [← Encoding.withoutNulls_eq_self_iff]
        rfl)
      ⟨oneField, {}⟩ (by cases hd₀; decide +kernel)
  exact ⟨d₀, _, found, hd₀, rfl, hfound, hsame, hsame.length_eq ▸ hcount, hassignment hun ▸ hrecord⟩

/-- A choice on record for a slot that was opened again by its parent does not outlast a walk
through that slot. -/
theorem walk_forgets_choice :
    ¬ ∀ (q : ChartQuery) (schema : Schema) (config : Config) (d₀ d : Draft) (p : Property)
      (ctx : Context), build q schema config = .ok d₀ → Derived d₀ d →
      (∀ i ∈ d.slots.indices p, d.valuesAt? i p = none ∨ d.AsBuilt i p) →
      (p = .mark → d.slots.mark.isSome = true → d.query.mark.isOpen = true) → d.NullFree →
      (d.walk ctx p).failure = none → (d.walk ctx p).draft.assignment = d.assignment := by
  intro h
  obtain ⟨d₀, hd₀⟩ : ∃ d₀, build openBin oneField {} = .ok d₀ := ⟨_, rfl⟩
  have heq := h openBin oneField {} d₀ (rebinned d₀) .maxBins ⟨oneField, {}⟩ hd₀ (derived_rebinned d₀)
  have hbefore : (rebinned d₀).assignment.map Prod.fst = ["b0", "mb0"] := by
    cases hd₀
    decide +kernel
  have hafter : ((rebinned d₀).walk ⟨oneField, {}⟩ .maxBins).draft.assignment.map Prod.fst =
      ["b0"] := by
    cases hd₀
    decide +kernel
  cases hd₀
  rw [heq (fun i hi => ?_) nofun (fun e he => ?_) (by decide +kernel), hbefore] at hafter
  · exact absurd hafter (by decide)
  · obtain rfl : i = 0 := by simpa using (show i ∈ [0] from hi)
    exact .inr fun e o he ho => by cases he; cases ho; rfl
  · obtain rfl := List.mem_singleton.mp he
    rw [← Encoding.withoutNulls_eq_self_iff]
    rfl

end Draft
end ChartAdvisor
