import ChartAdvisor.Proofs.Encoding.Offering
import ChartAdvisor.Proofs.Search.Abreast

/-!
# Queries with other values to try

A query of which an open slot is given other values to try is built as before. The slots have the names
that they had, and at each of them but the one the same values are listed.
-/
namespace ChartAdvisor

variable {s t : Spot} {choices : List Choice} {w : Wildcard Choice} {q : ChartQuery}

namespace ChartQuery

/-- The wildcard at a spot of a query, its candidates as choices. -/
def choicesAt? (q : ChartQuery) : Spot → Option (Wildcard Choice)
  | .mark => q.mark.choices?
  | .slot i p => (q.encodings[i]?).bind (·.choices? p)

/-- A query with other values to try at a spot, if it is open. -/
def offering (q : ChartQuery) (s : Spot) (choices : List Choice) : ChartQuery :=
  match s with
  | .mark => { q with mark := q.mark.offering choices }
  | .slot i p => { q with encodings := q.encodings.modify i (·.offering p choices) }

theorem getElem?_offering (q : ChartQuery) (i : Nat) (p : Property) (choices : List Choice) (j : Nat) :
    (q.offering (.slot i p) choices).encodings[j]? =
      q.encodings[j]?.map fun e => if j = i then e.offering p choices else e := by
  rw [offering, List.getElem?_modify]
  by_cases h : j = i
  · simp [h]
  · simp [h, Ne.symm h]

/-- A query that is given the values that it lists stays as it is. -/
theorem offering_self (h : q.choicesAt? s = some w) (hw : w.candidates = some choices) :
    q.offering s choices = q := by
  cases s with
  | mark => rw [offering, Slot.offering_self (fun _ => rfl) h hw]
  | slot i p =>
    obtain ⟨e, he, hchoices⟩ := Option.bind_eq_some_iff.mp h
    have hencodings : (q.offering (.slot i p) choices).encodings = q.encodings := by
      refine List.ext_getElem? fun j => ?_
      rw [getElem?_offering]
      by_cases hj : j = i
      · subst hj
        rw [he, Option.map_some, if_pos rfl, e.offering_self hchoices hw]
      · simp [hj]
    exact congrArg (fun es => { q with encodings := es }) hencodings

end ChartQuery

namespace Draft

variable {schema : Schema} {config : Config}

/-! ## Filled encodings -/

theorem getElem?_fillEncodings (schema : Schema) (config : Config) (encodings : List Encoding) (i : Nat) :
    (fillEncodings schema config encodings)[i]? =
      match encodings[i]? with
      | some e => some (e.fill ⟨i, schema, config⟩)
      | none => if config.autoAddCount ∧ i = encodings.length then some (openCount config i) else none := by
  have hfilled : (encodings.zipIdx.map fun x => x.1.fill { index := x.2, schema, config })[i]? =
      encodings[i]?.map fun e => e.fill ⟨i, schema, config⟩ := by
    rw [List.getElem?_map, List.getElem?_zipIdx, Option.map_map, Nat.zero_add]
    rfl
  rw [fillEncodings_eq]
  cases hi : encodings[i]? with
  | some e =>
    rw [hi] at hfilled
    exact (List.getElem?_append_left (List.getElem?_eq_some_iff.mp hfilled).1).trans hfilled
  | none =>
    have hlength := List.getElem?_eq_none_iff.mp hi
    rw [List.getElem?_append_right (by simpa using hlength), List.length_map, List.length_zipIdx]
    cases hauto : config.autoAddCount with
    | false => simp
    | true =>
      by_cases heq : i = encodings.length
      · subst heq
        simp
      · have hbeyond : [openCount config encodings.length].length ≤ i - encodings.length := by
          rw [List.length_singleton]
          omega
        rw [if_pos rfl, List.getElem?_eq_none hbeyond]
        simp [heq]

/-- What is known of the slot at a spot, when other values are to be tried at one of them. -/
def relisted (s : Spot) (choices : List Choice) (t : Spot) (k : Candidates Choice) : Candidates Choice :=
  if t = s then { k with values := choices } else k

@[simp]
theorem name_relisted (s : Spot) (choices : List Choice) (t : Spot) (k : Candidates Choice) :
    (relisted s choices t k).name = k.name := by
  unfold relisted
  split <;> rfl

/-- Two filled encodings with one number that look the same to rules, the first of which has other
values to try at a spot. -/
structure Refilled (s : Spot) (choices : List Choice) (i : Nat) (x y : Encoding × OpenSlots) : Prop where
  agree : x.1.AgreeWhere (fun _ => True) y.1
  opened : x.2 = y.2.map fun e => (e.1, relisted s choices (.slot i e.1) e.2)

theorem Refilled.refl {i : Nat} (h : hostOf s ≠ some i) (x : Encoding × OpenSlots) :
    Refilled s choices i x x where
  agree := ⟨rfl, fun _ _ => rfl⟩
  opened := by
    refine ((List.map_congr_left fun e _ => ?_).trans (List.map_id x.2)).symm
    have hne : .slot i e.1 ≠ s := by
      rintro rfl
      exact h rfl
    simp [relisted, hne]

theorem Refilled.rel_refl {i : Nat} (h : hostOf s ≠ some i) (x : Option (Encoding × OpenSlots)) :
    Option.Rel (Refilled s choices i) x x := by
  cases x with
  | none => exact .none
  | some x => exact .some (.refl h x)

theorem refilled_fill {e : Encoding} {p : Property} (he : e.choices? p = some w) (hw : w.Admits choices)
    (i : Nat) : Refilled (.slot i p) choices i ((e.offering p choices).fill ⟨i, schema, config⟩)
      (e.fill ⟨i, schema, config⟩) where
  agree.kind := by rw [Encoding.kind_fill, Encoding.kind_fill, Encoding.kind_offering]
  agree.standing r _ := by
    rw [Encoding.standing_fill, Encoding.standing_fill, Encoding.standing_offering]
  opened := by
    rw [Encoding.fill_offering _ he hw, OpenSlots.offering]
    simp only [relisted, Spot.slot.injEq, true_and]

theorem refilled_fillEncodings (schema : Schema) (config : Config) (h : q.choicesAt? s = some w)
    (hw : w.Admits choices) (i : Nat) :
    Option.Rel (Refilled s choices i) (fillEncodings schema config (q.offering s choices).encodings)[i]?
      (fillEncodings schema config q.encodings)[i]? := by
  cases s with
  | mark => exact Refilled.rel_refl (by rw [hostOf]; nofun) _
  | slot j p =>
    have hlength : (q.offering (.slot j p) choices).encodings.length = q.encodings.length :=
      List.length_modify ..
    rw [getElem?_fillEncodings, getElem?_fillEncodings, ChartQuery.getElem?_offering, hlength]
    by_cases hij : i = j
    · subst hij
      obtain ⟨e, he, hchoices⟩ := Option.bind_eq_some_iff.mp h
      simp only [he, Option.map_some, if_pos]
      exact .some (refilled_fill hchoices hw i)
    · simp only [if_neg hij, Option.map_id']
      have hother : hostOf (.slot j p) ≠ some i := fun heq => hij (Option.some.inj heq).symm
      exact Refilled.rel_refl hother _

/-! ## The mark -/

theorem standing_fillMark (config : Config) (mark : Slot Mark) :
    Standing.ofSlot (fillMark config mark).1 = Standing.ofSlot mark := by
  cases mark <;> rfl

theorem standing_mark_offering (q : ChartQuery) (s : Spot) (choices : List Choice) :
    Standing.ofSlot (q.offering s choices).mark = Standing.ofSlot q.mark := by
  cases s with
  | mark => exact Slot.standing_offering q.mark choices
  | slot i p => rfl

/-- The slot of the mark, if it is open. -/
theorem fillMark_offering (config : Config) (h : q.choicesAt? s = some w) (hw : w.Admits choices) :
    ((fillMark config (q.offering s choices).mark).2.map fun k => (k.name, k.values.map toChoice)) =
      (fillMark config q.mark).2.map fun k =>
        (k.name, if .mark = s then choices else k.values.map toChoice) := by
  cases s with
  | slot i p => rfl
  | mark =>
    have hmark : (q.offering .mark choices).mark = q.mark.offering choices := rfl
    have hopen : q.mark.choices? = some w := h
    rw [hmark]
    cases hq : q.mark with
    | fixed m => rfl
    | wild u =>
      rw [hq] at hopen
      obtain rfl := Option.some.inj hopen
      simp [fillMark, Slot.offering, Wildcard.offering, Wildcard.map_filterMap_choices (fun _ => rfl) hw]

/-! ## Built drafts -/

/-- The open slots with which a query is built. -/
def opened (schema : Schema) (config : Config) (q : ChartQuery) : SlotIndex :=
  ⟨(fillMark config q.mark).2, (fillEncodings schema config q.encodings).map Prod.snd⟩

variable {d d' : Draft}

/-- A query that differs from one that can be built in the values to try alone can be built as well. -/
theorem exists_build {q' : ChartQuery} (h : build q schema config = .ok d) (settings : q'.config = q.config)
    (outline : (opened schema config q').outline = (opened schema config q).outline) :
    ∃ d', build q' schema config = .ok d' := by
  have hstack : q'.stackOffset = q.stackOffset := by rw [ChartQuery.stackOffset, settings]; rfl
  have hnames : Table.firstRepeated? [] (opened schema config q').names = none := by
    rw [SlotIndex.names_eq, outline, ← SlotIndex.names_eq]
    have hnodup := (isBuilt_of_build h).named
    rw [(isBuilt_of_build h).slots_eq] at hnodup
    exact (Table.firstRepeated?_eq_none_iff _ _).mpr ⟨hnodup, fun _ _ => List.not_mem_nil⟩
  unfold build at h ⊢
  rw [hstack]
  cases hoffset : q.stackOffset with
  | error v => rw [hoffset] at h; contradiction
  | ok offset =>
    simp only [opened] at hnames
    simp only [hnames]
    exact ⟨_, rfl⟩

theorem outline_offering (h : q.choicesAt? s = some w) (hw : w.Admits choices) :
    (opened schema config (q.offering s choices)).outline = (opened schema config q).outline := by
  refine Prod.ext ?_ (List.ext_getElem? fun i => ?_)
  · have hmark := congrArg (Option.map Prod.fst) (fillMark_offering config h hw)
    rw [Option.map_map, Option.map_map] at hmark
    exact hmark
  · have hi := refilled_fillEncodings schema config h hw i
    simp only [SlotIndex.outline, opened, List.getElem?_map]
    generalize (fillEncodings schema config (q.offering s choices).encodings)[i]? = x,
      (fillEncodings schema config q.encodings)[i]? = y at hi
    cases hi with
    | none => rfl
    | some hxy =>
      simp [hxy.opened]

theorem nameAt?_isSome_of_choicesAt? (hd : IsBuilt q schema config d) (h : q.choicesAt? s = some w) :
    (d.nameAt? s).isSome := by
  rw [nameAt?.eq_def]
  cases s with
  | mark =>
    rw [hd.slots_eq, Option.isSome_map]
    cases hq : q.mark with
    | fixed m => rw [ChartQuery.choicesAt?, hq] at h; contradiction
    | wild u => rfl
  | slot i p =>
    obtain ⟨e, he, hchoices⟩ := Option.bind_eq_some_iff.mp h
    rw [Option.isSome_map, hd.slot?_isSome, hd.origin_eq]
    simp only [List.getElem?_map, getElem?_fillEncodings, he, Option.map_some, Option.any_some]
    rw [Encoding.isOpen_fill, ← Encoding.isSome_choices?, hchoices]
    rfl

section Built

variable (hd : IsBuilt q schema config d) (hd' : IsBuilt (q.offering s choices) schema config d')
  (h : q.choicesAt? s = some w) (hw : w.Admits choices)
include hd hd' h hw

/-- Rules see no difference. -/
theorem agreeOff_offering : AgreeOff (fun _ => False) d' d := by
  have horigin (i : Nat) : Option.Rel (Encoding.AgreeWhere fun _ => True) d'.origin.encodings[i]?
      d.origin.encodings[i]? := by
    have hi := refilled_fillEncodings schema config h hw i
    simp only [hd.origin_eq, hd'.origin_eq, List.getElem?_map]
    generalize (fillEncodings schema config (q.offering s choices).encodings)[i]? = x,
      (fillEncodings schema config q.encodings)[i]? = y at hi
    cases hi with
    | none => exact .none
    | some hxy => exact .some hxy.agree
  refine ⟨?_, ?_, horigin, fun _ => ?_, fun i => ?_, fun n _ => ?_⟩
  · rw [hd.slots_eq, hd'.slots_eq]
    exact outline_offering h hw
  · rw [hd.query_eq, hd'.query_eq, hd.origin_eq, hd'.origin_eq]
    cases s <;> rfl
  · rw [hd.query_eq, hd'.query_eq, hd.origin_eq, hd'.origin_eq]
    simp only [standing_fillMark, standing_mark_offering]
  · have hi := horigin i
    rw [← hd.query_eq, ← hd'.query_eq] at hi
    rw [encoding?, encoding?]
    generalize d'.query.encodings[i]? = x, d.query.encodings[i]? = y at hi
    cases hi with
    | none => exact .none
    | some hxy => exact .some (hxy.mono fun _ _ => trivial)
  · rw [hd.assignment_eq, hd'.assignment_eq]

theorem slot?_offering (i : Nat) (p : Property) :
    d'.slots.slot? i p = (d.slots.slot? i p).map (relisted s choices (.slot i p)) := by
  have hi := refilled_fillEncodings schema config h hw i
  simp only [SlotIndex.slot?, SlotIndex.ofEncoding, hd.slots_eq, hd'.slots_eq, List.getElem?_map]
  generalize (fillEncodings schema config (q.offering s choices).encodings)[i]? = x,
    (fillEncodings schema config q.encodings)[i]? = y at hi
  cases hi with
  | none => rfl
  | some hxy =>
    simp only [Option.map_some, Option.getD_some, hxy.opened]
    exact Table.lookup_map (fun r => relisted s choices (.slot i r)) _ p

/-- At every other spot the same values are listed. -/
theorem listed_offering (t : Spot) : d'.listed t = if t = s then choices else d.listed t := by
  have hopen := nameAt?_isSome_of_choicesAt? hd h
  cases t with
  | mark =>
    have hmark := congrArg (Option.map Prod.snd) (fillMark_offering config h hw)
    rw [Option.map_map, Option.map_map] at hmark
    have hlisted : d'.listed .mark =
        (d.slots.mark.map fun k => if .mark = s then choices else k.values.map toChoice).getD [] := by
      rw [hd.slots_eq, listed, hd'.slots_eq]
      exact congrArg (Option.getD · []) hmark
    rw [hlisted]
    split
    · next heq =>
      subst heq
      rw [nameAt?, Option.isSome_map] at hopen
      obtain ⟨k, hk⟩ := Option.isSome_iff_exists.mp hopen
      rw [hk]
      rfl
    · rfl
  | slot i p =>
    rw [listed, listed, slot?_offering hd hd' h hw, Option.map_map]
    unfold relisted
    split
    · next heq =>
      subst heq
      rw [nameAt?, Option.isSome_map] at hopen
      obtain ⟨k, hk⟩ := Option.isSome_iff_exists.mp hopen
      rw [hk]
      rfl
    · rfl

end Built

/-- The query can be built with other values to try. -/
theorem build_offering (hd : build q schema config = .ok d) (h : q.choicesAt? s = some w)
    (hw : w.Admits choices) : ∃ d', build (q.offering s choices) schema config = .ok d' := by
  have settings : (q.offering s choices).config = q.config := by cases s <;> rfl
  exact exists_build hd settings (outline_offering h hw)

/-- A query that lists the values itself is built with them. -/
theorem listed_of_candidates (hd : IsBuilt q schema config d) (h : q.choicesAt? s = some w)
    (hw : w.candidates = some choices) : d.listed s = choices := by
  have hsame : IsBuilt (q.offering s choices) schema config d := by
    rwa [ChartQuery.offering_self h hw]
  have hlisted := listed_offering hd hsame h ⟨choices, hw, fun _ => id⟩ s
  rwa [if_pos rfl] at hlisted

end Draft

end ChartAdvisor
