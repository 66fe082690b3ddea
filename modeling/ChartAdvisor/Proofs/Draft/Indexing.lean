import ChartAdvisor.Proofs.Draft.Undoing
import ChartAdvisor.Proofs.Encoding.Listing

/-!
# The index of open slots

Building a draft finds the open slots of a query in one pass and names them. Later the draft is asked in
other ways: whether an encoding is open in a property, which wildcard it has there, and in which
encodings a property is open at all. These answers agree. Names that building gives are made of a label
without digits and a number, so that no two of them clash.
-/
namespace ChartAdvisor

/-! ## Default names -/

namespace Property

theorem label_injective {p r : Property} (h : p.label = r.label) : p = r :=
  List.inj_on_of_nodup_map (f := label) (l := Vocabulary.all) (by decide) p.mem_all r.mem_all h

theorem isDigit_label (p : Property) : ∀ c ∈ p.label.toList, c.isDigit = false := by
  have hall : (Vocabulary.all : List Property).all fun r => r.label.toList.all (!·.isDigit) := by decide
  intro c hc
  simpa using List.all_eq_true.mp (List.all_eq_true.mp hall p p.mem_all) c hc

theorem toList_slotName (p : Property) (i : Nat) :
    (p.slotName i).toList = p.label.toList ++ Nat.toDigits 10 i := by
  rw [slotName, String.toList_append, Nat.toString_eq_ofList_toDigits, String.toList_ofList]

theorem isDigit_toDigits (i : Nat) : ∀ c ∈ Nat.toDigits 10 i, c.isDigit = true := fun _ hc =>
  Nat.isDigit_of_mem_toDigits (by decide) (by decide) hc

/-- The label of a default name ends where its first digit is. -/
theorem takeWhile_slotName (p : Property) (i : Nat) :
    (p.slotName i).toList.takeWhile (!·.isDigit) = p.label.toList := by
  rw [toList_slotName, List.takeWhile_append_of_pos fun c hc => by rw [p.isDigit_label c hc]; rfl]
  obtain ⟨c, cs, hcs⟩ := List.exists_cons_of_ne_nil (Nat.toDigits_ne_nil (n := i) (b := 10))
  have hc := isDigit_toDigits i c (hcs ▸ List.mem_cons_self)
  rw [hcs, List.takeWhile_cons_of_neg (by simp [hc]), List.append_nil]

/-- Default names tell properties and numbers apart. -/
theorem slotName_injective {p r : Property} {i j : Nat} (h : p.slotName i = r.slotName j) :
    p = r ∧ i = j := by
  have hlabel : p.label = r.label := by
    rw [← String.toList_inj, ← takeWhile_slotName p i, h, takeWhile_slotName]
  refine ⟨label_injective hlabel, ?_⟩
  have hdigits := congrArg String.toList h
  rw [toList_slotName, toList_slotName, hlabel] at hdigits
  have hvalue := congrArg (fun ds => Nat.ofDigitChars 10 ds 0) (List.append_cancel_left hdigits)
  simpa using hvalue

/-- A label alone is no default name of a slot. -/
theorem slotName_ne_label (p r : Property) (i : Nat) : p.slotName i ≠ r.label := by
  intro h
  obtain ⟨c, hc⟩ := List.exists_mem_of_ne_nil _ (Nat.toDigits_ne_nil (n := i) (b := 10))
  have hmem : c ∈ r.label.toList := by
    rw [← h, toList_slotName]
    exact List.mem_append_right _ hc
  exact Bool.false_ne_true ((r.isDigit_label c hmem).symm.trans (isDigit_toDigits i c hc))

end Property

/-- No open slot of an encoding has a name. -/
def Encoding.Unnamed (e : Encoding) : Prop := ∀ p, ∀ w ∈ e.choices? p, w.name = none

/-- No open slot of a query has a name. -/
structure ChartQuery.Unnamed (q : ChartQuery) : Prop where
  mark : ∀ w ∈ q.mark.wildcard?, w.name = none
  encodings : ∀ e ∈ q.encodings, e.Unnamed

/-- An open slot that the query leaves unnamed gets its default name. -/
theorem Encoding.Unnamed.name_fill {e : Encoding} (he : e.Unnamed) (f : Filling) :
    ∀ x ∈ (e.fill f).2, x.2.name = x.1.slotName f.index := by
  intro x hx
  rw [e.opened_fill f] at hx
  obtain ⟨p, -, hp⟩ := List.mem_flatMap.mp hx
  obtain ⟨w, hw, rfl⟩ := Option.map_eq_some_iff.mp (Option.mem_toList.mp hp)
  rw [Filling.complete, he p w hw, Option.getD_none]

/-! ## The numbers of the encodings by property -/

namespace SlotIndex

/-- Notes, once, that a property is open in an encoding. -/
def note (found : List (Property × List Nat)) (index : Nat) (p : Property) :
    List (Property × List Nat) :=
  let before := (found.lookup p).getD []
  Table.put p (if before.contains index then before else before ++ [index]) found

/-- Notes the open slots of an encoding one after another. -/
def noteEach (found : List (Property × List Nat)) (index : Nat) (opened : OpenSlots) :
    List (Property × List Nat) :=
  opened.foldl (fun found x => note found index x.1) found

/-- The numbers of the encodings by property, as they are noted in one pass over the open slots. -/
def noted (s : SlotIndex) : List (Property × List Nat) :=
  s.encodings.zipIdx.foldl (fun found x => noteEach found x.2 x.1) []

variable {found : List (Property × List Nat)} {index : Nat} {p : Property}

theorem lookup_note (found : List (Property × List Nat)) (index : Nat) (r p : Property) :
    ((note found index r).lookup p).getD [] =
      if p = r ∧ index ∉ (found.lookup p).getD [] then (found.lookup p).getD [] ++ [index]
      else (found.lookup p).getD [] := by
  unfold note
  rw [Table.lookup_put]
  by_cases hp : p = r
  · subst hp
    rw [if_pos rfl, Option.getD_some, List.contains_eq_mem]
    by_cases hmem : index ∈ (found.lookup p).getD [] <;> simp [hmem]
  · rw [if_neg hp, if_neg fun h => hp h.1]

/-- An encoding that was not yet noted for a property is noted once if it is open there. -/
theorem lookup_noteEach (h : index ∉ (found.lookup p).getD []) (opened : OpenSlots) :
    ((noteEach found index opened).lookup p).getD [] =
      (found.lookup p).getD [] ++ if Filling.lists opened p then [index] else [] := by
  induction opened using List.reverseRecOn with
  | nil => simp [noteEach]
  | append_singleton opened x ih =>
    unfold noteEach at ih ⊢
    have hx : Filling.lists [x] p = (x.1 == p) := Bool.or_false _
    rw [List.foldl_concat, lookup_note, ih, Filling.lists_append, hx]
    cases Filling.lists opened p with
    | true => simp
    | false =>
      by_cases hp : p = x.1
      · subst hp
        simp [h]
      · simp [hp, Ne.symm hp]

theorem slot?_isSome_eq_lists (s : SlotIndex) (i : Nat) (p : Property) :
    (s.slot? i p).isSome = Filling.lists (s.ofEncoding i) p :=
  Table.lookup_isSome_eq_any p _

/-- The numbers that are noted for a property are those of the encodings in which it is open. -/
theorem noted_eq_indices (s : SlotIndex) (p : Property) :
    (s.noted.lookup p).getD [] = s.indices p := by
  obtain ⟨mark, encodings⟩ := s
  -- One more encoding is noted behind those before it.
  induction encodings using List.reverseRecOn with
  | nil => rfl
  | append_singleton encodings opened ih =>
    have hbefore : ∀ i < encodings.length,
        (slot? ⟨mark, encodings ++ [opened]⟩ i p).isSome = (slot? ⟨mark, encodings⟩ i p).isSome := by
      intro i hi
      unfold slot? ofEncoding
      rw [List.getElem?_append_left hi]
    have hlast : (slot? ⟨mark, encodings ++ [opened]⟩ encodings.length p).isSome =
        Filling.lists opened p := by
      rw [slot?_isSome_eq_lists]
      simp [ofEncoding]
    have hnew : encodings.length ∉ indices ⟨mark, encodings⟩ p := by
      simp [indices]
    unfold noted at ih ⊢
    rw [List.zipIdx_append, List.foldl_append, List.zipIdx_singleton, Nat.zero_add]
    refine (lookup_noteEach (by rwa [ih]) opened).trans ?_
    rw [ih, indices, indices, List.length_append, List.length_singleton, List.range_succ,
      List.filter_append, List.filter_congr fun i hi => hbefore i (List.mem_range.mp hi)]
    refine congrArg _ ?_
    rw [List.filter_singleton, hlast]
    cases Filling.lists opened p <;> rfl

theorem pairwise_indices (s : SlotIndex) (p : Property) : (s.indices p).Pairwise (· < ·) :=
  List.Pairwise.filter _ List.pairwise_lt_range

theorem mem_indices_iff (s : SlotIndex) (p : Property) (i : Nat) :
    i ∈ s.indices p ↔ (s.slot? i p).isSome = true := by
  rw [indices, List.mem_filter, List.mem_range, and_iff_right_iff_imp]
  intro h
  obtain ⟨c, hc⟩ := Option.isSome_iff_exists.mp h
  exact (Draft.mem_names hc).1

end SlotIndex

/-! ## Building -/

namespace Draft

/-- The encodings that building fills: those of a query, and a count of rows where the configuration asks
for one. -/
def toFill (config : Config) (encodings : List Encoding) : List Encoding :=
  encodings ++ if config.autoAddCount then [.autoCount (.wild .short) (.wild .short)] else []

theorem openCount_eq_fill (schema : Schema) (config : Config) (index : Nat) :
    openCount config index =
      (Encoding.autoCount (.wild .short) (.wild .short)).fill { index, schema, config } := by
  simp [openCount, Encoding.fill, Filling.slot, Filling.candidates, Wildcard.short, Property.defaults,
    ofChoice?]

/-- The added count is filled like any other encoding. -/
theorem fillEncodings_eq_map (schema : Schema) (config : Config) (encodings : List Encoding) :
    fillEncodings schema config encodings =
      (toFill config encodings).zipIdx.map fun x => x.1.fill { index := x.2, schema, config } := by
  rw [fillEncodings_eq, toFill, List.zipIdx_append, List.map_append]
  cases config.autoAddCount with
  | false => rfl
  | true => simp [openCount_eq_fill schema]

theorem exists_of_getElem?_fillEncodings {schema : Schema} {config : Config} {encodings : List Encoding}
    {i : Nat} {x : Encoding × OpenSlots} (h : (fillEncodings schema config encodings)[i]? = some x) :
    ∃ e ∈ toFill config encodings, x = e.fill { index := i, schema, config } := by
  rw [fillEncodings_eq_map, List.getElem?_map, List.getElem?_zipIdx, Option.map_map, Nat.zero_add] at h
  obtain ⟨e, he, rfl⟩ := Option.map_eq_some_iff.mp h
  exact ⟨e, List.mem_of_getElem? he, rfl⟩

variable {q : ChartQuery} {schema : Schema} {config : Config} {d : Draft}

namespace IsBuilt

theorem opened_of_mem (h : IsBuilt q schema config d) {opened : OpenSlots}
    (hopened : opened ∈ d.slots.encodings) : ∃ e f, opened = (Encoding.fill f e).2 := by
  rw [h.slots_eq] at hopened
  obtain ⟨x, hx, rfl⟩ := List.mem_map.mp hopened
  obtain ⟨i, hi⟩ := List.mem_iff_getElem?.mp hx
  obtain ⟨e, -, rfl⟩ := exists_of_getElem?_fillEncodings hi
  exact ⟨e, _, rfl⟩

/-- An open slot has the wildcard that its encoding has there. -/
theorem choices?_eq (h : IsBuilt q schema config d) (i : Nat) (p : Property) :
    (d.slots.slot? i p).map Candidates.toWildcard = (d.encoding? i).bind (·.choices? p) := by
  rw [SlotIndex.slot?, SlotIndex.ofEncoding, encoding?, h.query_eq, h.slots_eq, h.origin_eq]
  simp only [List.getElem?_map]
  cases hi : (fillEncodings schema config q.encodings)[i]? with
  | none => rfl
  | some x =>
    obtain ⟨e, -, rfl⟩ := exists_of_getElem?_fillEncodings hi
    simp only [Option.map_some, Option.getD_some, Option.bind_some]
    rw [e.lookup_fill_eq, e.choices?_fill, Option.map_map]
    rfl

end IsBuilt

theorem unnamed_of_mem_toFill (h : q.Unnamed) {e : Encoding} (he : e ∈ toFill config q.encodings) :
    e.Unnamed := by
  rcases List.mem_append.mp he with he | he
  · exact h.encodings e he
  · split at he
    · obtain rfl := List.mem_singleton.mp he
      intro p w hw
      cases p with
      | channel | autoCount =>
        obtain rfl := Option.some.inj hw
        rfl
      | _ => contradiction
    · contradiction

/-- A name that a query without names gets is the default name of its slot. -/
theorem name_of_unnamed (h : q.Unnamed) {i : Nat} {x : Encoding × OpenSlots}
    (hx : (fillEncodings schema config q.encodings)[i]? = some x) :
    x.2.map (fun y => y.2.name) = (x.2.map Prod.fst).map (·.slotName i) := by
  obtain ⟨e, he, rfl⟩ := exists_of_getElem?_fillEncodings hx
  have hname := (unnamed_of_mem_toFill h he).name_fill { index := i, schema, config }
  rw [List.map_map]
  exact List.map_congr_left fun y hy => hname y hy

/-- Default names never clash. -/
theorem nodup_names_of_unnamed (h : q.Unnamed) :
    (SlotIndex.names ⟨(fillMark config q.mark).2,
      (fillEncodings schema config q.encodings).map Prod.snd⟩).Nodup := by
  have hencodings : ((fillEncodings schema config q.encodings).flatMap fun x =>
      x.2.map fun y => y.2.name).Nodup := by
    refine List.pairwise_flatMap.mpr ⟨fun x hx => ?_, List.pairwise_iff_getElem.mpr ?_⟩
    · obtain ⟨i, hi⟩ := List.mem_iff_getElem?.mp hx
      obtain ⟨e, -, rfl⟩ := exists_of_getElem?_fillEncodings hi
      rw [name_of_unnamed h hi]
      exact (e.nodup_keys_fill _).map fun p r hpr => (Property.slotName_injective hpr).1
    · -- Names in two encodings differ in their numbers.
      intro i j hi hj hij n hn m hm heq
      rw [name_of_unnamed h (List.getElem?_eq_getElem hi)] at hn
      rw [name_of_unnamed h (List.getElem?_eq_getElem hj)] at hm
      obtain ⟨p, -, rfl⟩ := List.mem_map.mp hn
      obtain ⟨r, -, rfl⟩ := List.mem_map.mp hm
      exact absurd (Property.slotName_injective heq).2 (Nat.ne_of_lt hij)
  unfold SlotIndex.names
  rw [List.flatMap_map]
  refine List.nodup_append.mpr ⟨?_, hencodings, fun n hn m hm heq => ?_⟩
  · cases (fillMark config q.mark).2 <;> simp
  · obtain ⟨k, hk, rfl⟩ := Option.map_eq_some_iff.mp (Option.mem_toList.mp hn)
    have hname : k.name = Property.mark.label := by
      have hmark := h.mark
      cases hq : q.mark with
      | fixed m => rw [hq] at hk; contradiction
      | wild w =>
        rw [hq] at hk hmark
        obtain rfl := Option.some.inj hk
        rw [show w.name = none from hmark w rfl, Option.getD_none]
    obtain ⟨x, hx, hm⟩ := List.mem_flatMap.mp hm
    obtain ⟨i, hi⟩ := List.mem_iff_getElem?.mp hx
    rw [name_of_unnamed h hi] at hm
    obtain ⟨p, -, rfl⟩ := List.mem_map.mp hm
    exact Property.slotName_ne_label p .mark i (heq.symm.trans hname)

/-- A query without names can be built if its stack offset can be read. -/
theorem exists_build_of_unnamed (h : q.Unnamed) {o : Option String} (ho : q.stackOffset = .ok o) :
    ∃ d, build q schema config = .ok d := by
  have hnames := (Table.firstRepeated?_eq_none_iff [] _).mpr
    ⟨@nodup_names_of_unnamed q schema config h, fun _ _ => List.not_mem_nil⟩
  unfold build
  rw [ho]
  simp only [hnames]
  exact ⟨_, rfl⟩

/-- The index of a built draft has an entry for exactly the slots that are open in the built query, each
with the wildcard that the query has there, its name and its values filled; the numbers of the encodings
by property are those that are noted on the way, ascending; and names tell the slots apart. A query
without names can always be built if its stack offset can be read. -/
theorem slots_exact (q : ChartQuery) (schema : Schema) (config : Config) :
    (∀ d, build q schema config = .ok d →
      (∀ i p, (d.slots.slot? i p).isSome = (d.encoding? i).any (·.isOpen p)) ∧
      (∀ i p, (d.encoding? i).bind (·.choices? p) = (d.slots.slot? i p).map Candidates.toWildcard) ∧
      d.query.mark.wildcard? = d.slots.mark.map Candidates.toWildcard ∧
      (∀ opened ∈ d.slots.encodings, (opened.map Prod.fst).Nodup) ∧
      (∀ p, (d.slots.noted.lookup p).getD [] = d.slots.indices p ∧
        (d.slots.indices p).Pairwise (· < ·) ∧
        ∀ i, i ∈ d.slots.indices p ↔ (d.slots.slot? i p).isSome = true) ∧
      d.slots.names.Nodup ∧
      ∀ s t n, n ∈ d.nameAt? s → n ∈ d.nameAt? t → s = t) ∧
    (q.Unnamed → (∃ o, q.stackOffset = .ok o) → ∃ d, build q schema config = .ok d) := by
  refine ⟨fun d hd => ?_, fun hq ⟨_, ho⟩ => exists_build_of_unnamed hq ho⟩
  have hbuilt := isBuilt_of_build hd
  have hcoherent := hbuilt.coherent
  refine ⟨fun i p => ?_, fun i p => (hbuilt.choices?_eq i p).symm, ?_, fun opened hopened => ?_,
    fun p => ⟨d.slots.noted_eq_indices p, d.slots.pairwise_indices p, d.slots.mem_indices_iff p⟩,
    hbuilt.named, fun _ _ _ => hcoherent.eq_of_nameAt?⟩
  · rw [hcoherent.opened, encoding?, hbuilt.query_eq]
  · rw [hbuilt.query_eq, hcoherent.markOpened]
  · obtain ⟨e, f, rfl⟩ := hbuilt.opened_of_mem hopened
    exact e.nodup_keys_fill f

/-- A field that may be binned, a value that may be anywhere, and no names. -/
def unnamedBin : ChartQuery where
  mark := .wild .short
  encodings := [
    .field { channel := .wild .short, bin := some (.wild .short { maxbins := some (.wild .short) }),
             field := .fixed "Q", type := .fixed .quantitative },
    .value (.wild .short) (.fixed .null)]

/-- A count of rows comes third, and its switch is the only one of its kind. -/
theorem slots_exact_unnamedBin :
    let schema : Schema := ⟨[⟨"Q", .quantitative, .number, ⟨1, none, none⟩, [], []⟩], by simp, by simp⟩
    ∃ d, build unnamedBin schema { autoAddCount := true } = .ok d ∧
      d.slots.names = ["m", "c0", "b0", "mb0", "c1", "c2", "#2"] ∧ d.slots.names.Nodup ∧
      (d.slots.noted.lookup .channel).getD [] = [0, 1, 2] ∧
      (d.slots.noted.lookup .autoCount).getD [] = [2] := by
  intro schema
  obtain ⟨hexact, hbuild⟩ := slots_exact unnamedBin schema { autoAddCount := true }
  have hunnamed : unnamedBin.Unnamed := by
    refine ⟨fun w hw => ?_, fun e he p w hw => ?_⟩
    · obtain rfl := Option.some.inj hw
      rfl
    · simp only [unnamedBin, List.mem_cons, List.not_mem_nil, or_false] at he
      rcases he with rfl | rfl <;> cases p <;>
        first | contradiction | (obtain rfl := Option.some.inj hw; rfl)
  obtain ⟨d, hd⟩ := hbuild hunnamed ⟨_, rfl⟩
  obtain ⟨-, -, -, -, hindices, hnames, -⟩ := hexact d hd
  have hslots := (isBuilt_of_build hd).slots_eq
  refine ⟨d, hd, ?_, hnames, (hindices .channel).1.trans ?_, (hindices .autoCount).1.trans ?_⟩ <;>
    rw [hslots] <;> decide +kernel

end Draft
end ChartAdvisor
