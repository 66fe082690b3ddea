import ChartAdvisor.Draft.Basic
import ChartAdvisor.Proofs.Encoding.Choosing
import ChartAdvisor.Proofs.Encoding.Filling
import ChartAdvisor.Proofs.Table

/-!
# What holds of every draft

A draft that was built stays coherent whatever is chosen and taken back: its encodings keep
their kinds, and the count of a channel is the number of encodings that sit on it. This also
holds after a change that failed, which may leave an encoding half changed.
-/
namespace ChartAdvisor

/-! ## Counts -/

/-- How many of some encodings sit on a channel. -/
def occupancy (encodings : List Encoding) (c : Channel) : Nat :=
  encodings.countP (·.countedChannel? == some c)

namespace ChannelCount

@[simp]
theorem get_add (n : ChannelCount) (c d : Channel) :
    (n.add c).get d = if d = c then n.get c + 1 else n.get d := get_set _ _ _ _

@[simp]
theorem get_remove (n : ChannelCount) (c d : Channel) :
    (n.remove c).get d = if d = c then n.get c - 1 else n.get d := get_set _ _ _ _

/-- A move takes one away where the encoding was and adds one where it is. -/
theorem get_move (n : ChannelCount) (before after : Option Channel) (c : Channel)
    (h : before = some c → 0 < n.get c) :
    (n.move before after).get c + (if before = some c then 1 else 0) =
      n.get c + (if after = some c then 1 else 0) := by
  unfold move
  split
  · next hab => rw [hab]
  · next hab =>
    cases before with
    | none =>
      cases after with
      | none => simp
      | some a => by_cases ha : c = a <;> simp [ha, eq_comm]
    | some b =>
      cases after with
      | none =>
        by_cases hb : c = b
        · subst hb; have h := h rfl; simp; omega
        · simp [hb, eq_comm]
      | some a =>
        by_cases hb : c = b
        · subst hb
          have h := h rfl
          have hca : c ≠ a := fun e => hab (e ▸ rfl)
          simp [hca, hca.symm]
          omega
        · by_cases ha : c = a
          · subst ha; simp [hb, Ne.symm hb]
          · simp [hb, ha, Ne.symm hb, Ne.symm ha]

theorem get_foldl_add (channels : List Channel) (n : ChannelCount) (c : Channel) :
    (channels.foldl add n).get c = n.get c + channels.count c := by
  induction channels generalizing n with
  | nil => simp
  | cons d rest ih =>
    rw [List.foldl_cons, ih, get_add, List.count_cons]
    by_cases h : c = d
    · subst h; simp; omega
    · simp [h, Ne.symm h]

end ChannelCount

theorem occupancy_eq_count (encodings : List Encoding) (c : Channel) :
    occupancy encodings c = (encodings.filterMap Encoding.countedChannel?).count c := by
  induction encodings with
  | nil => rfl
  | cons e rest ih =>
    rw [occupancy, List.countP_cons, List.filterMap_cons]
    rw [occupancy] at ih
    cases h : e.countedChannel? with
    | none => simp [ih]
    | some d => simp [ih, List.count_cons]

theorem get_countChannels (encodings : List Encoding) (c : Channel) :
    (Draft.countChannels encodings).get c = occupancy encodings c := by
  rw [Draft.countChannels, ChannelCount.get_foldl_add, occupancy_eq_count]
  exact Nat.zero_add _

theorem occupancy_set {encodings : List Encoding} {index : Nat} {before : Encoding}
    (h : encodings[index]? = some before) (after : Encoding) (c : Channel) :
    occupancy (encodings.set index after) c + (if before.countedChannel? = some c then 1 else 0) =
      occupancy encodings c + (if after.countedChannel? = some c then 1 else 0) := by
  obtain ⟨hi, rfl⟩ := List.getElem?_eq_some_iff.mp h
  have hpos : encodings[index].countedChannel? = some c → 0 < occupancy encodings c := by
    intro he
    exact List.countP_pos_iff.mpr ⟨_, List.getElem_mem hi, by simp [he]⟩
  have hset := List.countP_set (p := fun e : Encoding => e.countedChannel? == some c)
    (l := encodings) (i := index) (a := after) hi
  unfold occupancy at hpos ⊢
  rw [hset]
  by_cases hb : encodings[index].countedChannel? = some c
  · have hpos := hpos hb
    simp only [hb, beq_self_eq_true, if_true]
    by_cases ha : after.countedChannel? = some c
    · simp only [ha, beq_self_eq_true, if_true]; omega
    · simp only [ha, beq_iff_eq, if_false]; omega
  · by_cases ha : after.countedChannel? = some c <;> simp [ha, hb]

/-- An encoding counts for its channel unless it is switched off. -/
theorem Encoding.countedChannel?_congr {e f : Encoding} (hk : e.kind = f.kind)
    (hc : e.standing .channel = f.standing .channel)
    (hb : e.standing .autoCount = f.standing .autoCount) :
    e.countedChannel? = f.countedChannel? := by
  unfold countedChannel?
  rw [isDisabledAutoCount_eq, isDisabledAutoCount_eq, channel?_eq, channel?_eq, hk, hc, hb]

theorem Encoding.assign_channel_refused {e : Encoding} {c : Choice}
    (h : (e.assign .channel c).2 ≠ none) : (e.assign .channel c).1 = e := by
  cases e with
  | field q =>
    simp only [assign, FieldEncoding.assign, FieldEncoding.settle] at h ⊢
    split <;> simp_all
  | value | autoCount =>
    simp only [assign] at h ⊢
    split <;> simp_all

theorem Encoding.assign_autoCount_refused {e : Encoding} {c : Choice}
    (h : (e.assign .autoCount c).2 ≠ none) : (e.assign .autoCount c).1 = e := by
  cases e with
  | field | value => rfl
  | autoCount =>
    simp only [assign] at h ⊢
    split <;> simp_all

/-- A choice that is refused does not move the encoding to another channel. -/
theorem Encoding.countedChannel?_choose {e o : Encoding} {p : Property} {c : Choice}
    (hk : e.kind = o.kind) (h : (e.choose o p c).2 ≠ none) :
    (e.choose o p c).1.countedChannel? = e.countedChannel? := by
  by_cases hc : p = .channel
  · subst hc
    rw [show e.choose o .channel c = e.assign .channel c from rfl] at h ⊢
    rw [assign_channel_refused h]
  · by_cases hb : p = .autoCount
    · subst hb
      rw [show e.choose o .autoCount c = e.assign .autoCount c from rfl] at h ⊢
      rw [assign_autoCount_refused h]
    · exact countedChannel?_congr (kind_choose _ _ _ _)
        (standing_choose_of_ne hk (Ne.symm hc) (by simp [Property.parent?]) c)
        (standing_choose_of_ne hk (Ne.symm hb) (by simp [Property.parent?]) c)

namespace Draft

/-- What holds of a draft whatever has been chosen and taken back. -/
structure Coherent (d : Draft) : Prop where
  kinds : d.query.encodings.map Encoding.kind = d.origin.encodings.map Encoding.kind
  counts : ∀ c, d.channelCount.get c = occupancy d.query.encodings c
  /-- The open slots are those of the query as it was built. -/
  opened : ∀ i p, (d.slots.slot? i p).isSome = (d.origin.encodings[i]?).any (·.isOpen p)
  markOpened : d.origin.mark.wildcard? = d.slots.mark.map Candidates.toWildcard
  named : d.slots.names.Nodup
  recorded : Table.Ascending d.assignment

namespace Coherent

variable {d : Draft}

theorem length_eq (h : d.Coherent) : d.query.encodings.length = d.origin.encodings.length := by
  simpa using congrArg List.length h.kinds

theorem kind_eq (h : d.Coherent) {i : Nat} {e o : Encoding} (he : d.encoding? i = some e)
    (ho : d.origin.encodings[i]? = some o) : e.kind = o.kind := by
  have hi := congrArg (·[i]?) h.kinds
  simp only [List.getElem?_map] at hi
  rw [ho, show d.query.encodings[i]? = some e from he] at hi
  simpa using hi

/-- Every encoding has a counterpart in the query as it was built. -/
theorem exists_origin (h : d.Coherent) {i : Nat} {e : Encoding} (he : d.encoding? i = some e) :
    ∃ o, d.origin.encodings[i]? = some o := by
  obtain ⟨hi, -⟩ := List.getElem?_eq_some_iff.mp (show d.query.encodings[i]? = some e from he)
  rw [h.length_eq] at hi
  exact ⟨_, List.getElem?_eq_getElem hi⟩

theorem exists_encoding (h : d.Coherent) {i : Nat} {o : Encoding}
    (ho : d.origin.encodings[i]? = some o) : ∃ e, d.encoding? i = some e := by
  obtain ⟨hi, -⟩ := List.getElem?_eq_some_iff.mp ho
  rw [← h.length_eq] at hi
  exact ⟨_, List.getElem?_eq_getElem hi⟩

/-- An open slot was open in its encoding when the draft was built. -/
theorem exists_origin_of_slot? (h : d.Coherent) {i : Nat} {p : Property} {k : Candidates Choice}
    (hk : d.slots.slot? i p = some k) : ∃ o, d.origin.encodings[i]? = some o ∧ o.isOpen p = true := by
  have hopened := h.opened i p
  rw [hk] at hopened
  exact (Option.any_eq_true _ _).mp hopened.symm

/-- An open mark was open when the draft was built. -/
theorem origin_mark_eq (h : d.Coherent) {k : Candidates Mark} (hk : d.slots.mark = some k) :
    d.origin.mark = .wild k.toWildcard := by
  have hopened := h.markOpened
  rw [hk] at hopened
  cases ho : d.origin.mark with
  | fixed m => rw [ho] at hopened; contradiction
  | wild w =>
    rw [ho] at hopened
    exact congrArg Slot.wild (Option.some.inj hopened)

end Coherent

theorem map_kind_set {encodings : List Encoding} {i : Nat} {e after : Encoding}
    (he : encodings[i]? = some e) (hk : after.kind = e.kind) :
    (encodings.set i after).map Encoding.kind = encodings.map Encoding.kind := by
  obtain ⟨hi, rfl⟩ := List.getElem?_eq_some_iff.mp he
  rw [List.map_set, hk]
  exact List.ext_getElem? fun j => by
    rw [List.getElem?_set]
    split
    · next hij => subst hij; simp [hi]
    · rfl

/-- An encoding may be changed within its kind if its channel is counted anew. -/
theorem Coherent.putEncoding {d : Draft} (h : d.Coherent) {i : Nat} {e after : Encoding}
    (he : d.encoding? i = some e) (hk : after.kind = e.kind) :
    (d.putEncoding i e after).Coherent where
  kinds := (map_kind_set he hk).trans h.kinds
  counts c := by
    have hset := occupancy_set (show d.query.encodings[i]? = some e from he) after c
    have hpos : e.countedChannel? = some c → 0 < d.channelCount.get c := by
      intro hc
      rw [h.counts]
      exact List.countP_pos_iff.mpr ⟨e, List.mem_of_getElem? he, by simp [hc]⟩
    have hmove := ChannelCount.get_move d.channelCount e.countedChannel? after.countedChannel? c hpos
    rw [h.counts] at hmove
    exact Nat.add_right_cancel (hmove.trans hset.symm)
  opened := h.opened
  markOpened := h.markOpened
  named := h.named
  recorded := h.recorded

/-- Coherence says nothing of the mark, and of the choices only how they are recorded. -/
theorem Coherent.congr {d d' : Draft} (h : d.Coherent)
    (hq : d'.query.encodings = d.query.encodings) (ho : d'.origin = d.origin)
    (hs : d'.slots = d.slots) (hc : d'.channelCount = d.channelCount)
    (ha : Table.Ascending d'.assignment) : d'.Coherent where
  kinds := by rw [hq, ho]; exact h.kinds
  counts := by rw [hq, hc]; exact h.counts
  opened := by rw [hs, ho]; exact h.opened
  markOpened := by rw [hs, ho]; exact h.markOpened
  named := by rw [hs]; exact h.named
  recorded := ha

/-- An encoding may be changed in place if it keeps its kind and its channel. -/
theorem Coherent.setEncoding {d : Draft} (h : d.Coherent) {i : Nat} {e after : Encoding}
    (he : d.encoding? i = some e) (hk : after.kind = e.kind)
    (hc : after.countedChannel? = e.countedChannel?) :
    { d with query := { d.query with encodings := d.query.encodings.set i after } }.Coherent := by
  refine (h.putEncoding he hk).congr rfl rfl rfl ?_ h.recorded
  unfold Draft.putEncoding ChannelCount.move
  rw [hc, if_pos rfl]

theorem slotName_eq {d : Draft} {i : Nat} {p : Property} {s : Candidates Choice} {e : Encoding}
    (hs : d.slots.slot? i p = some s) (he : d.encoding? i = some e) :
    d.slotName i p = .ok s.name := by
  obtain ⟨hi, -⟩ := List.getElem?_eq_some_iff.mp (show d.query.encodings[i]? = some e from he)
  unfold slotName
  rw [if_neg (Nat.not_le.mpr hi), hs]

/-- Choosing a value, by the encoding that is changed. -/
theorem assign_eq {d : Draft} {i : Nat} {p : Property} {s : Candidates Choice} {e o : Encoding}
    (hs : d.slots.slot? i p = some s) (he : d.encoding? i = some e)
    (ho : d.origin.encodings[i]? = some o) (c : Choice) :
    d.assign i p c =
      match e.choose o p c with
      | (after, some error) =>
        ({ d with query := { d.query with encodings := d.query.encodings.set i after } }, some error)
      | (after, none) =>
        ({ d.putEncoding i e after with assignment := Table.insert s.name c d.assignment }, none) := by
  unfold Draft.assign
  rw [slotName_eq hs he, he, ho]
  unfold Encoding.choose
  cases p.holdsSettings <;> rfl

/-- Taking a choice back, by the encoding that is changed. -/
theorem reset_eq {d : Draft} {i : Nat} {p : Property} {s : Candidates Choice} {e o : Encoding}
    (hs : d.slots.slot? i p = some s) (he : d.encoding? i = some e)
    (ho : d.origin.encodings[i]? = some o) :
    d.reset i p = ({ d.putEncoding i e (e.restore o p) with
      assignment := Table.erase s.name d.assignment }, none) := by
  unfold Draft.reset
  rw [slotName_eq hs he, he, ho]

/-- A name is refused unless there is an encoding with an open slot for it. -/
theorem slotName_cases (d : Draft) (i : Nat) (p : Property) :
    (∃ s e, d.slots.slot? i p = some s ∧ d.encoding? i = some e) ∨
      ∃ error, d.slotName i p = .error error := by
  unfold slotName
  split
  · exact .inr ⟨_, rfl⟩
  · next hi =>
    have he := List.getElem?_eq_getElem (Nat.not_le.mp hi)
    cases hs : d.slots.slot? i p with
    | none => exact .inr ⟨_, rfl⟩
    | some s => exact .inl ⟨s, _, rfl, he⟩

theorem Coherent.assign {d : Draft} (h : d.Coherent) (i : Nat) (p : Property) (c : Choice) :
    (d.assign i p c).1.Coherent := by
  rcases d.slotName_cases i p with ⟨s, e, hs, he⟩ | ⟨error, hn⟩
  · obtain ⟨o, ho⟩ := h.exists_origin he
    have hk := h.kind_eq he ho
    rw [assign_eq hs he ho]
    rcases hc : e.choose o p c with ⟨after, _ | error⟩
    · have hka : after.kind = e.kind := by rw [← Encoding.kind_choose e o p c, hc]
      exact (h.putEncoding he hka).congr rfl rfl rfl rfl (h.recorded.insert _ _)
    · have hka : after.kind = e.kind := by rw [← Encoding.kind_choose e o p c, hc]
      have hcc := Encoding.countedChannel?_choose (c := c) (p := p) hk (by rw [hc]; exact nofun)
      rw [hc] at hcc
      exact h.setEncoding he hka hcc
  · unfold Draft.assign
    rw [hn]
    exact h

theorem Coherent.reset {d : Draft} (h : d.Coherent) (i : Nat) (p : Property) :
    (d.reset i p).1.Coherent := by
  rcases d.slotName_cases i p with ⟨s, e, hs, he⟩ | ⟨error, hn⟩
  · obtain ⟨o, ho⟩ := h.exists_origin he
    rw [reset_eq hs he ho]
    exact (h.putEncoding he (Encoding.kind_restore e o p)).congr rfl rfl rfl rfl
      (h.recorded.erase _)
  · unfold Draft.reset
    rw [hn]
    exact h

theorem Coherent.setMark {d : Draft} (h : d.Coherent) (m : Mark) : (d.setMark m).1.Coherent := by
  unfold Draft.setMark
  split
  · exact h
  · exact h.congr rfl rfl rfl rfl (h.recorded.insert _ _)

theorem Coherent.resetMark {d : Draft} (h : d.Coherent) : d.resetMark.Coherent := by
  unfold Draft.resetMark
  split
  · exact h
  · exact h.congr rfl rfl rfl rfl (h.recorded.erase _)

/-! ## What no choice touches -/

/-- A choice in an encoding leaves the mark and the query as it was built alone. -/
theorem assign_frame (d : Draft) (i : Nat) (p : Property) (c : Choice) :
    (d.assign i p c).1.origin = d.origin ∧ (d.assign i p c).1.query.mark = d.query.mark := by
  unfold Draft.assign
  split
  · exact ⟨rfl, rfl⟩
  · exact ⟨rfl, rfl⟩
  · simp only
    split
    · exact ⟨rfl, rfl⟩
    · exact ⟨rfl, rfl⟩

theorem reset_frame (d : Draft) (i : Nat) (p : Property) :
    (d.reset i p).1.origin = d.origin ∧ (d.reset i p).1.query.mark = d.query.mark := by
  unfold Draft.reset
  split
  · exact ⟨rfl, rfl⟩
  · exact ⟨rfl, rfl⟩
  · exact ⟨rfl, rfl⟩

/-! ## Built drafts -/

/-- A draft as it comes out of building: nothing chosen yet. -/
structure IsBuilt (q : ChartQuery) (schema : Schema) (config : Config) (d : Draft) : Prop where
  query_eq : d.query = d.origin
  origin_eq : d.origin = { q with
    mark := (fillMark config q.mark).1
    encodings := (fillEncodings schema config q.encodings).map Prod.fst }
  slots_eq : d.slots =
    ⟨(fillMark config q.mark).2, (fillEncodings schema config q.encodings).map Prod.snd⟩
  count_eq : d.channelCount = countChannels d.origin.encodings
  assignment_eq : d.assignment = []
  named : d.slots.names.Nodup

theorem isBuilt_of_build {q : ChartQuery} {schema : Schema} {config : Config} {d : Draft}
    (h : build q schema config = .ok d) : IsBuilt q schema config d := by
  unfold build at h
  split at h
  · contradiction
  · simp only at h
    split at h
    · contradiction
    · next hn =>
      cases h
      exact ⟨rfl, rfl, rfl, rfl, rfl, ((Table.firstRepeated?_eq_none_iff _ _).mp hn).1⟩

/-- The encodings are filled one by one, each with its number, and a count of rows may follow them. -/
theorem fillEncodings_eq (schema : Schema) (config : Config) (encodings : List Encoding) :
    fillEncodings schema config encodings =
      (encodings.zipIdx.map fun x => x.1.fill { index := x.2, schema, config }) ++
        if config.autoAddCount then [openCount config encodings.length] else [] := by
  cases hauto : config.autoAddCount <;> simp [fillEncodings, hauto]

/-- A filled encoding comes of one of the query, or is the added count of rows. -/
theorem mem_fillEncodings {schema : Schema} {config : Config} {encodings : List Encoding}
    {filled : Encoding × OpenSlots} (h : filled ∈ fillEncodings schema config encodings) :
    (∃ e ∈ encodings, ∃ index, e.fill { index, schema, config } = filled) ∨
      filled = openCount config encodings.length := by
  rw [fillEncodings_eq] at h
  rcases List.mem_append.mp h with hm | hm
  · obtain ⟨x, hx, heq⟩ := List.mem_map.mp hm
    exact .inl ⟨x.1, List.fst_mem_of_mem_zipIdx hx, x.2, heq⟩
  · split at hm
    · exact .inr (List.mem_singleton.mp hm)
    · contradiction

/-- Exactly the open slots of the filled encodings are listed. -/
theorem lookup_fillEncodings {schema : Schema} {config : Config} {encodings : List Encoding}
    {e : Encoding} {opened : OpenSlots} (h : (e, opened) ∈ fillEncodings schema config encodings)
    (p : Property) : (opened.lookup p).isSome = e.isOpen p := by
  rcases mem_fillEncodings h with ⟨e', -, index, heq⟩ | heq
  · have h' := e'.lookup_fill { index, schema, config } p
    rwa [heq] at h'
  · obtain ⟨rfl, rfl⟩ := Prod.mk.inj heq
    cases p <;> rfl

namespace IsBuilt

variable {q : ChartQuery} {schema : Schema} {config : Config} {d : Draft}

theorem slot?_isSome (h : IsBuilt q schema config d) (i : Nat) (p : Property) :
    (d.slots.slot? i p).isSome = (d.origin.encodings[i]?).any (·.isOpen p) := by
  rw [SlotIndex.slot?, SlotIndex.ofEncoding, h.slots_eq, h.origin_eq]
  simp only [List.getElem?_map]
  cases hi : (fillEncodings schema config q.encodings)[i]? with
  | none => rfl
  | some f => exact lookup_fillEncodings (List.mem_of_getElem? hi) p

theorem coherent (h : IsBuilt q schema config d) : d.Coherent where
  kinds := by rw [h.query_eq]
  counts c := by rw [h.count_eq, get_countChannels, h.query_eq]
  opened := h.slot?_isSome
  markOpened := by
    rw [h.slots_eq, h.origin_eq]
    cases q.mark <;> rfl
  named := h.named
  recorded := by rw [h.assignment_eq]; exact List.Pairwise.nil

end IsBuilt

/-- A draft that comes from a built one by choosing and taking back, whether that succeeds or
fails. -/
inductive Derived (d₀ : Draft) : Draft → Prop
  | refl : Derived d₀ d₀
  | assign {d : Draft} (h : Derived d₀ d) (i : Nat) (p : Property) (c : Choice) :
    Derived d₀ (d.assign i p c).1
  | reset {d : Draft} (h : Derived d₀ d) (i : Nat) (p : Property) : Derived d₀ (d.reset i p).1
  | setMark {d : Draft} (h : Derived d₀ d) (m : Mark) : Derived d₀ (d.setMark m).1
  | resetMark {d : Draft} (h : Derived d₀ d) : Derived d₀ d.resetMark

theorem Derived.coherent {d₀ d : Draft} (h : Derived d₀ d) (h₀ : d₀.Coherent) : d.Coherent := by
  induction h with
  | refl => exact h₀
  | assign _ i p c ih => exact ih.assign i p c
  | reset _ i p ih => exact ih.reset i p
  | setMark _ m ih => exact ih.setMark m
  | resetMark _ ih => exact ih.resetMark

end Draft
end ChartAdvisor
