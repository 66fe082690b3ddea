import ChartAdvisor.Proofs.Draft.Progress
import ChartAdvisor.Proofs.Encoding.Fitting

/-!
# Where choices come from

The mark and the fields of a draft are those of the query as it was built, or were listed for the
slot that they settle. A listed value is never refused, and a choice that was made can be taken
back, as long as the part in which the slot lies is there.
-/
namespace ChartAdvisor

/-! ## Built queries -/

/-- A mark that a query fixes or may come to use. -/
def ChartQuery.MayUseMark (q : ChartQuery) (config : Config) (m : Mark) : Prop :=
  match q.mark with
  | .fixed n => n = m
  | .wild w => m ∈ w.candidates.getD config.marks

/-- A field that a query fixes or may come to use. -/
def ChartQuery.MayUseField (q : ChartQuery) (schema : Schema) (name : String) : Prop :=
  ∃ f, Encoding.field f ∈ q.encodings ∧
    match f.field with
    | .fixed n => n = name
    | .wild w => name ∈ w.candidates.getD schema.names

/-- The values that are listed for a slot of a filled encoding. -/
theorem Encoding.listed_fill (f : Filling) (e : Encoding) :
    ∀ x ∈ (e.fill f).2, (∀ c ∈ x.2.values, x.1.takes c = true) ∧
      (x.1 = .field → ∃ q w, e = .field q ∧ q.field = .wild w ∧
        x.2.values = (w.candidates.getD f.schema.names).map .field) := by
  have top {s : Slot String} {opened : OpenSlots} (h : f.Listed s opened)
      (hnone : ∀ x ∈ opened, x.1 ≠ .field) :
      ∀ x ∈ opened, (∀ c ∈ x.2.values, x.1.takes c = true) ∧
        (x.1 = .field → ∃ q w, e = .field q ∧ q.field = .wild w ∧
          x.2.values = (w.candidates.getD f.schema.names).map .field) :=
    fun x hx => ⟨(h x hx).1, fun hf => absurd hf (hnone x hx)⟩
  have hchannel (c : Slot Channel) : ∀ x ∈ (f.slot .channel c).2, x.1 = .channel := by
    cases c with
    | fixed v => exact fun x hx => absurd hx List.not_mem_nil
    | wild w => exact fun x hx => by rw [List.mem_singleton.mp hx]
  have hflag (b : Slot Bool) : ∀ x ∈ (f.slot .autoCount b).2, x.1 = .autoCount := by
    cases b with
    | fixed v => exact fun x hx => absurd hx List.not_mem_nil
    | wild w => exact fun x hx => by rw [List.mem_singleton.mp hx]
  cases e with
  | field q =>
    intro x hx
    obtain ⟨htakes, hnames⟩ := Filling.listed_field (f := f) q x hx
    refine ⟨htakes, fun hfield => ?_⟩
    obtain ⟨w, hw, hvalues⟩ := hnames hfield
    exact ⟨q, w, rfl, hw, hvalues⟩
  | value c v =>
    exact top (s := .wild .short) (Filling.listed_slot (p := .channel) nofun (fun _ => rfl) c)
      fun x hx => by rw [hchannel c x hx]; nofun
  | autoCount c b =>
    refine top (s := .wild .short)
      ((Filling.listed_slot (p := .channel) nofun (fun _ => rfl) c).append
        (Filling.listed_slot (p := .autoCount) nofun (fun _ => rfl) b)) fun x hx => ?_
    rcases List.mem_append.mp hx with hx | hx
    · rw [hchannel c x hx]; nofun
    · rw [hflag b x hx]; nofun

/-- A field that is fixed once an encoding is filled was fixed before. -/
theorem Encoding.field_fill {f : Filling} {e : Encoding} {q : FieldEncoding}
    (h : (e.fill f).1 = .field q) : ∃ q', e = .field q' ∧ q.field = (f.slot .field q'.field).1 := by
  cases e with
  | field q' =>
    cases h
    exact ⟨q', rfl, rfl⟩
  | value | autoCount => contradiction

theorem Encoding.standing_restore_field {e o : Encoding} (h : e.kind = o.kind) :
    (e.restore o .field).standing .field = o.standing .field := by
  cases e <;> cases o <;> first | contradiction | rfl

namespace Draft

theorem listed_openCount (config : Config) (index : Nat) :
    ∀ x ∈ (openCount config index).2, (∀ c ∈ x.2.values, x.1.takes c = true) ∧ x.1 ≠ .field := by
  intro x hx
  rcases List.mem_cons.mp hx with rfl | hx
  · refine ⟨fun c hc => ?_, nofun⟩
    obtain ⟨v, -, rfl⟩ := List.mem_map.mp hc
    rfl
  · obtain rfl := List.mem_singleton.mp hx
    refine ⟨fun c hc => ?_, nofun⟩
    obtain ⟨v, -, rfl⟩ := List.mem_map.mp hc
    rfl

section Built

variable {q : ChartQuery} {schema : Schema} {config : Config} {d : Draft}

/-- A slot of a built draft is that of a filled encoding. -/
theorem IsBuilt.mem_filled (h : IsBuilt q schema config d) {i : Nat} {p : Property}
    {k : Candidates Choice} (hk : d.slots.slot? i p = some k) :
    ∃ filled ∈ fillEncodings schema config q.encodings, (p, k) ∈ filled.2 := by
  obtain ⟨hi, hmem⟩ := mem_names hk
  have hslots : ∀ opened ∈ d.slots.encodings,
      opened ∈ (fillEncodings schema config q.encodings).map Prod.snd := by
    rw [h.slots_eq]
    exact fun _ hopened => hopened
  obtain ⟨filled, hfilled, heq⟩ := List.mem_map.mp (hslots _ (List.getElem_mem hi))
  exact ⟨filled, hfilled, by rwa [heq]⟩

theorem IsBuilt.takes (h : IsBuilt q schema config d) {i : Nat} {p : Property}
    {k : Candidates Choice} (hk : d.slots.slot? i p = some k) : ∀ c ∈ k.values, p.takes c = true := by
  obtain ⟨filled, hfilled, hmem⟩ := h.mem_filled hk
  rcases mem_fillEncodings hfilled with ⟨e, -, index, rfl⟩ | rfl
  · exact (e.listed_fill _ _ hmem).1
  · exact (listed_openCount _ _ _ hmem).1

/-- A field that is listed is one that the query may use. -/
theorem IsBuilt.mayUse_of_listed (h : IsBuilt q schema config d) {i : Nat} {k : Candidates Choice}
    (hk : d.slots.slot? i .field = some k) {name : String} (hname : .field name ∈ k.values) :
    q.MayUseField schema name := by
  obtain ⟨filled, hfilled, hmem⟩ := h.mem_filled hk
  rcases mem_fillEncodings hfilled with ⟨e, he, index, rfl⟩ | rfl
  · obtain ⟨f, w, rfl, hw, hvalues⟩ := (e.listed_fill _ _ hmem).2 rfl
    refine ⟨f, he, ?_⟩
    rw [hvalues] at hname
    obtain ⟨n, hn, heq⟩ := List.mem_map.mp hname
    rw [hw]
    exact Choice.field.inj heq ▸ hn
  · exact absurd rfl (listed_openCount _ _ _ hmem).2

/-- A field that is fixed in the built query is fixed in the query. -/
theorem IsBuilt.mayUse_of_fixed (h : IsBuilt q schema config d) {f : FieldEncoding}
    (hf : .field f ∈ d.origin.encodings) {name : String} (hname : f.field = .fixed name) :
    q.MayUseField schema name := by
  rw [h.origin_eq] at hf
  obtain ⟨filled, hfilled, heq⟩ := List.mem_map.mp hf
  rcases mem_fillEncodings hfilled with ⟨e, he, index, rfl⟩ | rfl
  · obtain ⟨f', rfl, hslot⟩ := Encoding.field_fill heq
    refine ⟨f', he, ?_⟩
    rw [hname] at hslot
    cases hs : f'.field with
    | fixed n => rw [hs] at hslot; exact (Slot.fixed.inj hslot).symm
    | wild w => rw [hs] at hslot; contradiction
  · contradiction

theorem IsBuilt.mayUse_of_listedMark (h : IsBuilt q schema config d) {k : Candidates Mark}
    (hk : d.slots.mark = some k) {m : Mark} (hm : m ∈ k.values) : q.MayUseMark config m := by
  rw [h.slots_eq] at hk
  unfold ChartQuery.MayUseMark
  cases hq : q.mark with
  | fixed n => rw [hq] at hk; contradiction
  | wild w =>
    rw [hq] at hk
    obtain rfl := Option.some.inj hk
    exact hm

theorem IsBuilt.mayUse_of_fixedMark (h : IsBuilt q schema config d) {m : Mark}
    (hm : d.origin.mark = .fixed m) : q.MayUseMark config m := by
  rw [h.origin_eq] at hm
  unfold ChartQuery.MayUseMark
  cases hq : q.mark with
  | fixed n => rw [hq] at hm; exact Slot.fixed.inj hm
  | wild w => rw [hq] at hm; contradiction

end Built

/-! ## Drafts on the way -/

/-- A value that is listed for a spot. -/
def Lists (d : Draft) (s : Spot) (c : Choice) : Prop :=
  match s with
  | .mark => ∃ k, d.slots.mark = some k ∧ ∃ m ∈ k.values, c = .mark m
  | .slot i p => ∃ k, d.slots.slot? i p = some k ∧ c ∈ k.values

/-- A draft in which the mark and the fields are as they were built, or listed for their slots, and
nothing is open that was not. -/
structure Sourced (d : Draft) : Prop where
  coherent : d.Coherent
  opened : d.OpenAsBuilt
  takes : ∀ i p c, d.Lists (.slot i p) c → p.takes c = true
  mark : d.query.mark = d.origin.mark ∨ ∃ m, d.Lists .mark (.mark m) ∧ d.query.mark = .fixed m
  field : ∀ i e o, d.encoding? i = some e → d.origin.encodings[i]? = some o →
    e.standing .field = o.standing .field ∨
      ∃ name, d.Lists (.slot i .field) (.field name) ∧ e.standing .field = .decided (.field name)

/-- The part in which a spot lies is there. -/
def HasParent (d : Draft) : Spot → Prop
  | .mark => True
  | .slot i p => ∀ r, p.parent? = some r → ∀ e, d.encoding? i = some e → e.standing r ≠ .absent

theorem IsBuilt.sourced {q : ChartQuery} {schema : Schema} {config : Config} {d : Draft}
    (h : IsBuilt q schema config d) : d.Sourced where
  coherent := h.coherent
  opened i e o he ho p hp := by
    have he' : d.origin.encodings[i]? = some e := by rw [← h.query_eq]; exact he
    rwa [← Option.some.inj (he'.symm.trans ho)]
  takes i p c := fun ⟨_, hk, hc⟩ => h.takes hk c hc
  mark := .inl (congrArg ChartQuery.mark h.query_eq)
  field i e o he ho := by
    have he' : d.origin.encodings[i]? = some e := by rw [← h.query_eq]; exact he
    obtain rfl := Option.some.inj (he'.symm.trans ho)
    exact .inl rfl

theorem lists_congr {d d' : Draft} (h : d.slots = d'.slots) {s : Spot} {c : Choice}
    (hc : d.Lists s c) : d'.Lists s c := by
  cases s <;> simpa only [Lists, h] using hc

/-- What a change at one spot leaves of the source of the mark and the fields. -/
theorem Sourced.of_alikeApart {d d' : Draft} {s : Spot} (h : d.Sourced) (hd' : d'.Coherent)
    (hopened : d'.OpenAsBuilt) (hap : d.AlikeApart s d')
    (mark : s = .mark → d'.query.mark = d'.origin.mark ∨
      ∃ m, d'.Lists .mark (.mark m) ∧ d'.query.mark = .fixed m)
    (field : ∀ i e o, s = .slot i .field → d'.encoding? i = some e →
      d'.origin.encodings[i]? = some o → e.standing .field = o.standing .field ∨
        ∃ name, d'.Lists (.slot i .field) (.field name) ∧
          e.standing .field = .decided (.field name)) : d'.Sourced where
  coherent := hd'
  opened := hopened
  takes i p c hc := h.takes i p c (lists_congr hap.slots.symm hc)
  mark := by
    by_cases hs : s = .mark
    · exact mark hs
    · rw [← hap.mark hs, ← hap.origin]
      exact h.mark.imp_right fun ⟨m, hm, heq⟩ => ⟨m, lists_congr hap.slots hm, heq⟩
  field i e o he ho := by
    by_cases hs : s = .slot i .field
    · exact field i e o hs he ho
    · rw [← hap.origin] at ho
      obtain ⟨e₀, he₀, hstanding⟩ := hap.standing_of_ne hs (fun _ _ => nofun) he
      rw [← hstanding]
      exact (h.field i e₀ o he₀ ho).imp_right fun ⟨name, hname, heq⟩ =>
        ⟨name, lists_congr hap.slots hname, heq⟩

/-- The part in which a spot lies stays there when choices are made at the spot, or in other
encodings. -/
theorem HasParent.of_alikeApart {d d' : Draft} {s t : Spot} (h : d.HasParent s)
    (hap : d.AlikeApart t d') (hst : t = s ∨ ∀ i p q, s = .slot i p → t ≠ .slot i q) :
    d'.HasParent s := by
  cases s with
  | mark => trivial
  | slot i p =>
    intro r hr e he
    rcases hst with rfl | hne
    · obtain ⟨e₀, he₀, hapart⟩ := hap.symm.encoding he
      have hrp : r ≠ p := by
        rintro rfl
        rw [Property.parent?_parent? hr] at hr
        contradiction
      have htop : r.parent? ≠ some p := by
        rw [Property.parent?_parent? hr]
        nofun
      rw [Encoding.standing_of_apart hapart hrp htop]
      exact h r hr e₀ he₀
    · have hi := hap.encoding_of_ne (j := i) fun q => hne i p q rfl
      rw [he] at hi
      obtain ⟨e₀, he₀, heq⟩ := Option.map_eq_some_iff.mp hi
      rw [← Encoding.standing_congr heq]
      exact h r hr e₀ he₀

/-- A listed value of the right form is not refused at a spot of which the part is there. -/
theorem Coherent.chooseAt_eq_none {d : Draft} (h : d.Coherent) {s : Spot} {c : Choice}
    (hc : d.Lists s c) (takes : ∀ i p, s = .slot i p → p.takes c = true) (hparent : d.HasParent s) :
    (d.chooseAt s c).2 = none := by
  cases s with
  | mark =>
    obtain ⟨k, hk, m, -, rfl⟩ := hc
    rw [chooseAt_mark, setMark_eq hk]
  | slot i p =>
    obtain ⟨k, hk, hmem⟩ := hc
    obtain ⟨o, ho, hopen⟩ := h.exists_origin_of_slot? hk
    obtain ⟨e, he⟩ := h.exists_encoding ho
    have hnone := Encoding.choose_of_takes (h.kind_eq he ho) hopen (takes i p rfl)
      fun r hr => hparent r hr e he
    rw [chooseAt_slot, assign_eq hk he ho]
    rcases hchoose : e.choose o p c with ⟨after, error⟩
    rw [hchoose] at hnone
    obtain rfl : error = none := hnone
    rfl

/-- A listed value is not refused at a spot of which the part is there. -/
theorem Sourced.chooseAt_eq_none {d : Draft} (h : d.Sourced) {s : Spot} {c : Choice}
    (hc : d.Lists s c) (hparent : d.HasParent s) : (d.chooseAt s c).2 = none :=
  h.coherent.chooseAt_eq_none hc (fun i p hs => h.takes i p c (hs ▸ hc)) hparent

/-- Taking back is not refused at a spot that has a name. -/
theorem Coherent.reopenAt_eq_none {d : Draft} (h : d.Coherent) {s : Spot}
    (hs : (d.nameAt? s).isSome) : (d.reopenAt s).2 = none := by
  cases s with
  | mark => rfl
  | slot i p =>
    obtain ⟨k, hk⟩ : ∃ k, d.slots.slot? i p = some k := by
      simpa [nameAt?, Option.isSome_iff_exists] using hs
    obtain ⟨o, ho, -⟩ := h.exists_origin_of_slot? hk
    obtain ⟨e, he⟩ := h.exists_encoding ho
    rw [reopenAt_slot, reset_eq hk he ho]

theorem Sourced.chooseAt {d : Draft} (h : d.Sourced) {s : Spot} {c : Choice} (hc : d.Lists s c)
    (hn : (d.chooseAt s c).2 = none) : (d.chooseAt s c).1.Sourced := by
  have hap := alikeApart_chooseAt h.coherent hn
  refine h.of_alikeApart (h.coherent.chooseAt s c) (h.opened.chooseAt h.coherent hn) hap ?_ ?_
  · rintro rfl
    obtain ⟨k, hk, m, hm, rfl⟩ := hc
    refine .inr ⟨m, lists_congr hap.slots ⟨k, hk, m, hm, rfl⟩, ?_⟩
    rw [chooseAt_mark, setMark_eq hk]
  · rintro i e o rfl he -
    have htakes := h.takes i .field c hc
    obtain ⟨name, rfl⟩ : ∃ name, c = .field name := by
      cases c <;> first | exact ⟨_, rfl⟩ | contradiction
    refine .inr ⟨name, lists_congr hap.slots hc, ?_⟩
    obtain ⟨before, o', -, -, -, htaken, hafter⟩ := encoding_chooseAt h.coherent hn
    obtain rfl := Option.some.inj (hafter.symm.trans he)
    exact Encoding.standing_choose htaken

theorem Sourced.reopenAt {d : Draft} (h : d.Sourced) {s : Spot} (hn : (d.reopenAt s).2 = none) :
    (d.reopenAt s).1.Sourced := by
  have hap := alikeApart_reopenAt h.coherent hn
  refine h.of_alikeApart (h.coherent.reopenAt s) (h.opened.reopenAt h.coherent hn) hap ?_ ?_
  · rintro rfl
    left
    unfold Draft.reopenAt resetMark
    cases hk : d.slots.mark with
    | none =>
      rcases h.mark with heq | ⟨m, ⟨k, hk', -⟩, -⟩
      · exact heq
      · rw [hk] at hk'; contradiction
    | some k => exact (h.coherent.origin_mark_eq hk).symm
  · rintro i e o rfl he ho
    left
    obtain ⟨before, o', -, ho', hk, -, hafter⟩ := encoding_reopenAt h.coherent hn
    obtain rfl := Option.some.inj (hafter.symm.trans he)
    rw [← hap.origin] at ho
    obtain rfl := Option.some.inj (ho'.symm.trans ho)
    exact Encoding.standing_restore_field hk

end Draft
end ChartAdvisor
