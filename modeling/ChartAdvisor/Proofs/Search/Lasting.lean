import ChartAdvisor.Proofs.Encoding.Nulls
import ChartAdvisor.Proofs.Search.Failure

/-!
# What a search keeps of encodings

A property of encodings that no choice ends, and no taking back, holds of every encoding of what a
search finds, if it holds of those from which it starts. Scales without nulls are such a property.
-/
namespace ChartAdvisor

/-- A property of encodings that neither choices nor their taking back end. -/
structure Encoding.Lasting (P : Encoding → Prop) : Prop where
  assign : ∀ e p c, P e → P (e.assign p c).1
  restore : ∀ e o p, P e → P o → P (e.restore o p)

theorem Encoding.Lasting.choose {P : Encoding → Prop} (h : Lasting P) {e o : Encoding} (p : Property)
    (c : Choice) (he : P e) (ho : P o) : P (e.choose o p c).1 := by
  unfold Encoding.choose
  split
  · exact h.assign _ p c (h.restore e o p he ho)
  · exact h.assign e p c he

namespace Draft

variable {P : Encoding → Prop} {ctx : Context} {d d₀ : Draft}

/-- Every encoding has a property, and had it when the draft was built. -/
structure Throughout (P : Encoding → Prop) (d : Draft) : Prop where
  query : ∀ e ∈ d.query.encodings, P e
  origin : ∀ o ∈ d.origin.encodings, P o

theorem Throughout.putEncoding (h : d.Throughout P) {e : Encoding} (he : P e) (i : Nat)
    (before : Encoding) : ∀ a ∈ (d.putEncoding i before e).query.encodings, P a := by
  intro a ha
  rcases List.mem_or_eq_of_mem_set ha with ha | rfl
  · exact h.query a ha
  · exact he

theorem Throughout.chooseAt (h : d.Throughout P) (lasting : Encoding.Lasting P) (hd : d.Coherent)
    {s : Spot} {c : Choice} (hn : (d.chooseAt s c).2 = none) : (d.chooseAt s c).1.Throughout P where
  query := by
    cases s with
    | mark =>
      rw [encodings_chooseAt_mark]
      exact h.query
    | slot i p =>
      obtain ⟨k, e, o, after, -, he, ho, hchoose, heq⟩ := assign_eq_none hd hn
      have hafter := lasting.choose p c (h.query e (List.mem_of_getElem? he))
        (h.origin o (List.mem_of_getElem? ho))
      rw [hchoose] at hafter
      rw [chooseAt_slot, heq]
      exact h.putEncoding hafter i e
  origin := (alikeApart_chooseAt hd hn).origin ▸ h.origin

theorem Throughout.reopenAt (h : d.Throughout P) (lasting : Encoding.Lasting P) (hd : d.Coherent)
    {s : Spot} (hn : (d.reopenAt s).2 = none) : (d.reopenAt s).1.Throughout P where
  query := by
    cases s with
    | mark =>
      rw [encodings_reopenAt_mark]
      exact h.query
    | slot i p =>
      obtain ⟨k, e, o, -, he, ho, heq⟩ := reset_eq_none hd hn
      have hafter := lasting.restore e o p (h.query e (List.mem_of_getElem? he))
        (h.origin o (List.mem_of_getElem? ho))
      rw [reopenAt_slot, heq]
      exact h.putEncoding hafter i e
  origin := (alikeApart_reopenAt hd hn).origin ▸ h.origin

theorem Throughout.walk (lasting : Encoding.Lasting P) (p : Property)
    (h : ComesOf d₀ d ∧ d.Throughout P) :
    Ends ctx (fun f => ComesOf d₀ f ∧ f.Throughout P) (d.walk ctx p) := by
  rw [walk_eq_walkSpots]
  refine walkSpots_ends ctx (hosts_spots d p) (fun _ hf => hf.1.sourced) (fun s hs f hf => ?_)
    (fun s _ c f hf hc hn => ⟨hf.1.chooseAt hc hn, hf.2.chooseAt lasting hf.1.sourced.coherent hn⟩)
    (fun s _ f hf hn => ⟨hf.1.reopenAt hn, hf.2.reopenAt lasting hf.1.sourced.coherent hn⟩) h
  exact named_of_mem_spots (by rwa [spots_congr (hf.1.slots.trans h.1.slots.symm)])

/-- What every encoding has stays with every encoding along a run. -/
theorem Run.throughout {Keeps : Spot → Draft → Prop} {spots : List Spot} (lasting : Encoding.Lasting P)
    (h : Run Keeps spots d₀ d) (hd : d₀.Coherent) (h₀ : d₀.Throughout P) : d.Throughout P :=
  (h.preserves (P := fun e => e.Coherent ∧ e.Throughout P)
    (fun s _ c _ ⟨hc, he⟩ _ taken => ⟨hc.chooseAt s c, he.chooseAt lasting hc taken⟩) ⟨hd, h₀⟩).2

/-- What every filled encoding has, every encoding of a built draft has. -/
theorem IsBuilt.throughout {q : ChartQuery} {schema : Schema} {config : Config}
    (h : IsBuilt q schema config d)
    (filled : ∀ e ∈ q.encodings, ∀ index, P (e.fill { index, schema, config }).1)
    (count : P (openCount config q.encodings.length).1) : d.Throughout P := by
  have horigin : ∀ e ∈ d.origin.encodings, P e := by
    intro e he
    rw [h.origin_eq] at he
    obtain ⟨slots, hslots, rfl⟩ := List.mem_map.mp he
    rcases mem_fillEncodings hslots with ⟨e, hmem, index, rfl⟩ | rfl
    · exact filled e hmem index
    · exact count
  exact ⟨h.query_eq ▸ horigin, horigin⟩

end Draft

/-! ## Nulls -/

theorem Scale.NullFree.put {s o : Scale} (h : s.NullFree) (ho : o.NullFree) (p : ScaleProperty) :
    (s.restore o p).NullFree := by
  cases p with
  | domain => exact ⟨ho.1, h.2⟩
  | range => exact ⟨h.1, ho.2⟩
  | _ => exact h

theorem FieldEncoding.NullFree.put {q o : FieldEncoding} (h : q.NullFree) (ho : o.NullFree)
    (p : Property) : (q.restore o p).NullFree := by
  cases p with
  | scale => exact ho
  | scaleOf part =>
    simp only [FieldEncoding.restore]
    split
    · next t ht => exact .mapInner fun s hs => (h s hs).put (ho t ht) part
    · exact h
  | _ => exact h

/-- No choice brings in a null. -/
theorem Encoding.lasting_nullFree : Lasting NullFree where
  assign e p c h := h.assign p c
  restore e o p h ho := by
    cases e with
    | field q =>
      cases o with
      | field o =>
        rw [restore_field]
        exact (nullFree_field _).mpr (((nullFree_field q).mp h).put ((nullFree_field o).mp ho) p)
      | value | autoCount =>
        have hq := (nullFree_field q).mp h
        cases p <;> exact (nullFree_field _).mpr (hq.of_scale rfl)
    | value | autoCount => exact .of_kind (by rw [kind_restore]; nofun)

theorem Filling.slot?_ne_null {f : Filling} {p : Property} {s : Option (Slot Json)}
    (h : s ≠ some (.fixed .null)) : (f.slot? p s).1 ≠ some (.fixed .null) := by
  rcases s with _ | v | w
  · nofun
  · exact h
  · nofun

/-- Filling brings in no null. -/
theorem Encoding.NullFree.fill {e : Encoding} (h : e.NullFree) (f : Filling) : (e.fill f).1.NullFree := by
  cases e with
  | field q =>
    refine (nullFree_field _).mpr fun s hs => ?_
    have hscale : (f.field q).1.scale? = q.scale?.map fun s => (f.scale s).1 :=
      f.inner?_toggle .scale f.scale q.scale
    obtain ⟨t, ht, rfl⟩ := Option.map_eq_some_iff.mp (hscale ▸ hs)
    obtain ⟨hdomain, hrange⟩ := (nullFree_field q).mp h t ht
    have hget (part : ScaleProperty) (hm : part ∈ Property.scaleParts) :=
      (f.get_scaleParts Property.scaleParts (by decide) t part).trans (if_pos hm)
    refine ⟨fun hnull => ?_, fun hnull => ?_⟩
    · exact Filling.slot?_ne_null hdomain ((hget .domain (by decide)).symm.trans hnull)
    · exact Filling.slot?_ne_null hrange ((hget .range (by decide)).symm.trans hnull)
  | value | autoCount => exact .of_kind nofun

end ChartAdvisor
