import ChartAdvisor.Proofs.Encoding.Filling
import ChartAdvisor.Proofs.Pointwise

/-!
# Other values for an open slot

An open slot can be given other values to try. Rules do not see the difference, and filling lists the
values in place of those that were there.
-/
namespace ChartAdvisor

variable {α : Type} {choices : List Choice}

/-! ## Slots -/

/-- The same open place with other values to try. -/
def Wildcard.offering [Choosable α] (w : Wildcard α) (choices : List Choice) : Wildcard α :=
  { w with candidates := some (choices.filterMap ofChoice?) }

/-- Some choices are among the candidates that a wildcard lists. -/
def Wildcard.Admits (w : Wildcard Choice) (choices : List Choice) : Prop :=
  ∃ all ∈ w.candidates, ∀ c ∈ choices, c ∈ all

namespace Slot

variable [Choosable α]

/-- A slot with other values to try, if it is open. -/
def offering (s : Slot α) (choices : List Choice) : Slot α :=
  match s with
  | fixed v => fixed v
  | wild w => wild (w.offering choices)

@[simp]
theorem standing_offering (s : Slot α) (choices : List Choice) :
    Standing.ofSlot (s.offering choices) = Standing.ofSlot s := by
  cases s <;> rfl

@[simp]
theorem standing?_offering (s : Option (Slot α)) (choices : List Choice) :
    Standing.ofSlot? (s.map (·.offering choices)) = Standing.ofSlot? s := by
  cases s with
  | none => rfl
  | some s => exact standing_offering s choices

end Slot

namespace Toggle

/-- A part with other values to try for its switch, if that is open. -/
def offering (t : Toggle α) (choices : List Choice) : Toggle α :=
  match t with
  | wild w t => wild (w.offering choices) t
  | t => t

@[simp]
theorem standing_offering (t : Option (Toggle α)) (choices : List Choice) :
    Standing.ofToggle (t.map (·.offering choices)) = Standing.ofToggle t := by
  rcases t with _ | _ | _ | _ <;> rfl

@[simp]
theorem inner?_offering (t : Option (Toggle α)) (choices : List Choice) :
    (t.map (·.offering choices)).bind inner? = t.bind inner? := by
  rcases t with _ | _ | _ | _ <;> rfl

theorem filter_isPresent_offering (t : Option (Toggle α)) (choices : List Choice) :
    (t.map (·.offering choices)).filter isPresent = (t.filter isPresent).map (·.offering choices) := by
  rcases t with _ | _ | _ | _ <;> rfl

theorem filter_isPresent_mapInner (t : Option (Toggle α)) (g : α → α) :
    (t.map (·.mapInner g)).filter isPresent = (t.filter isPresent).map (·.mapInner g) := by
  rcases t with _ | _ | _ | _ <;> rfl

/-- The switch of a part that is off for good is not open. -/
theorem choices?_filter_isPresent (t : Option (Toggle α)) :
    (t.filter isPresent).bind (·.flag.choices?) = t.bind (·.flag.choices?) := by
  rcases t with _ | _ | _ | _ <;> rfl

end Toggle

/-! ## Encodings -/

def Bin.offering (b : Bin) (choices : List Choice) : Bin :=
  { b with maxbins := b.maxbins.map (·.offering choices) }

def Scale.offering (s : Scale) (part : ScaleProperty) (choices : List Choice) : Scale :=
  s.put part ((s.get part).map (·.offering choices))

/-- A field encoding with other values to try for a property, if that is open. -/
def FieldEncoding.offering (q : FieldEncoding) (p : Property) (choices : List Choice) : FieldEncoding :=
  match p with
  | .channel => { q with channel := q.channel.offering choices }
  | .aggregate => { q with aggregate := q.aggregate.offering choices }
  | .timeUnit => { q with timeUnit := q.timeUnit.offering choices }
  | .field => { q with field := q.field.offering choices }
  | .type => { q with type := q.type.offering choices }
  | .sort => { q with sort := q.sort.map (·.offering choices) }
  | .bin => { q with bin := q.bin.map (·.offering choices) }
  | .scale => { q with scale := q.scale.map (·.offering choices) }
  | .axis => { q with axis := q.axis.map (·.offering choices) }
  | .legend => { q with legend := q.legend.map (·.offering choices) }
  | .maxBins => { q with bin := q.bin.map (·.mapInner (·.offering choices)) }
  | .scaleOf part => { q with scale := q.scale.map (·.mapInner (·.offering part choices)) }
  | _ => q

/-- An encoding with other values to try for a property, if that is open. -/
def Encoding.offering (e : Encoding) (p : Property) (choices : List Choice) : Encoding :=
  match e, p with
  | field q, p => field (q.offering p choices)
  | value c v, .channel => value (c.offering choices) v
  | autoCount c b, .channel => autoCount (c.offering choices) b
  | autoCount c b, .autoCount => autoCount c (b.offering choices)
  | e, _ => e

theorem ScaleProperty.ofChoice?_toChoice (part : ScaleProperty) (v : part.Value) :
    ofChoice? (toChoice v) = some v := by
  cases part <;> rfl

/-! ## The same values -/

section Same

variable {w : Wildcard Choice}

/-- An open slot that is given the values that it lists stays as it is. -/
theorem Slot.offering_self [Choosable α] {s : Slot α} (back : ∀ v : α, ofChoice? (toChoice v) = some v)
    (hs : s.choices? = some w) (hw : w.candidates = some choices) : s.offering choices = s := by
  cases s with
  | fixed v => rfl
  | wild u =>
    obtain rfl := Option.some.inj hs
    obtain ⟨vs, hvs, rfl⟩ := Option.map_eq_some_iff.mp hw
    have hread : (vs.map toChoice).filterMap (ofChoice? : Choice → Option α) = vs := by
      rw [List.filterMap_map, show ofChoice? ∘ toChoice = some from funext back, List.filterMap_some]
    rw [offering, Wildcard.offering, hread, ← hvs]

theorem Slot.map_offering_self [Choosable α] {s : Option (Slot α)}
    (back : ∀ v : α, ofChoice? (toChoice v) = some v) (hs : s.bind Slot.choices? = some w)
    (hw : w.candidates = some choices) : s.map (·.offering choices) = s := by
  cases s with
  | none => rfl
  | some s => exact congrArg some (offering_self back hs hw)

theorem Toggle.map_offering_self {t : Option (Toggle α)} (ht : t.bind (·.flag.choices?) = some w)
    (hw : w.candidates = some choices) : t.map (·.offering choices) = t := by
  rcases t with _ | _ | _ | ⟨u, a⟩
  · rfl
  · rfl
  · rfl
  · have hslot := Slot.offering_self (s := .wild u) (fun _ => rfl) ht hw
    exact congrArg (fun u => some (wild u a)) (Slot.wild.inj hslot)

theorem Toggle.map_mapInner_self {g : α → α} {t : Option (Toggle α)}
    (hg : ∀ a ∈ t.bind Toggle.inner?, g a = a) : t.map (·.mapInner g) = t := by
  rcases t with _ | _ | a | ⟨u, a⟩
  · rfl
  · rfl
  · exact congrArg (fun a => some (on a)) (hg a rfl)
  · exact congrArg (fun a => some (wild u a)) (hg a rfl)

theorem FieldEncoding.offering_self {q : FieldEncoding} {p : Property} (hq : q.choices? p = some w)
    (hw : w.candidates = some choices) : q.offering p choices = q := by
  cases p with
  | channel | aggregate | timeUnit | field | type =>
    rw [offering, Slot.offering_self (fun _ => rfl) hq hw]
  | sort => rw [offering, Slot.map_offering_self (fun _ => rfl) hq hw]
  | bin | scale | axis | legend => rw [offering, Toggle.map_offering_self hq hw]
  | maxBins =>
    rw [offering, Toggle.map_mapInner_self fun b hb => ?_]
    have hslot : b.maxbins.bind Slot.choices? = some w := by
      rw [← hq, choices?, bin?, Option.mem_def.mp hb, Option.bind_some]
    rw [Bin.offering, Slot.map_offering_self (fun _ => rfl) hslot hw]
  | scaleOf part =>
    rw [offering, Toggle.map_mapInner_self fun s hs => ?_]
    have hslot : (s.get part).bind Slot.choices? = some w := by
      rw [← hq, choices?, scale?, Option.mem_def.mp hs, Option.bind_some, Scale.choices?]
    rw [Scale.offering, Slot.map_offering_self part.ofChoice?_toChoice hslot hw, Scale.put_get]
  | _ => contradiction

theorem Encoding.offering_self {e : Encoding} {p : Property} (he : e.choices? p = some w)
    (hw : w.candidates = some choices) : e.offering p choices = e := by
  cases e with
  | field q => exact congrArg field (q.offering_self he hw)
  | value c v =>
    cases p with
    | channel => rw [offering, Slot.offering_self (fun _ => rfl) he hw]
    | _ => contradiction
  | autoCount c b =>
    cases p with
    | channel => rw [offering, Slot.offering_self (fun _ => rfl) he hw]
    | autoCount => rw [offering, Slot.offering_self (fun _ => rfl) he hw]
    | _ => contradiction

end Same

/-! ## Open slots -/

theorem Slot.isSome_choices? [Choosable α] (s : Slot α) : s.choices?.isSome = s.isOpen := by
  cases s <;> rfl

theorem Slot.isSome_bind_choices? [Choosable α] (s : Option (Slot α)) :
    (s.bind choices?).isSome = s.any isOpen := by
  cases s with
  | none => rfl
  | some s => exact s.isSome_choices?

theorem Toggle.isSome_bind_choices? (t : Option (Toggle α)) :
    (t.bind (·.flag.choices?)).isSome = t.any isOpen := by
  rcases t with _ | _ | _ | _ <;> rfl

theorem FieldEncoding.isSome_choices? (q : FieldEncoding) (p : Property) :
    (q.choices? p).isSome = q.isOpen p := by
  cases p with
  | channel | aggregate | timeUnit | field | type => exact Slot.isSome_choices? _
  | sort | maxBins => exact Slot.isSome_bind_choices? _
  | bin | scale | axis | legend => exact Toggle.isSome_bind_choices? _
  | scaleOf part =>
    rw [choices?, isOpen]
    cases q.scale? with
    | none => rfl
    | some s => exact Slot.isSome_bind_choices? (s.get part)
  | _ => rfl

/-- An encoding has candidates for a property while that is open. -/
theorem Encoding.isSome_choices? (e : Encoding) (p : Property) : (e.choices? p).isSome = e.isOpen p := by
  cases e with
  | field q => exact q.isSome_choices? p
  | value c v => cases p <;> simp [choices?, isOpen, Slot.isSome_choices?]
  | autoCount c b => cases p <;> simp [choices?, isOpen, Slot.isSome_choices?]

/-! ## What rules see -/

theorem Scale.standing_offering (s : Scale) (part r : ScaleProperty) (choices : List Choice) :
    Standing.ofSlot? ((s.offering part choices).get r) = Standing.ofSlot? (s.get r) := by
  by_cases h : r = part
  · subst h
    rw [offering, get_put, Slot.standing?_offering]
  · rw [offering, get_put_of_ne _ h]

/-- Other values to try change nothing that rules see. -/
theorem FieldEncoding.standing_offering (q : FieldEncoding) (p r : Property) (choices : List Choice) :
    (q.offering p choices).standing r = q.standing r := by
  cases p with
  | maxBins =>
    cases r with
    | bin => exact Toggle.standing_map_mapInner _ _
    | maxBins =>
      simp only [standing, bin?, offering, Toggle.bind_inner?_map_mapInner]
      cases q.bin.bind Toggle.inner? with
      | none => rfl
      | some b => exact Slot.standing?_offering _ _
    | _ => rfl
  | scaleOf part =>
    cases r with
    | scale => exact Toggle.standing_map_mapInner _ _
    | scaleOf r =>
      simp only [standing, scale?, offering, Toggle.bind_inner?_map_mapInner]
      cases q.scale.bind Toggle.inner? with
      | none => rfl
      | some s => exact s.standing_offering part r choices
    | _ => rfl
  | _ => cases r <;> simp [standing, offering, bin?, scale?]

theorem Encoding.kind_offering (e : Encoding) (p : Property) (choices : List Choice) :
    (e.offering p choices).kind = e.kind := by
  cases e <;> cases p <;> rfl

theorem Encoding.standing_offering (e : Encoding) (p r : Property) (choices : List Choice) :
    (e.offering p choices).standing r = e.standing r := by
  cases e with
  | field q => exact q.standing_offering p r choices
  | value | autoCount => cases p <;> simp [offering, standing]

/-! ## Filling -/

namespace Filling

variable (f : Filling)

@[simp]
theorem standing_slot [Choosable α] (p : Property) (s : Slot α) :
    Standing.ofSlot (f.slot p s).1 = Standing.ofSlot s := by
  cases s <;> rfl

@[simp]
theorem standing_slot? [Choosable α] (p : Property) (s : Option (Slot α)) :
    Standing.ofSlot? (f.slot? p s).1 = Standing.ofSlot? s := by
  cases s with
  | none => rfl
  | some s => exact f.standing_slot p s

@[simp]
theorem standing_toggle (p : Property) (inner : α → α × OpenSlots) (t : Option (Toggle α)) :
    Standing.ofToggle (f.toggle p inner t).1 = Standing.ofToggle t := by
  rcases t with _ | _ | _ | _ <;> rfl

theorem standing_filter_isPresent (t : Option (Toggle α)) :
    Standing.ofToggle (t.filter Toggle.isPresent) = Standing.ofToggle t := by
  rcases t with _ | _ | _ | _ <;> rfl

theorem standing_scale (s : Scale) (part : ScaleProperty) :
    Standing.ofSlot? ((f.scale s).1.get part) = Standing.ofSlot? (s.get part) := by
  have hm : part ∈ Property.scaleParts := by cases part <;> decide
  rw [scale, get_scaleParts f _ (by decide), if_pos hm, standing_slot?]

/-- Filling changes nothing that rules see. -/
theorem standing_field (q : FieldEncoding) (p : Property) : (f.field q).1.standing p = q.standing p := by
  cases p with
  | maxBins =>
    simp only [FieldEncoding.standing, FieldEncoding.bin?, field, inner?_toggle, inner?_filter_isPresent]
    cases q.bin.bind Toggle.inner? with
    | none => rfl
    | some b => exact f.standing_slot? _ _
  | scaleOf part =>
    simp only [FieldEncoding.standing, FieldEncoding.scale?, field, inner?_toggle]
    cases q.scale.bind Toggle.inner? with
    | none => rfl
    | some s => exact f.standing_scale s part
  | bin => simp only [FieldEncoding.standing, field, standing_toggle, standing_filter_isPresent]
  | _ => simp [FieldEncoding.standing, field]

end Filling

theorem Encoding.kind_fill (f : Filling) (e : Encoding) : (e.fill f).1.kind = e.kind := by
  cases e <;> rfl

theorem Encoding.standing_fill (f : Filling) (e : Encoding) (p : Property) :
    (e.fill f).1.standing p = e.standing p := by
  cases e with
  | field q => exact f.standing_field q p
  | value | autoCount => simp [fill, standing]

/-! ## Listed values -/

namespace OpenSlots

variable {slots : OpenSlots} {p : Property}

/-- Open slots of which that of a property lists other values. -/
def offering (slots : OpenSlots) (p : Property) (choices : List Choice) : OpenSlots :=
  slots.map fun (r, k) => (r, if r = p then { k with values := choices } else k)

@[simp]
theorem offering_nil (p : Property) (choices : List Choice) : offering [] p choices = [] := rfl

@[simp]
theorem offering_append (slots more : OpenSlots) (p : Property) (choices : List Choice) :
    offering (slots ++ more) p choices = slots.offering p choices ++ more.offering p choices :=
  List.map_append

/-- Where a property is not listed there is nothing to change. -/
@[simp]
theorem offering_of_not_lists (h : Filling.lists slots p = false) (choices : List Choice) :
    slots.offering p choices = slots := by
  refine (List.map_congr_left fun ⟨r, k⟩ hmem => ?_).trans (List.map_id slots)
  have hne : r ≠ p := by
    rintro rfl
    exact absurd (beq_self_eq_true r) (List.any_eq_false.mp h _ hmem)
  simp [hne]

end OpenSlots

/-- Choices that are among the candidates of a slot are values of its type. -/
theorem Wildcard.map_filterMap_choices [Choosable α] (back : ∀ v : α, ofChoice? (toChoice v) = some v)
    {w : Wildcard α} (h : w.choices.Admits choices) :
    (choices.filterMap (ofChoice? : Choice → Option α)).map toChoice = choices := by
  obtain ⟨all, hall, hmem⟩ := h
  obtain ⟨vs, -, rfl⟩ := Option.map_eq_some_iff.mp hall
  have hstand : ∀ c ∈ choices, (ofChoice? c : Option α).map toChoice = some c := by
    intro c hc
    obtain ⟨v, -, rfl⟩ := List.mem_map.mp (hmem c hc)
    rw [back, Option.map_some]
  rw [List.map_filterMap, List.filterMap_congr hstand]
  exact List.filterMap_some

namespace Filling

variable (f : Filling) {p : Property} {w : Wildcard Choice}

theorem slot_offering [Choosable α] (p : Property) (s : Slot α)
    (back : ∀ v : α, ofChoice? (toChoice v) = some v) (hs : s.choices? = some w) (h : w.Admits choices) :
    (f.slot p (s.offering choices)).2 = (f.slot p s).2.offering p choices := by
  cases s with
  | fixed v => rfl
  | wild u =>
    obtain rfl := Option.some.inj hs
    simp [slot, Slot.offering, candidates, Wildcard.offering, OpenSlots.offering,
      Wildcard.map_filterMap_choices back h]

theorem slot?_offering [Choosable α] (p : Property) (s : Option (Slot α))
    (back : ∀ v : α, ofChoice? (toChoice v) = some v) (hs : s.bind Slot.choices? = some w)
    (h : w.Admits choices) :
    (f.slot? p (s.map (·.offering choices))).2 = (f.slot? p s).2.offering p choices := by
  cases s with
  | none => rfl
  | some s => exact f.slot_offering p s back hs h

/-- Other values for a switch. -/
theorem toggle_offering {inner : α → α × OpenSlots} (outside : ∀ a, lists (inner a).2 p = false)
    {t : Option (Toggle α)} (ht : t.bind (·.flag.choices?) = some w) (h : w.Admits choices) :
    (f.toggle p inner (t.map (·.offering choices))).2 = (f.toggle p inner t).2.offering p choices := by
  rcases t with _ | _ | a | ⟨u, a⟩
  · rfl
  · rfl
  · exact (OpenSlots.offering_of_not_lists (outside a) choices).symm
  · obtain rfl := Option.some.inj ht
    have hrest := OpenSlots.offering_of_not_lists (outside a) choices
    have hfirst := f.slot_offering p (.wild u) (fun _ => rfl) rfl h
    exact congrArg₂ (· ++ ·) hfirst hrest.symm

/-- Other values for a slot in the settings. -/
theorem toggle_mapInner {inner : α → α × OpenSlots} {g : α → α} {t : Option (Toggle α)} {r : Property}
    (hr : r ≠ p) (hg : ∀ a ∈ t.bind Toggle.inner?, (inner (g a)).2 = (inner a).2.offering p choices) :
    (f.toggle r inner (t.map (·.mapInner g))).2 = (f.toggle r inner t).2.offering p choices := by
  rcases t with _ | _ | a | ⟨u, a⟩
  · rfl
  · rfl
  · exact hg a rfl
  · have hrest := hg a rfl
    have hfirst : OpenSlots.offering (f.slot r (.wild u)).2 p choices = (f.slot r (.wild u)).2 :=
      OpenSlots.offering_of_not_lists (by simp [hr]) choices
    exact congrArg₂ (· ++ ·) hfirst.symm hrest

/-- What is open in a scale, part by part. -/
theorem opened_scaleParts (parts : List ScaleProperty) (hn : parts.Nodup) (s : Scale) :
    (f.scaleParts parts s).2 = parts.flatMap fun part => (f.slot? (.scaleOf part) (s.get part)).2 := by
  induction parts generalizing s with
  | nil => rfl
  | cons p rest ih =>
    obtain ⟨hp, hrest⟩ := List.nodup_cons.mp hn
    simp only [scaleParts, List.flatMap_cons]
    rw [ih hrest]
    refine congrArg _ (List.flatMap_congr fun part hpart => ?_)
    rw [Scale.get_put_of_ne]
    exact fun heq => hp (heq ▸ hpart)

theorem scale_offering {part : ScaleProperty} {s : Scale} (hs : s.choices? part = some w)
    (h : w.Admits choices) :
    (f.scale (s.offering part choices)).2 = (f.scale s).2.offering (.scaleOf part) choices := by
  have hn : Property.scaleParts.Nodup := by decide
  rw [scale, scale, opened_scaleParts f _ hn, opened_scaleParts f _ hn, OpenSlots.offering,
    List.map_flatMap]
  refine List.flatMap_congr fun r _ => ?_
  rw [← OpenSlots.offering]
  by_cases hr : r = part
  · subst hr
    rw [Scale.offering, Scale.get_put]
    exact f.slot?_offering _ _ r.ofChoice?_toChoice hs h
  · rw [Scale.offering, Scale.get_put_of_ne _ hr]
    exact (OpenSlots.offering_of_not_lists (by simp [hr]) choices).symm

/-- The open slots of a scale belong to the scale and its parts. -/
@[simp]
theorem lists_scale_of_ne {t : Option (Toggle Scale)} {r : Property} (hr : r ≠ .scale)
    (hparts : ∀ part, r ≠ .scaleOf part) : lists (f.toggle .scale f.scale t).2 r = false := by
  rw [lists_toggle, beq_eq_false_iff_ne.mpr (Ne.symm hr), Bool.false_and, Bool.false_or]
  cases t.bind Toggle.inner? with
  | none => rfl
  | some s =>
    rw [Option.any_some, lists_scale]
    cases r with
    | scaleOf part => exact absurd rfl (hparts part)
    | _ => rfl

/-- A filled field lists the other values in place of those that were there. -/
theorem field_offering {q : FieldEncoding} (hq : q.choices? p = some w) (h : w.Admits choices) :
    (f.field (q.offering p choices)).2 = (f.field q).2.offering p choices := by
  have hbin (b : Bin) : lists (f.bin b).2 .bin = false := by simp [bin]
  have hscale (s : Scale) : lists (f.scale s).2 .scale = false := f.lists_scale s .scale
  have hguide (r : Property) (g : Guide) : lists (guide g).2 r = false := rfl
  cases p with
  | channel | aggregate | timeUnit | field | type =>
    have hslot (r : Property) := f.slot_offering r _ (fun _ => rfl) hq h
    simp [field, FieldEncoding.offering, hslot]
  | sort =>
    have hslot := f.slot?_offering .sort q.sort (fun _ => rfl) hq h
    simp [field, FieldEncoding.offering, hslot]
  | bin =>
    have hflag := (Toggle.choices?_filter_isPresent q.bin).trans hq
    have hslot := f.toggle_offering hbin hflag h
    simp [field, FieldEncoding.offering, Toggle.filter_isPresent_offering, hslot]
  | maxBins =>
    have hinner (b : Bin) (hb : b ∈ (q.bin.filter Toggle.isPresent).bind Toggle.inner?) :
        (f.bin (b.offering choices)).2 = (f.bin b).2.offering .maxBins choices := by
      rw [inner?_filter_isPresent] at hb
      have hslot : b.maxbins.bind Slot.choices? = some w := by
        rw [← hq]
        simp only [FieldEncoding.choices?, FieldEncoding.bin?, Option.mem_def.mp hb, Option.bind_some]
      exact f.slot?_offering .maxBins b.maxbins (fun _ => rfl) hslot h
    have hslot := f.toggle_mapInner (p := .maxBins) (r := .bin) (by decide) hinner
    simp [field, FieldEncoding.offering, Toggle.filter_isPresent_mapInner, hslot]
  | scale =>
    have hslot := f.toggle_offering hscale hq h
    simp [field, FieldEncoding.offering, hslot]
  | scaleOf part =>
    have hinner (s : Scale) (hs : s ∈ q.scale.bind Toggle.inner?) :
        (f.scale (s.offering part choices)).2 = (f.scale s).2.offering (.scaleOf part) choices := by
      have hslot : s.choices? part = some w := by
        rw [← hq]
        simp only [FieldEncoding.choices?, FieldEncoding.scale?, Option.mem_def.mp hs, Option.bind_some]
      exact f.scale_offering hslot h
    have hslot := f.toggle_mapInner (p := .scaleOf part) (r := .scale) (by simp) hinner
    simp [field, FieldEncoding.offering, hslot]
  | axis | legend =>
    have hslot (r : Property) := f.toggle_offering (hguide r) hq h
    simp [field, FieldEncoding.offering, hslot]
  | _ => contradiction

end Filling

/-- A filled encoding lists the other values in place of those that were there. -/
theorem Encoding.fill_offering (f : Filling) {e : Encoding} {p : Property} {w : Wildcard Choice}
    (he : e.choices? p = some w) (h : w.Admits choices) :
    ((e.offering p choices).fill f).2 = (e.fill f).2.offering p choices := by
  cases e with
  | field q => exact f.field_offering he h
  | value c v =>
    cases p with
    | channel => exact f.slot_offering .channel c (fun _ => rfl) he h
    | _ => contradiction
  | autoCount c b =>
    cases p with
    | channel =>
      have hslot := f.slot_offering .channel c (fun _ => rfl) he h
      simp [fill, offering, hslot]
    | autoCount =>
      have hslot := f.slot_offering .autoCount b (fun _ => rfl) he h
      simp [fill, offering, hslot]
    | _ => contradiction

end ChartAdvisor
