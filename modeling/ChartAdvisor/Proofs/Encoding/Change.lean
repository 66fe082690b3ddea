import ChartAdvisor.Proofs.Encoding.Standing

/-!
# Changing one slot of an encoding

Choosing a value for a property moves one slot and nothing else, and putting the property back
undoes it. Both hold up to parts of a scale that are fixed at `null`: choosing any part of a
scale takes a domain or a range at `null` out. So encodings are compared by `withoutNulls`,
which takes those out on both sides and which no standing depends on. What an encoding holds
outside one slot is compared by `apart`, which empties that slot first.
-/
namespace ChartAdvisor

/-! ## Scales -/

namespace Scale

/-- A slot of JSON that is not fixed at `null`. -/
def keepUnlessNull (s : Option (Slot Json)) : Option (Slot Json) :=
  if s = some (.fixed .null) then none else s

theorem dropNulls_eq (s : Scale) : s.dropNulls =
    { s with domain := keepUnlessNull s.domain, range := keepUnlessNull s.range } := by
  unfold dropNulls keepUnlessNull
  by_cases hd : s.domain = some (.fixed .null) <;> by_cases hr : s.range = some (.fixed .null) <;>
    simp [hd, hr]

theorem keepUnlessNull_keepUnlessNull (s : Option (Slot Json)) :
    keepUnlessNull (keepUnlessNull s) = keepUnlessNull s := by
  unfold keepUnlessNull
  split
  · rfl
  · rfl

@[simp]
theorem dropNulls_dropNulls (s : Scale) : s.dropNulls.dropNulls = s.dropNulls := by
  rw [dropNulls_eq, dropNulls_eq, keepUnlessNull_keepUnlessNull, keepUnlessNull_keepUnlessNull]

@[simp]
theorem dropNulls_empty : dropNulls {} = {} := rfl

@[simp]
theorem get_put (s : Scale) (p : ScaleProperty) (v : Option (Slot p.Value)) :
    (s.put p v).get p = v := by
  cases p <;> rfl

theorem get_put_of_ne (s : Scale) {p r : ScaleProperty} (h : r ≠ p) (v : Option (Slot p.Value)) :
    (s.put p v).get r = s.get r := by
  cases p <;> cases r <;> first | rfl | contradiction

@[simp]
theorem put_put (s : Scale) (p : ScaleProperty) (v w : Option (Slot p.Value)) :
    (s.put p v).put p w = s.put p w := by
  cases p <;> rfl

@[simp]
theorem put_get (s : Scale) (p : ScaleProperty) : s.put p (s.get p) = s := by
  cases p <;> rfl

theorem put_comm (s : Scale) {p r : ScaleProperty} (h : r ≠ p) (v : Option (Slot p.Value))
    (w : Option (Slot r.Value)) : (s.put p v).put r w = (s.put r w).put p v := by
  cases p <;> cases r <;> first | rfl | contradiction

theorem dropNulls_put_congr {s t : Scale} (h : s.dropNulls = t.dropNulls) (p : ScaleProperty)
    (v : Option (Slot p.Value)) : (s.put p v).dropNulls = (t.put p v).dropNulls := by
  rw [dropNulls_eq, dropNulls_eq] at h ⊢
  simp only [mk.injEq] at h ⊢
  obtain ⟨h₁, h₂, h₃, h₄, h₅, h₆, h₇, h₈, h₉, h₁₀⟩ := h
  cases p <;> exact ⟨by first | exact h₁ | rfl, by first | exact h₂ | rfl,
    by first | exact h₃ | rfl, by first | exact h₄ | rfl, by first | exact h₅ | rfl,
    by first | exact h₆ | rfl, by first | exact h₇ | rfl, by first | exact h₈ | rfl,
    by first | exact h₉ | rfl, by first | exact h₁₀ | rfl⟩

/-- What a part is set to does not matter once it is set anew. -/
theorem dropNulls_put_of_put {s t : Scale} {p : ScaleProperty} {v w : Option (Slot p.Value)}
    (h : (s.put p v).dropNulls = (t.put p w).dropNulls) (u : Option (Slot p.Value)) :
    (s.put p u).dropNulls = (t.put p u).dropNulls := by
  have h' := dropNulls_put_congr h p u
  rwa [put_put, put_put] at h'

theorem dropNulls_assign_congr {s t : Scale} (h : s.dropNulls = t.dropNulls) (p : ScaleProperty)
    (c : Choice) : (s.assign p c).1.dropNulls = (t.assign p c).1.dropNulls := by
  unfold assign
  split
  · simpa only [dropNulls_dropNulls] using dropNulls_put_congr h p _
  · simpa only [dropNulls_dropNulls] using h

/-- What a part was set to does not matter once a value is chosen for it. -/
theorem dropNulls_assign_of_put {s t : Scale} {p : ScaleProperty} {v w : Option (Slot p.Value)}
    (h : (s.put p v).dropNulls = (t.put p w).dropNulls) {c : Choice}
    (hc : (ofChoice? c : Option p.Value).isSome) :
    (s.assign p c).1.dropNulls = (t.assign p c).1.dropNulls := by
  unfold assign
  split
  · simpa only [dropNulls_dropNulls] using dropNulls_put_of_put h _
  · next hn => simp [hn] at hc

theorem dropNulls_put_assign (s : Scale) (p : ScaleProperty) (c : Choice)
    (v : Option (Slot p.Value)) :
    ((s.assign p c).1.put p v).dropNulls = (s.put p v).dropNulls := by
  unfold assign
  split
  · rw [dropNulls_put_congr (dropNulls_dropNulls _), put_put]
  · rw [dropNulls_put_congr (dropNulls_dropNulls _)]

theorem dropNulls_put_assign_of_ne (s : Scale) {p r : ScaleProperty} (h : r ≠ p) (c : Choice)
    (v : Option (Slot r.Value)) :
    ((s.assign p c).1.put r v).dropNulls = ((s.put r v).assign p c).1.dropNulls := by
  unfold assign
  split
  · rw [dropNulls_put_congr (dropNulls_dropNulls _), put_comm _ h, dropNulls_dropNulls]
  · rw [dropNulls_put_congr (dropNulls_dropNulls _), dropNulls_dropNulls]

/-- A part at `null` stands like an absent one. -/
theorem standing_dropNulls (s : Scale) (p : ScaleProperty) :
    Standing.ofSlot? (s.dropNulls.get p) = Standing.ofSlot? (s.get p) := by
  have h (v : Option (Slot Json)) :
      Standing.ofSlot? (keepUnlessNull v) = Standing.ofSlot? v := by
    unfold keepUnlessNull
    split
    · next hv => rw [hv]; rfl
    · rfl
  rw [dropNulls_eq]
  cases p with
  | domain => exact h s.domain
  | range => exact h s.range
  | _ => rfl

end Scale

namespace Toggle

variable {α : Type}

@[simp]
theorem inner?_mapInner (f : α → α) (t : Toggle α) : (t.mapInner f).inner? = t.inner?.map f := by
  cases t <;> rfl

@[simp]
theorem mapInner_id (t : Toggle α) : t.mapInner id = t := by
  cases t <;> rfl

@[simp]
theorem standing_map_mapInner (f : α → α) (t : Option (Toggle α)) :
    Standing.ofToggle (t.map (·.mapInner f)) = Standing.ofToggle t := by
  rcases t with _ | _ | _ | _ <;> rfl

@[simp]
theorem bind_inner?_map_mapInner (f : α → α) (t : Option (Toggle α)) :
    (t.map (·.mapInner f)).bind inner? = (t.bind inner?).map f := by
  cases t with
  | none => rfl
  | some t => exact inner?_mapInner f t

@[simp]
theorem map_mapInner_mapInner (f g : α → α) (t : Option (Toggle α)) :
    (t.map (·.mapInner f)).map (·.mapInner g) = t.map (·.mapInner (g ∘ f)) := by
  rcases t with _ | _ | _ | _ <;> rfl

theorem map_mapInner_const {f : α → α} {t : Option (Toggle α)} {s : α}
    (h : t.bind inner? = some s) :
    t.map (·.mapInner fun _ => f s) = t.map (·.mapInner f) := by
  rcases t with _ | _ | s' | ⟨w, s'⟩ <;> simp_all [inner?, mapInner]

/-- Two parts that are alike under one view of their settings are alike under a coarser one. -/
theorem map_mapInner_congr {f g : α → α} (h : ∀ s t, f s = f t → g s = g t)
    {a b : Option (Toggle α)} (hab : a.map (·.mapInner f) = b.map (·.mapInner f)) :
    a.map (·.mapInner g) = b.map (·.mapInner g) := by
  rcases a with _ | _ | s | ⟨w, s⟩ <;> rcases b with _ | _ | t | ⟨u, t⟩ <;>
    simp only [Option.map_some, Option.map_none, mapInner, Option.some.injEq, on.injEq, wild.injEq,
      reduceCtorEq] at hab ⊢
  · exact h s t hab
  · exact ⟨hab.1, h s t hab.2⟩

end Toggle

/-! ## Fields -/

namespace FieldEncoding

/-- The field without the parts of its scale that are fixed at `null`. -/
def withoutNulls (q : FieldEncoding) : FieldEncoding :=
  { q with scale := q.scale.map (·.mapInner Scale.dropNulls) }

/-- The field whose slots are put into a field to empty them. -/
def blank : FieldEncoding where
  channel := .wild .short
  field := .wild .short
  type := .wild .short
  scale := some (.on {})

/-- What a field holds apart from the slot of a property. -/
def apart (q : FieldEncoding) (p : Property) : FieldEncoding := (q.restore blank p).withoutNulls

theorem withoutNulls_eq_iff {q r : FieldEncoding} : q.withoutNulls = r.withoutNulls ↔
    { q with scale := none } = { r with scale := none } ∧
      q.scale.map (·.mapInner Scale.dropNulls) = r.scale.map (·.mapInner Scale.dropNulls) := by
  cases q
  cases r
  simp only [withoutNulls, mk.injEq]
  grind

theorem scale?_withoutNulls (q : FieldEncoding) :
    q.withoutNulls.scale? = q.scale?.map Scale.dropNulls := Toggle.bind_inner?_map_mapInner _ _

/-- No standing depends on the parts that are fixed at `null`. -/
theorem standing_withoutNulls (q : FieldEncoding) (p : Property) :
    q.withoutNulls.standing p = q.standing p := by
  cases p with
  | scale => exact Toggle.standing_map_mapInner _ _
  | scaleOf part =>
    simp only [standing, scale?_withoutNulls]
    cases q.scale? with
    | none => rfl
    | some s => exact Scale.standing_dropNulls s part
  | _ => rfl

theorem standing_congr {q r : FieldEncoding} (h : q.withoutNulls = r.withoutNulls) (p : Property) :
    q.standing p = r.standing p := by
  rw [← standing_withoutNulls, h, standing_withoutNulls]

/-- A slot that is neither the one put back nor inside it stands as before. -/
theorem standing_restore_of_ne (q o : FieldEncoding) {p r : Property} (h : r ≠ p)
    (hp : r.parent? ≠ some p) : (q.restore o p).standing r = q.standing r := by
  cases p with
  | bin =>
    cases r with
    | bin => exact absurd rfl h
    | maxBins => exact absurd rfl hp
    | _ => rfl
  | scale =>
    cases r with
    | scale => exact absurd rfl h
    | scaleOf => exact absurd rfl hp
    | _ => rfl
  | maxBins =>
    cases r with
    | maxBins => exact absurd rfl h
    | bin => exact Toggle.standing_map_mapInner _ _
    | _ => rfl
  | scaleOf part =>
    unfold restore
    cases o.scale? with
    | none => rfl
    | some s =>
      cases r with
      | scale => exact Toggle.standing_map_mapInner _ _
      | scaleOf other =>
        have hne : other ≠ part := fun e => h (e ▸ rfl)
        simp only [standing, scale?, Toggle.bind_inner?_map_mapInner]
        cases q.scale.bind Toggle.inner? with
        | none => rfl
        | some t => exact congrArg _ (Scale.get_put_of_ne t hne _)
      | _ => rfl
  | _ => cases r <;> first | rfl | contradiction

/-- Slots apart from one stand alike in fields that are alike apart from it. -/
theorem standing_of_apart {q r : FieldEncoding} {p : Property} (h : q.apart p = r.apart p)
    {p' : Property} (hp : p' ≠ p) (hp' : p'.parent? ≠ some p) :
    q.standing p' = r.standing p' := by
  have h' := standing_congr (q := q.restore blank p) (r := r.restore blank p) h p'
  rwa [standing_restore_of_ne _ _ hp hp', standing_restore_of_ne _ _ hp hp'] at h'

/-- Fields that are alike apart from a slot become alike when the slot is put back. -/
theorem restore_of_apart {q r : FieldEncoding} {p : Property} (h : q.apart p = r.apart p)
    {o : FieldEncoding} (ho : ∀ part, p = .scaleOf part → o.scale?.isSome) :
    (q.restore o p).withoutNulls = (r.restore o p).withoutNulls := by
  unfold apart at h
  rw [withoutNulls_eq_iff] at h ⊢
  cases p with
  | scaleOf part =>
    obtain ⟨s, hs⟩ := Option.isSome_iff_exists.mp (ho part rfl)
    simp only [restore, hs, show blank.scale? = some {} from rfl] at h ⊢
    refine ⟨h.1, ?_⟩
    rw [Toggle.map_mapInner_mapInner, Toggle.map_mapInner_mapInner]
    rw [Toggle.map_mapInner_mapInner, Toggle.map_mapInner_mapInner] at h
    exact Toggle.map_mapInner_congr (fun _ _ e => Scale.dropNulls_put_of_put e _) h.2
  | maxBins =>
    simp only [restore, mk.injEq] at h ⊢
    have hb : (q.bin.map (·.mapInner fun b => { b with maxbins := o.bin?.bind Bin.maxbins })) =
        (r.bin.map (·.mapInner fun b => { b with maxbins := o.bin?.bind Bin.maxbins })) :=
      Toggle.map_mapInner_congr (fun s t e => by simp_all) h.1.2.2.2.2.1
    simp_all
  | _ => simp_all [restore]

theorem restore_congr {q r : FieldEncoding} (h : q.withoutNulls = r.withoutNulls)
    (o : FieldEncoding) (p : Property) :
    (q.restore o p).withoutNulls = (r.restore o p).withoutNulls := by
  rw [withoutNulls_eq_iff] at h ⊢
  cases p with
  | scaleOf part =>
    unfold restore
    cases o.scale? with
    | none => exact h
    | some s =>
      refine ⟨h.1, ?_⟩
      rw [Toggle.map_mapInner_mapInner, Toggle.map_mapInner_mapInner]
      exact Toggle.map_mapInner_congr (fun _ _ e => Scale.dropNulls_put_congr e _ _) h.2
  | _ => simp_all [restore]

theorem apart_congr {q r : FieldEncoding} (h : q.withoutNulls = r.withoutNulls) (p : Property) :
    q.apart p = r.apart p := restore_congr h blank p

/-- Putting a slot back leaves the rest of the field alone. -/
theorem apart_restore (q o : FieldEncoding) (p : Property) : (q.restore o p).apart p = q.apart p := by
  unfold apart
  cases p with
  | scaleOf part =>
    simp only [restore]
    cases o.scale? with
    | none => rfl
    | some s =>
      have h : (fun t : Scale => t.restore {} part) ∘ (fun t : Scale => t.restore s part) =
          fun t : Scale => t.restore {} part := funext fun t => Scale.put_put t part _ _
      simp only [show blank.scale? = some {} from rfl, Toggle.map_mapInner_mapInner, h]
  | maxBins => simp only [restore, Toggle.map_mapInner_mapInner]; rfl
  | _ => rfl

/-- Putting a part of a scale back, as a change of the settings. -/
theorem restore_scaleOf (q o : FieldEncoding) (part : ScaleProperty) :
    q.restore o (.scaleOf part) =
      { q with scale := q.scale.map fun t => t.mapInner fun s =>
          (o.scale?.map fun t => s.restore t part).getD s } := by
  unfold restore
  cases o.scale? with
  | none =>
    have h : q.scale.map (fun t => t.mapInner fun s => s) = q.scale := by
      rcases q.scale with _ | _ | _ | _ <;> rfl
    exact congrArg (fun t => { q with scale := t }) h.symm
  | some s => rfl

theorem assign_maxBins (q : FieldEncoding) (c : Choice) :
    q.assign .maxBins c =
      if q.bin?.isSome then
        q.settle .maxBins c fun v =>
          { q with bin := q.bin.map fun t => t.mapInner fun b => { b with maxbins := some (.fixed v) } }
      else (q, some (.mismatch .maxBins c)) := rfl

/-- Choosing a value for a part of a scale, with the cases in which it fails. -/
theorem assign_scaleOf (q : FieldEncoding) (part : ScaleProperty) (c : Choice) :
    q.assign (.scaleOf part) c =
      if q.scale?.isSome then
        ({ q with scale := q.scale.map (·.mapInner fun s => (s.assign part c).1) },
          if (ofChoice? c : Option part.Value).isSome then none
          else some (.mismatch (.scaleOf part) c))
      else (q, some (.notOfEncoding (.scaleOf part))) := by
  unfold assign
  cases h : q.scale? with
  | none => rfl
  | some s =>
    simp only [Option.isSome_some, if_true, Prod.mk.injEq, mk.injEq, true_and, and_true]
    refine ⟨Toggle.map_mapInner_const (f := fun s => (s.assign part c).1) h, ?_⟩
    unfold Scale.assign
    cases (ofChoice? c : Option part.Value) <;> rfl

/-- Choosing a value leaves the rest of the field alone. -/
theorem apart_assign (q : FieldEncoding) (p : Property) (c : Choice) :
    (q.assign p c).1.apart p = q.apart p := by
  cases p with
  | scaleOf part =>
    rw [assign_scaleOf]
    split
    · have h : (Scale.dropNulls ∘ fun t : Scale => t.restore {} part) ∘
          (fun t : Scale => (t.assign part c).1) = Scale.dropNulls ∘ fun t => t.restore {} part :=
        funext fun t => Scale.dropNulls_put_assign t part c _
      unfold apart
      rw [withoutNulls_eq_iff]
      simp only [restore, show blank.scale? = some {} from rfl, Toggle.map_mapInner_mapInner, true_and]
      exact congrArg (fun f => q.scale.map (·.mapInner f)) h
    · rfl
  | maxBins =>
    simp only [assign, settle]
    split
    · split
      · simp only [apart, restore, Toggle.map_mapInner_mapInner]; rfl
      · rfl
    · rfl
  | channel | aggregate | timeUnit | field | type | sort | bin =>
    simp only [assign, settle]
    split <;> rfl
  | scale | axis | legend =>
    simp only [assign, settleToggle]
    split <;> rfl
  | _ => rfl

theorem settle_congr {α : Type} [Choosable α] {q r : FieldEncoding} (p : Property) (c : Choice)
    {put put' : α → FieldEncoding} (h : q.withoutNulls = r.withoutNulls)
    (hput : ∀ v, (put v).withoutNulls = (put' v).withoutNulls) :
    (q.settle p c put).2 = (r.settle p c put').2 ∧
      (q.settle p c put).1.withoutNulls = (r.settle p c put').1.withoutNulls := by
  unfold settle
  split
  · exact ⟨rfl, hput _⟩
  · exact ⟨rfl, h⟩

theorem settleToggle_congr {α : Type} [Settings α] {t u : Option (Toggle α)} (p : Property)
    (c : Choice) {put put' : Option (Toggle α) → FieldEncoding} {f : α → α}
    (hnone : f Settings.none = Settings.none)
    (h : t.map (·.mapInner f) = u.map (·.mapInner f))
    (hput : ∀ x y, x.mapInner f = y.mapInner f →
      (put (some x)).withoutNulls = (put' (some y)).withoutNulls) :
    (settleToggle t p c put).2 = (settleToggle u p c put').2 ∧
      (settleToggle t p c put).1.withoutNulls = (settleToggle u p c put').1.withoutNulls := by
  have hd : (t.getD .off).mapInner f = (u.getD .off).mapInner f := by
    cases t <;> cases u <;> first | rfl | (cases ‹Toggle α› <;> simp_all [Toggle.mapInner])
  have hs (b : Bool) : ((t.getD .off).setFlag b).mapInner f = ((u.getD .off).setFlag b).mapInner f := by
    have h' := congrArg Toggle.inner? hd
    simp only [Toggle.inner?_mapInner] at h'
    cases b with
    | false => rfl
    | true =>
      simp only [Toggle.setFlag, if_true, Toggle.mapInner, Toggle.on.injEq]
      cases ht : (t.getD .off).inner? <;> cases hu : (u.getD .off).inner? <;>
        simp_all
  unfold settleToggle
  split
  · exact ⟨rfl, hput _ _ (hs _)⟩
  · exact ⟨rfl, hput _ _ hd⟩

/-- Choosing a value does not depend on the parts that are fixed at `null`. -/
theorem assign_congr {q r : FieldEncoding} (h : q.withoutNulls = r.withoutNulls) (p : Property)
    (c : Choice) : (q.assign p c).2 = (r.assign p c).2 ∧
      (q.assign p c).1.withoutNulls = (r.assign p c).1.withoutNulls := by
  have hs : q.scale?.isSome = r.scale?.isSome := by
    rw [scale?_isSome_eq, scale?_isSome_eq, standing_congr h]
  have hb : q.bin = r.bin := by have h' := congrArg bin h; exact h'
  have hsc := (withoutNulls_eq_iff.mp h).2
  cases p with
  | scaleOf part =>
    rw [assign_scaleOf, assign_scaleOf, hs]
    split
    · refine ⟨rfl, withoutNulls_eq_iff.mpr ⟨(withoutNulls_eq_iff.mp h).1, ?_⟩⟩
      rw [Toggle.map_mapInner_mapInner, Toggle.map_mapInner_mapInner]
      exact Toggle.map_mapInner_congr (fun _ _ e => Scale.dropNulls_assign_congr e part c) hsc
    · exact ⟨rfl, h⟩
  | scale =>
    refine settleToggle_congr _ c Scale.dropNulls_empty hsc fun x y e => ?_
    exact withoutNulls_eq_iff.mpr ⟨(withoutNulls_eq_iff.mp h).1, congrArg some e⟩
  | maxBins =>
    have hin : q.bin? = r.bin? := congrArg (·.bind Toggle.inner?) hb
    simp only [assign, hin]
    split
    · exact settle_congr _ c h fun v => congrArg (fun q : FieldEncoding =>
        { q with bin := q.bin.map (Toggle.mapInner fun b => { b with maxbins := some (.fixed v) }) }) h
    · exact ⟨rfl, h⟩
  | channel => exact settle_congr _ c h fun v => congrArg (fun q : FieldEncoding =>
      { q with channel := .fixed v }) h
  | aggregate => exact settle_congr _ c h fun v => congrArg (fun q : FieldEncoding =>
      { q with aggregate := .fixed v }) h
  | timeUnit => exact settle_congr _ c h fun v => congrArg (fun q : FieldEncoding =>
      { q with timeUnit := .fixed v }) h
  | field => exact settle_congr _ c h fun v => congrArg (fun q : FieldEncoding =>
      { q with field := .fixed v }) h
  | type => exact settle_congr _ c h fun v => congrArg (fun q : FieldEncoding =>
      { q with type := .fixed v }) h
  | sort => exact settle_congr _ c h fun v => congrArg (fun q : FieldEncoding =>
      { q with sort := some (.fixed v) }) h
  | bin => exact settle_congr _ c h fun b => congrArg (fun q : FieldEncoding =>
      { q with bin := if b then some ((q.bin.getD .off).setFlag true) else none }) h
  | axis =>
    have ha : q.axis = r.axis := by have h' := congrArg axis h; exact h'
    refine settleToggle_congr _ c (f := id) rfl (congrArg _ ha) fun x y e => ?_
    rw [Toggle.mapInner_id, Toggle.mapInner_id] at e
    exact congrArg (fun q : FieldEncoding => { q with axis := some x }) h |>.trans (by rw [e])
  | legend =>
    have ha : q.legend = r.legend := by have h' := congrArg legend h; exact h'
    refine settleToggle_congr _ c (f := id) rfl (congrArg _ ha) fun x y e => ?_
    rw [Toggle.mapInner_id, Toggle.mapInner_id] at e
    exact congrArg (fun q : FieldEncoding => { q with legend := some x }) h |>.trans (by rw [e])
  | _ => exact ⟨rfl, h⟩

theorem settle_of_apart {α : Type} [Choosable α] {q r : FieldEncoding} (p : Property) (c : Choice)
    {put put' : α → FieldEncoding} (hput : ∀ v, (put v).withoutNulls = (put' v).withoutNulls) :
    (q.settle p c put).2 = (r.settle p c put').2 ∧
      ((q.settle p c put).2 = none →
        (q.settle p c put).1.withoutNulls = (r.settle p c put').1.withoutNulls) := by
  unfold settle
  split
  · exact ⟨rfl, fun _ => hput _⟩
  · exact ⟨rfl, fun h => absurd h (Option.some_ne_none _)⟩

/-- What a slot held does not matter once a value is chosen for it. -/
theorem assign_of_apart {q r : FieldEncoding} {p : Property} (h : q.apart p = r.apart p)
    (hp : p.holdsSettings = false) (c : Choice) : (q.assign p c).2 = (r.assign p c).2 ∧
      ((q.assign p c).2 = none →
        (q.assign p c).1.withoutNulls = (r.assign p c).1.withoutNulls) := by
  have hs : q.scale?.isSome = r.scale?.isSome := by
    rw [scale?_isSome_eq, scale?_isSome_eq, 
      standing_of_apart h (by rintro rfl; contradiction) (by simp [Property.parent?])]
  have hb : q.bin?.isSome = r.bin?.isSome := by
    rw [bin?_isSome_eq, bin?_isSome_eq,
      standing_of_apart h (by rintro rfl; contradiction) (by simp [Property.parent?])]
  have hsc := (withoutNulls_eq_iff.mp h).2
  cases p with
  | scaleOf part =>
    rw [assign_scaleOf, assign_scaleOf, hs]
    split
    · cases hc : (ofChoice? c : Option part.Value).isSome with
      | false => exact ⟨rfl, fun h => nomatch h⟩
      | true =>
        refine ⟨rfl, fun _ => withoutNulls_eq_iff.mpr ⟨(withoutNulls_eq_iff.mp h).1, ?_⟩⟩
        simp only [restore, show blank.scale? = some {} from rfl] at hsc
        rw [Toggle.map_mapInner_mapInner, Toggle.map_mapInner_mapInner] at hsc ⊢
        exact Toggle.map_mapInner_congr (fun _ _ e => Scale.dropNulls_assign_of_put e hc) hsc
    · exact ⟨rfl, fun h => nomatch h⟩
  | maxBins =>
    simp only [assign, hb]
    split
    · refine settle_of_apart _ c fun v => ?_
      have h' := congrArg (fun q : FieldEncoding =>
        { q with bin := q.bin.map (Toggle.mapInner fun b => { b with maxbins := some (.fixed v) }) }) h
      simp only [apart, restore, withoutNulls, Toggle.map_mapInner_mapInner] at h'
      exact h'
    · exact ⟨rfl, fun h => nomatch h⟩
  | channel => exact settle_of_apart _ c fun v => congrArg (fun q : FieldEncoding =>
      { q with channel := .fixed v }) h
  | aggregate => exact settle_of_apart _ c fun v => congrArg (fun q : FieldEncoding =>
      { q with aggregate := .fixed v }) h
  | timeUnit => exact settle_of_apart _ c fun v => congrArg (fun q : FieldEncoding =>
      { q with timeUnit := .fixed v }) h
  | field => exact settle_of_apart _ c fun v => congrArg (fun q : FieldEncoding =>
      { q with field := .fixed v }) h
  | type => exact settle_of_apart _ c fun v => congrArg (fun q : FieldEncoding =>
      { q with type := .fixed v }) h
  | sort => exact settle_of_apart _ c fun v => congrArg (fun q : FieldEncoding =>
      { q with sort := some (.fixed v) }) h
  | bin | scale | axis | legend => contradiction
  | _ => exact ⟨rfl, fun h => nomatch h⟩

theorem restore_settle {α : Type} [Choosable α] (q o : FieldEncoding) (p r : Property) (c : Choice)
    (put : FieldEncoding → α → FieldEncoding)
    (h : ∀ v, (put q v).restore o r = put (q.restore o r) v) :
    ((q.settle p c (put q)).1.restore o r) = ((q.restore o r).settle p c (put (q.restore o r))).1 := by
  unfold settle
  split
  · exact h _
  · rfl

/-- A slot that is neither the one chosen for, nor inside it, nor around it can be put back
before or after. -/
theorem restore_assign {q o : FieldEncoding} {p r : Property} (h : r ≠ p) (hp : p.parent? ≠ some r)
    (hr : r.parent? ≠ some p) (c : Choice) :
    ((q.assign p c).1.restore o r).withoutNulls = ((q.restore o r).assign p c).1.withoutNulls := by
  cases p with
  | maxBins =>
    have hb : (q.restore o r).bin? = q.bin? := by
      cases r <;> first | rfl | contradiction | (rw [restore_scaleOf]; rfl)
    rw [assign_maxBins, assign_maxBins, hb]
    split
    · refine congrArg withoutNulls (restore_settle q o _ r c (fun (q : FieldEncoding) v =>
        { q with bin := q.bin.map fun t => t.mapInner fun b => { b with maxbins := some (.fixed v) } }) fun v => ?_)
      cases r <;> first | rfl | contradiction | (rw [restore_scaleOf, restore_scaleOf])
    · rfl
  | scaleOf part =>
    have hs : (q.restore o r).scale?.isSome = q.scale?.isSome := by
      cases r <;> first | rfl | contradiction | skip
      rw [restore_scaleOf]
      simp only [scale?, Toggle.bind_inner?_map_mapInner, Option.isSome_map]
    rw [assign_scaleOf, assign_scaleOf, hs]
    split
    · cases r with
      | scale => contradiction
      | scaleOf other =>
        have hne : other ≠ part := fun e => h (e ▸ rfl)
        simp only [restore_scaleOf]
        refine withoutNulls_eq_iff.mpr ⟨rfl, ?_⟩
        simp only [Toggle.map_mapInner_mapInner]
        refine congrArg (fun f => q.scale.map fun t => t.mapInner f) (funext fun s => ?_)
        simp only [Function.comp]
        cases o.scale? with
        | none => rfl
        | some u => exact Scale.dropNulls_put_assign_of_ne s hne c _
      | _ => rfl
    · rfl
  | channel | aggregate | timeUnit | field | type | sort | bin =>
    simp only [assign, settle]
    split <;> cases r <;> first | rfl | contradiction | (rw [restore_scaleOf, restore_scaleOf])
  | scale | axis | legend =>
    simp only [assign, settleToggle]
    split <;> cases r <;> first | rfl | contradiction | (rw [restore_scaleOf, restore_scaleOf])
  | _ => rfl
end FieldEncoding
end ChartAdvisor
