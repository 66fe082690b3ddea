import ChartAdvisor.Proofs.Encoding.Change

/-!
# How slots stand after a choice

A choice that is taken decides its slot, and how the slot stands then is read off the choice
alone. Switching a part on brings the slots inside it to where they stand in the part; switching
it off leaves them absent. All other slots stand as before.
-/
namespace ChartAdvisor

/-- How a choice stands in a slot of a type. -/
def Standing.reading (α : Type) [Choosable α] (c : Choice) : Standing :=
  match (ofChoice? c : Option α) with
  | some v => .ofChoice (toChoice v)
  | none => .absent

/-- A switch that is off stands like a part that is absent. -/
def Standing.switch (c : Choice) : Standing :=
  if c = .flag true then .decided c else .absent

/-- How the slot of a property stands once a choice has been made for it. -/
def Property.standingFor (c : Choice) : Property → Standing
  | .channel => .reading Channel c
  | .aggregate => .reading (Option Aggregate) c
  | .autoCount => .reading Bool c
  | .timeUnit => .reading (Option TimeUnit) c
  | .field => .reading String c
  | .type => .reading FieldType c
  | .sort => .reading Sorting c
  | .bin | .scale | .axis | .legend => .switch c
  | .maxBins => .reading UInt32 c
  | .scaleOf part => .reading part.Value c
  | _ => .absent

theorem Property.standingFor_ne_undecided (p : Property) (c : Choice) :
    p.standingFor c ≠ .undecided := by
  have reading (α : Type) [Choosable α] : Standing.reading α c ≠ .undecided := by
    unfold Standing.reading
    split
    · exact Standing.ofChoice_ne_undecided _
    · exact Standing.noConfusion
  have switch : Standing.switch c ≠ .undecided := by
    unfold Standing.switch
    split <;> exact Standing.noConfusion
  cases p <;> first | exact reading _ | exact switch | exact Standing.noConfusion

namespace FieldEncoding

theorem settle_eq_none {α : Type} [Choosable α] {q : FieldEncoding} {p : Property} {c : Choice}
    {put : α → FieldEncoding} (h : (q.settle p c put).2 = none) :
    ∃ v, (ofChoice? c : Option α) = some v ∧ (q.settle p c put).1 = put v := by
  unfold settle at h ⊢
  split at h
  · next v hv => exact ⟨v, hv, rfl⟩
  · contradiction

theorem settleToggle_eq_none {α : Type} [Settings α] {t : Option (Toggle α)} {p : Property}
    {c : Choice} {put : Option (Toggle α) → FieldEncoding}
    (h : (settleToggle t p c put).2 = none) :
    ∃ b, c = .flag b ∧
      (settleToggle t p c put).1 = put (some ((t.getD .off).setFlag b)) := by
  unfold settleToggle at h ⊢
  simp only at h ⊢
  split at h
  · next b hb =>
    refine ⟨b, ?_, rfl⟩
    cases c <;> simp [ofChoice?] at hb
    rw [hb]
  · contradiction

theorem standing_setFlag {α : Type} [Settings α] (t : Toggle α) (b : Bool) :
    Standing.ofToggle (some (t.setFlag b)) = .switch (.flag b) := by
  cases b <;> rfl

theorem reading_of_some {α : Type} [Choosable α] {c : Choice} {v : α}
    (h : (ofChoice? c : Option α) = some v) : Standing.reading α c = .ofSlot (.fixed v) := by
  unfold Standing.reading
  rw [h]
  rfl

theorem standing_of_eq {q r : FieldEncoding} (h : q = r) {p : Property} {s : Standing}
    (hr : r.standing p = s) : q.standing p = s := h ▸ hr

/-- Once a choice has been made, its slot stands as the choice says. -/
theorem standing_assign {q : FieldEncoding} {p : Property} {c : Choice}
    (h : (q.assign p c).2 = none) : (q.assign p c).1.standing p = p.standingFor c := by
  cases p with
  | channel | aggregate | timeUnit | field | type | sort =>
    obtain ⟨v, hv, hq⟩ := settle_eq_none h
    exact standing_of_eq hq (reading_of_some hv).symm
  | scale | axis | legend =>
    obtain ⟨b, rfl, hq⟩ := settleToggle_eq_none h
    exact standing_of_eq hq (standing_setFlag _ b)
  | bin =>
    obtain ⟨b, hb, hq⟩ := settle_eq_none h
    refine standing_of_eq hq ?_
    cases c <;> simp [ofChoice?] at hb
    subst hb
    cases ‹Bool› <;> rfl
  | maxBins =>
    rw [assign_maxBins] at h ⊢
    split at h
    · next hb =>
      obtain ⟨v, hv, hq⟩ := settle_eq_none h
      rw [if_pos hb, hq]
      refine Eq.trans ?_ (reading_of_some hv).symm
      obtain ⟨b, hb⟩ := Option.isSome_iff_exists.mp hb
      unfold standing bin?
      simp only [Toggle.bind_inner?_map_mapInner, show q.bin.bind Toggle.inner? = some b from hb]
      rfl
    · contradiction
  | scaleOf part =>
    rw [assign_scaleOf] at h ⊢
    split at h
    · next hs =>
      obtain ⟨s, hs'⟩ := Option.isSome_iff_exists.mp hs
      rw [if_pos hs]
      unfold standing scale?
      simp only [Toggle.bind_inner?_map_mapInner, show q.scale.bind Toggle.inner? = some s from hs']
      unfold Scale.assign
      cases hc : (ofChoice? c : Option part.Value) with
      | none => simp [hc] at h
      | some v =>
        refine Eq.trans ?_ (reading_of_some hc).symm
        simp only [Option.map_some, Option.bind_some, Scale.standing_dropNulls, Scale.get_put]
        rfl
    · contradiction
  | _ => contradiction

/-- A slot inside a part that has been switched stands as before if the part is on. -/
theorem standing_assign_child {q : FieldEncoding} {p r : Property} {c : Choice}
    (hr : r.parent? = some p) (h : (q.assign p c).2 = none) :
    (q.assign p c).1.standing r = if c = .flag true then q.standing r else .absent := by
  cases r with
  | maxBins =>
    cases hr
    obtain ⟨b, hb, hq⟩ := settle_eq_none h
    refine standing_of_eq hq ?_
    cases c <;> simp [ofChoice?] at hb
    subst hb
    cases ‹Bool›
    · rfl
    · unfold standing bin?
      rcases q.bin with _ | _ | _ | _ <;> rfl
  | scaleOf part =>
    cases hr
    obtain ⟨b, rfl, hq⟩ := settleToggle_eq_none h
    refine standing_of_eq hq ?_
    cases b
    · rfl
    · unfold standing scale?
      rcases q.scale with _ | _ | _ | _ <;> cases part <;> rfl
  | _ => contradiction

theorem restore_restore {q o : FieldEncoding} {p r : Property} (hp : p.holdsSettings = true)
    (h : r ≠ p) (hr : r.parent? ≠ some p) :
    (q.restore o p).restore o r = (q.restore o r).restore o p := by
  cases p <;> first | contradiction | skip
  all_goals cases r <;> first | rfl | contradiction | (rw [restore_scaleOf, restore_scaleOf]; rfl)

/-- A slot inside a part that has just been put back and switched is in place. -/
theorem restore_assign_child {q o : FieldEncoding} {p r : Property} (hr : r.parent? = some p)
    (c : Choice) (h : ((q.restore o p).assign p c).2 = none) :
    (((q.restore o p).assign p c).1.restore o r).withoutNulls =
      ((q.restore o p).assign p c).1.withoutNulls := by
  cases r with
  | maxBins =>
    cases hr
    obtain ⟨b, hb, hq⟩ := settle_eq_none h
    have hq' : ((q.restore o .bin).assign .bin c).1 = _ := hq
    rw [hq']
    cases b with
    | false => rfl
    | true =>
      simp only [if_true, restore, bin?, Toggle.setFlag]
      rcases o.bin with _ | _ | _ | _ <;> rfl
  | scaleOf part =>
    cases hr
    obtain ⟨b, rfl, hq⟩ := settleToggle_eq_none h
    have hq' : ((q.restore o .scale).assign .scale (.flag b)).1 = _ := hq
    rw [hq', restore_scaleOf]
    cases b with
    | false => rfl
    | true =>
      simp only [scale?, restore, Toggle.setFlag]
      rcases o.scale with _ | _ | s | ⟨w, s⟩
      · rfl
      · rfl
      · exact withoutNulls_eq_iff.mpr ⟨rfl, by cases part <;> rfl⟩
      · exact withoutNulls_eq_iff.mpr ⟨rfl, by cases part <;> rfl⟩
  | _ => contradiction

end FieldEncoding
/-! ## Encodings -/

namespace Encoding

/-- The encoding without the parts of a scale that are fixed at `null`. -/
def withoutNulls : Encoding → Encoding
  | field q => field q.withoutNulls
  | e => e

/-- An encoding of the same kind with its slots emptied. -/
def blank : Encoding → Encoding
  | field _ => field .blank
  | value _ v => value (.wild .short) v
  | autoCount .. => autoCount (.wild .short) (.wild .short)

/-- What an encoding holds apart from the slot of a property. -/
def apart (e : Encoding) (p : Property) : Encoding := (e.restore e.blank p).withoutNulls

/-- Chooses a value for a property, a part that holds settings being put back first. -/
def choose (e o : Encoding) (p : Property) (c : Choice) : Attempt Encoding :=
  (if p.holdsSettings then e.restore o p else e).assign p c

@[simp]
theorem restore_field (q o : FieldEncoding) (p : Property) :
    (field q).restore (field o) p = field (q.restore o p) := by
  cases p <;> rfl

@[simp]
theorem assign_field (q : FieldEncoding) (p : Property) (c : Choice) :
    (field q).assign p c = (field (q.assign p c).1, (q.assign p c).2) := by
  cases p <;> rfl

theorem apart_field (q : FieldEncoding) (p : Property) : (field q).apart p = field (q.apart p) := by
  unfold apart
  rw [blank, restore_field]
  rfl

@[simp]
theorem kind_withoutNulls (e : Encoding) : e.withoutNulls.kind = e.kind := by
  cases e <;> rfl

@[simp]
theorem kind_restore (e o : Encoding) (p : Property) : (e.restore o p).kind = e.kind := by
  cases e <;> cases o <;> cases p <;> rfl

@[simp]
theorem kind_assign (e : Encoding) (p : Property) (c : Choice) : (e.assign p c).1.kind = e.kind := by
  cases e with
  | field q => rw [assign_field]; rfl
  | value | autoCount => cases p <;> simp only [assign] <;> first | rfl | (split <;> rfl)

@[simp]
theorem kind_choose (e o : Encoding) (p : Property) (c : Choice) :
    (e.choose o p c).1.kind = e.kind := by
  unfold choose
  split <;> simp

theorem kind_of_apart {e f : Encoding} {p : Property} (h : e.apart p = f.apart p) :
    e.kind = f.kind := by
  have h' := congrArg kind h
  simpa only [apart, kind_withoutNulls, kind_restore] using h'

theorem kind_congr {e f : Encoding} (h : e.withoutNulls = f.withoutNulls) : e.kind = f.kind := by
  rw [← kind_withoutNulls, h, kind_withoutNulls]

theorem standing_withoutNulls (e : Encoding) (p : Property) :
    e.withoutNulls.standing p = e.standing p := by
  cases e with
  | field q => exact q.standing_withoutNulls p
  | value | autoCount => rfl

theorem standing_congr {e f : Encoding} (h : e.withoutNulls = f.withoutNulls) (p : Property) :
    e.standing p = f.standing p := by
  rw [← standing_withoutNulls, h, standing_withoutNulls]

/-- Encodings of one kind are two fields, two constants or two counts of rows. -/
theorem kind_cases {motive : Encoding → Encoding → Prop}
    (field : ∀ q r, motive (field q) (field r))
    (value : ∀ c v d w, motive (value c v) (value d w))
    (autoCount : ∀ c b d b', motive (autoCount c b) (autoCount d b')) {e f : Encoding}
    (h : e.kind = f.kind) : motive e f := by
  cases e <;> cases f <;> first
    | exact field _ _ | exact value _ _ _ _ | exact autoCount _ _ _ _ | exact absurd h nofun

theorem withoutNulls_of_ne_field {e : Encoding} (h : e.kind ≠ .field) : e.withoutNulls = e := by
  cases e with
  | field q => exact absurd rfl h
  | value | autoCount => rfl

theorem standing_of_apart {e f : Encoding} {p : Property} (h : e.apart p = f.apart p)
    {r : Property} (hr : r ≠ p) (hp : r.parent? ≠ some p) : e.standing r = f.standing r := by
  have hk := kind_of_apart h
  revert h
  refine kind_cases (motive := fun e f => e.apart p = f.apart p → e.standing r = f.standing r)
    (fun q q' h => ?_) (fun c v d w h => ?_) (fun c b d b' h => ?_) hk
  · rw [apart_field, apart_field] at h
    exact FieldEncoding.standing_of_apart (field.inj h) hr hp
  · cases p <;> simp_all [apart, restore, withoutNulls, blank, setChannel, standing]
  · cases p <;> simp_all [apart, restore, withoutNulls, blank, setChannel, standing]

theorem restore_congr {e f o : Encoding} (h : e.withoutNulls = f.withoutNulls) (p : Property)
    (hk : e.kind = o.kind) : (e.restore o p).withoutNulls = (f.restore o p).withoutNulls := by
  cases hf : e.kind with
  | field =>
    have hf' := (kind_congr h).symm.trans hf
    cases e <;> cases f <;> cases o <;> first | contradiction | skip
    rw [restore_field, restore_field]
    exact congrArg field (FieldEncoding.restore_congr (field.inj h) _ p)
  | _ =>
    have hf' := (kind_congr h).symm.trans hf
    rw [withoutNulls_of_ne_field (by simp [hf]), withoutNulls_of_ne_field (by simp [hf'])] at h
    rw [h]

theorem apart_congr {e f : Encoding} (h : e.withoutNulls = f.withoutNulls) (p : Property) :
    e.apart p = f.apart p := by
  have hk := kind_congr h
  revert h
  refine kind_cases (motive := fun e f => e.withoutNulls = f.withoutNulls → e.apart p = f.apart p)
    (fun q q' h => ?_) (fun c v d w h => ?_) (fun c b d b' h => ?_) hk
  · rw [apart_field, apart_field, FieldEncoding.apart_congr (field.inj h)]
  · exact congrArg (apart · p) h
  · exact congrArg (apart · p) h

theorem restore_of_apart {e f o : Encoding} {p : Property} (h : e.apart p = f.apart p)
    (ho : o.isOpen p) (hk : e.kind = o.kind) :
    (e.restore o p).withoutNulls = (f.restore o p).withoutNulls := by
  have hkf := kind_of_apart h
  cases o with
  | field o =>
    cases e <;> cases f <;> first | contradiction | skip
    rw [apart_field, apart_field] at h
    rw [restore_field, restore_field]
    refine congrArg field (FieldEncoding.restore_of_apart (field.inj h) fun part hp => ?_)
    subst hp
    exact Option.isSome_of_any ho
  | value c v =>
    cases e <;> cases f <;> first | contradiction | skip
    cases p <;> simp_all [apart, restore, withoutNulls, blank, setChannel]
  | autoCount c b =>
    cases e <;> cases f <;> first | contradiction | skip
    cases p <;> simp_all [apart, restore, withoutNulls, blank, setChannel]

theorem apart_restore {e o : Encoding} (p : Property) (hk : e.kind = o.kind) :
    (e.restore o p).apart p = e.apart p := by
  refine kind_cases (motive := fun e o => (e.restore o p).apart p = e.apart p)
    (fun q o => ?_) (fun c v d w => ?_) (fun c b d b' => ?_) hk
  · rw [restore_field, apart_field, apart_field, FieldEncoding.apart_restore]
  · cases p <;> rfl
  · cases p <;> rfl

theorem apart_assign (e : Encoding) (p : Property) (c : Choice) :
    (e.assign p c).1.apart p = e.apart p := by
  cases e with
  | field q => rw [assign_field, apart_field, apart_field, FieldEncoding.apart_assign]
  | value | autoCount => cases p <;> simp only [assign] <;> first | rfl | (split <;> rfl)

/-- Choosing a value leaves the rest of the encoding alone. -/
theorem apart_choose {e o : Encoding} (p : Property) (c : Choice) (hk : e.kind = o.kind) :
    (e.choose o p c).1.apart p = e.apart p := by
  unfold choose
  split
  · rw [apart_assign, apart_restore p hk]
  · rw [apart_assign]

/-- What a slot held does not matter once a value is chosen for it. -/
theorem choose_of_apart {e f o : Encoding} {p : Property} (h : e.apart p = f.apart p)
    (hk : e.kind = o.kind) (c : Choice) : (e.choose o p c).2 = (f.choose o p c).2 ∧
      ((e.choose o p c).2 = none →
        (e.choose o p c).1.withoutNulls = (f.choose o p c).1.withoutNulls) := by
  have hkf := kind_of_apart h
  unfold choose
  cases o with
  | field o =>
    cases e <;> cases f <;> first | contradiction | skip
    rw [apart_field, apart_field] at h
    cases hp : p.holdsSettings with
    | false =>
      have h' := FieldEncoding.assign_of_apart (field.inj h) hp c
      simp only [Bool.false_eq_true, if_false, assign_field]
      exact ⟨h'.1, fun hn => congrArg field (h'.2 hn)⟩
    | true =>
      have hr := FieldEncoding.restore_of_apart (field.inj h) (o := o)
        (fun part hp' => by subst hp'; contradiction)
      have h' := FieldEncoding.assign_congr hr p c
      simp only [if_true, restore_field, assign_field]
      exact ⟨h'.1, fun _ => congrArg field h'.2⟩
  | value d v =>
    cases e <;> cases f <;> first | contradiction | skip
    cases p <;> simp_all [apart, restore, withoutNulls, blank, setChannel, assign,
      Property.holdsSettings]
    cases (ofChoice? c : Option Channel) <;> simp
  | autoCount d b =>
    cases e <;> cases f <;> first | contradiction | skip
    cases p <;> simp_all [apart, restore, withoutNulls, blank, setChannel, assign,
      Property.holdsSettings]
    · cases (ofChoice? c : Option Channel) <;> simp
    · cases (ofChoice? c : Option Bool) <;> simp

theorem standing_assign {e : Encoding} {p : Property} {c : Choice} (h : (e.assign p c).2 = none) :
    (e.assign p c).1.standing p = p.standingFor c := by
  cases e with
  | field q =>
    rw [assign_field] at h ⊢
    exact FieldEncoding.standing_assign h
  | value d v =>
    cases p <;> simp only [assign, reduceCtorEq] at h ⊢
    split at h
    · next v hv => exact (FieldEncoding.reading_of_some hv).symm
    · contradiction
  | autoCount d b =>
    cases p <;> simp only [assign, reduceCtorEq] at h ⊢
    · split at h
      · next v hv => exact (FieldEncoding.reading_of_some hv).symm
      · contradiction
    · split at h
      · next v hv => exact (FieldEncoding.reading_of_some hv).symm
      · contradiction

/-- The slot for which a choice was made stands as the choice says. -/
theorem standing_choose {e o : Encoding} {p : Property} {c : Choice}
    (h : (e.choose o p c).2 = none) : (e.choose o p c).1.standing p = p.standingFor c :=
  standing_assign h

/-- Slots outside the one for which a choice was made stand as before. -/
theorem standing_choose_of_ne {e o : Encoding} {p r : Property} (hk : e.kind = o.kind)
    (hr : r ≠ p) (hp : r.parent? ≠ some p) (c : Choice) :
    (e.choose o p c).1.standing r = e.standing r :=
  standing_of_apart (apart_choose p c hk) hr hp

/-- Slots inside a part that was switched stand as they were built, or are gone. -/
theorem standing_choose_child {e o : Encoding} {p r : Property} {c : Choice}
    (hk : e.kind = o.kind) (hr : r.parent? = some p) (h : (e.choose o p c).2 = none) :
    (e.choose o p c).1.standing r = if c = .flag true then o.standing r else .absent := by
  have hp : p.holdsSettings = true := by
    cases r <;> cases hr <;> rfl
  unfold choose at h ⊢
  rw [hp, if_pos rfl] at h ⊢
  cases o with
  | field o =>
    cases e <;> first | contradiction | skip
    rw [restore_field, assign_field] at h ⊢
    refine (FieldEncoding.standing_assign_child hr h).trans ?_
    cases r <;> cases hr <;> rfl
  | value | autoCount =>
    cases e <;> first | contradiction | skip
    cases p <;> contradiction

/-- What was in place stays in place when a choice is made, unless it is made for the slot itself
or inside it. A slot inside a part that is switched is put in place with it. -/
theorem restore_choose {e o : Encoding} {p r : Property} {c : Choice} (hk : e.kind = o.kind)
    (h : (e.choose o p c).2 = none) (hr : r ≠ p) (hp : p.parent? ≠ some r)
    (he : r.parent? = some p ∨ (e.restore o r).withoutNulls = e.withoutNulls) :
    ((e.choose o p c).1.restore o r).withoutNulls = (e.choose o p c).1.withoutNulls := by
  cases o with
  | field o =>
    cases e <;> first | contradiction | skip
    next q =>
    by_cases hrp : r.parent? = some p
    · have hs : p.holdsSettings = true := by cases r <;> cases hrp <;> rfl
      unfold choose at h ⊢
      rw [hs, if_pos rfl, restore_field, assign_field] at h ⊢
      rw [restore_field]
      exact congrArg field (FieldEncoding.restore_assign_child hrp c h)
    · have he := he.resolve_left hrp
      rw [restore_field] at he
      have he : (q.restore o r).withoutNulls = q.withoutNulls := field.inj he
      have hf : (if p.holdsSettings then (field q).restore (field o) p else field q) =
          field (if p.holdsSettings then q.restore o p else q) := by
        split <;> simp
      have hc : ((if p.holdsSettings then q.restore o p else q).restore o r).withoutNulls =
          (if p.holdsSettings then q.restore o p else q).withoutNulls := by
        split
        · next hs =>
          rw [FieldEncoding.restore_restore hs hr hrp]
          exact FieldEncoding.restore_congr he o p
        · exact he
      unfold choose at h ⊢
      rw [hf, assign_field] at h ⊢
      rw [restore_field]
      refine congrArg field ?_
      rw [FieldEncoding.restore_assign hr hp hrp]
      exact (FieldEncoding.assign_congr hc p c).2
  | value d v =>
    cases e <;> first | contradiction | skip
    cases p <;> simp_all [choose, assign, Property.holdsSettings, restore]
  | autoCount d b =>
    cases e <;> first | contradiction | skip
    next d' b' =>
    cases p with
    | channel =>
      obtain ⟨v, hv⟩ : ∃ v, (autoCount d' b').choose (autoCount d b) .channel c =
          (autoCount (.fixed v) b', none) := by
        cases hc : (ofChoice? c : Option Channel) with
        | none => simp [choose, assign, Property.holdsSettings, hc] at h
        | some v => exact ⟨v, by simp [choose, assign, Property.holdsSettings, setChannel, hc]⟩
      rw [hv]
      cases r <;> simp_all [restore, withoutNulls, Property.parent?]
    | autoCount =>
      obtain ⟨v, hv⟩ : ∃ v, (autoCount d' b').choose (autoCount d b) .autoCount c =
          (autoCount d' (.fixed v), none) := by
        cases hc : (ofChoice? c : Option Bool) with
        | none => simp [choose, assign, Property.holdsSettings, hc] at h
        | some v => exact ⟨v, by simp [choose, assign, Property.holdsSettings, hc]⟩
      rw [hv]
      cases r <;> simp_all [restore, withoutNulls, setChannel, Property.parent?]
    | _ => simp_all [choose, assign, Property.holdsSettings, restore]

end Encoding
end ChartAdvisor
