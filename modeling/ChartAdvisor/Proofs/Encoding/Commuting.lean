import ChartAdvisor.Proofs.Encoding.Choosing

/-!
# The order of two choices in an encoding

A choice writes one member of an encoding, that of its property or of the part in which the property
lies, and what it writes there and whether it is taken depend on nothing but that member. So choices
with different members may come in either order, to the very encoding. Where both lie in one scale, each
also takes a domain or a range at `null` out; that may be done once or twice.
-/
namespace ChartAdvisor

/-- The member of an encoding that a choice for a property writes. -/
def Property.home (p : Property) : Property := p.parent?.getD p

namespace Property

theorem parent?_home (p : Property) : p.home.parent? = none := by
  cases p <;> rfl

theorem home_of_holdsSettings {p : Property} (h : p.holdsSettings = true) : p.home = p := by
  cases p <;> first | contradiction | rfl

/-- Two properties with one member, neither of which lies in the other, are parts of a scale. -/
theorem scaleOf_of_home_eq {p r : Property} (h : p.home = r.home) (hne : p ≠ r)
    (hp : p.parent? ≠ some r) (hr : r.parent? ≠ some p) :
    ∃ a b, p = .scaleOf a ∧ r = .scaleOf b ∧ a ≠ b := by
  cases p <;> cases r <;> first
    | contradiction
    | exact absurd rfl hne
    | exact absurd rfl hp
    | exact absurd rfl hr
    | exact ⟨_, _, rfl, rfl, fun e => hne (e ▸ rfl)⟩

end Property

/-! ## Scales -/

/-- Two parts of a scale may be given their values in either order. -/
theorem Scale.assign_assign (s : Scale) {a b : ScaleProperty} (h : b ≠ a) (v w : Choice) :
    ((s.assign a v).1.assign b w).1 = ((s.assign b w).1.assign a v).1 := by
  unfold assign
  cases hv : (ofChoice? v : Option a.Value) <;> cases hw : (ofChoice? w : Option b.Value) <;>
    simp only
  · rw [dropNulls_put_congr s.dropNulls_dropNulls, dropNulls_dropNulls]
  · rw [dropNulls_put_congr s.dropNulls_dropNulls, dropNulls_dropNulls]
  · rw [dropNulls_put_congr (dropNulls_dropNulls _), dropNulls_put_congr (dropNulls_dropNulls _),
      put_comm _ h]

/-! ## Fields -/

namespace FieldEncoding

variable {q a b : FieldEncoding} {h k p r : Property}

/-- Two members may be taken over from two fields in either order. -/
theorem restore_restore_of_ne (hk : k.parent? = none) (hh : h.parent? = none) (hne : h ≠ k) :
    (q.restore a k).restore b h = (q.restore b h).restore a k := by
  cases k <;> cases h <;> first | rfl | contradiction

/-- What was taken over before does not matter. -/
theorem restore_restore_self (hk : k.parent? = none) : (q.restore a k).restore b k = q.restore b k := by
  cases k <;> first | rfl | contradiction

/-- Another member may be taken over before or after a choice, which is taken either way or neither. -/
theorem assign_restore (hk : k.parent? = none) (hne : k ≠ p.home) (c : Choice) :
    (q.restore a k).assign p c = ((q.assign p c).1.restore a k, (q.assign p c).2) := by
  cases p with
  | maxBins =>
    have hbin : (q.restore a k).bin? = q.bin? := by
      cases k <;> first | rfl | contradiction
    rw [assign_maxBins, assign_maxBins, hbin]
    split
    · unfold settle
      split <;> cases k <;> first | rfl | contradiction
    · rfl
  | scaleOf part =>
    have hscale : (q.restore a k).scale? = q.scale? := by
      cases k <;> first | rfl | contradiction
    rw [assign_scaleOf, assign_scaleOf, hscale]
    split <;> cases k <;> first | rfl | contradiction
  | channel | aggregate | timeUnit | field | type | sort | bin =>
    simp only [assign, settle]
    split <;> cases k <;> first | rfl | contradiction
  | scale | axis | legend =>
    simp only [assign, settleToggle]
    split <;> cases k <;> first | rfl | contradiction
  | _ => rfl

/-- All that a choice does is to write the member of its property. -/
theorem restore_home (q : FieldEncoding) (p : Property) (c : Choice) :
    q.restore (q.assign p c).1 p.home = (q.assign p c).1 := by
  cases p with
  | maxBins =>
    rw [assign_maxBins]
    split
    · unfold settle
      split <;> rfl
    · rfl
  | scaleOf part =>
    rw [assign_scaleOf]
    split <;> rfl
  | channel | aggregate | timeUnit | field | type | sort | bin =>
    simp only [assign, settle]
    split <;> rfl
  | scale | axis | legend =>
    simp only [assign, settleToggle]
    split <;> rfl
  | _ => rfl

theorem isSome_scale?_assign (q : FieldEncoding) (part : ScaleProperty) (c : Choice) :
    (q.assign (.scaleOf part) c).1.scale?.isSome = q.scale?.isSome := by
  rw [assign_scaleOf]
  split
  · simp only [scale?, Toggle.bind_inner?_map_mapInner, Option.isSome_map]
  · rfl

/-- Values may be chosen for two parts of a scale in either order. -/
theorem assign_assign_scaleOf (q : FieldEncoding) {x y : ScaleProperty} (hne : y ≠ x) (v w : Choice) :
    (q.assign (.scaleOf x) v).1.assign (.scaleOf y) w =
      (((q.assign (.scaleOf y) w).1.assign (.scaleOf x) v).1, (q.assign (.scaleOf y) w).2) := by
  by_cases hs : q.scale?.isSome
  · have taken {q : FieldEncoding} (hs : q.scale?.isSome) (part : ScaleProperty) (c : Choice) :=
      (q.assign_scaleOf part c).trans (if_pos hs)
    rw [taken ((q.isSome_scale?_assign x v).trans hs), taken ((q.isSome_scale?_assign y w).trans hs),
      taken hs, taken hs]
    simp only [Toggle.map_mapInner_mapInner]
    refine congrArg (fun f => ({ q with scale := q.scale.map (Toggle.mapInner f) }, _))
      (funext fun s => ?_)
    exact s.assign_assign hne v w
  · have hstays (part : ScaleProperty) (c : Choice) :
        q.assign (.scaleOf part) c = (q, some (.notOfEncoding (.scaleOf part))) := by
      rw [assign_scaleOf, if_neg hs]
    rw [hstays, hstays, hstays]

end FieldEncoding

/-! ## Encodings -/

namespace Encoding

variable {e o a b : Encoding} {h k p r : Property}

theorem restore_restore_of_ne (ha : e.kind = a.kind) (hb : e.kind = b.kind) (hk : k.parent? = none)
    (hh : h.parent? = none) (hne : h ≠ k) :
    (e.restore a k).restore b h = (e.restore b h).restore a k := by
  cases e <;> cases a <;> first | contradiction | skip
  all_goals cases b <;> first | contradiction | skip
  · simp only [restore_field, FieldEncoding.restore_restore_of_ne hk hh hne]
  all_goals cases k <;> cases h <;> first | rfl | contradiction

theorem restore_restore_self (ha : e.kind = a.kind) (hb : e.kind = b.kind) (hk : k.parent? = none) :
    (e.restore a k).restore b k = e.restore b k := by
  cases e <;> cases a <;> first | contradiction | skip
  all_goals cases b <;> first | contradiction | skip
  · simp only [restore_field, FieldEncoding.restore_restore_self hk]
  all_goals cases k <;> rfl

theorem assign_restore (ha : e.kind = a.kind) (hk : k.parent? = none) (hne : k ≠ p.home)
    (c : Choice) : (e.restore a k).assign p c = ((e.assign p c).1.restore a k, (e.assign p c).2) := by
  cases e <;> cases a <;> first | contradiction | skip
  · simp only [restore_field, assign_field, FieldEncoding.assign_restore hk hne]
  all_goals
    cases k <;> cases p <;> first
      | rfl | contradiction | (simp only [restore, assign, setChannel]; split <;> rfl)

theorem restore_home (e : Encoding) (p : Property) (c : Choice) :
    e.restore (e.assign p c).1 p.home = (e.assign p c).1 := by
  cases e with
  | field q => simp only [assign_field, restore_field, FieldEncoding.restore_home]
  | value | autoCount => cases p <;> simp only [assign] <;> first | rfl | (split <;> rfl)

theorem choose_restore (ha : e.kind = a.kind) (ho : e.kind = o.kind) (hk : k.parent? = none)
    (hne : k ≠ p.home) (c : Choice) :
    (e.restore a k).choose o p c = ((e.choose o p c).1.restore a k, (e.choose o p c).2) := by
  unfold choose
  by_cases hp : p.holdsSettings = true
  · have hhome := Property.home_of_holdsSettings hp
    rw [if_pos hp, if_pos hp, restore_restore_of_ne ha ho hk (hhome ▸ p.parent?_home) (hhome ▸ hne.symm),
      assign_restore ((kind_restore ..).trans ha) hk hne]
  · rw [if_neg hp, if_neg hp, assign_restore ha hk hne]

theorem choose_home (e o : Encoding) (p : Property) (c : Choice) (ho : e.kind = o.kind) :
    e.restore (e.choose o p c).1 p.home = (e.choose o p c).1 := by
  unfold choose
  by_cases hp : p.holdsSettings = true
  · rw [if_pos hp]
    have hhome := (e.restore o p).restore_home p c
    have hkind : e.kind = ((e.restore o p).assign p c).1.kind := by rw [kind_assign, kind_restore]
    have htop : p.parent? = none := Property.home_of_holdsSettings hp ▸ p.parent?_home
    rw [Property.home_of_holdsSettings hp] at hhome ⊢
    rwa [restore_restore_self ho hkind htop] at hhome
  · rw [if_neg hp, restore_home]

/-- Where neither property lies in the other, values may be chosen for the two in either order: the
encoding that results is the same, and each choice is taken or refused all the same. -/
theorem choose_choose (ho : e.kind = o.kind) (hne : r ≠ p) (hp : p.parent? ≠ some r)
    (hr : r.parent? ≠ some p) (v w : Choice) :
    (e.choose o p v).1.choose o r w =
      (((e.choose o r w).1.choose o p v).1, (e.choose o r w).2) := by
  by_cases hhome : p.home = r.home
  · obtain ⟨x, y, rfl, rfl, hxy⟩ := Property.scaleOf_of_home_eq hhome hne.symm hp hr
    cases e with
    | field q =>
      change ((field q).assign (.scaleOf x) v).1.assign (.scaleOf y) w =
        ((((field q).assign (.scaleOf y) w).1.assign (.scaleOf x) v).1,
          ((field q).assign (.scaleOf y) w).2)
      simp only [assign_field, FieldEncoding.assign_assign_scaleOf q hxy.symm]
    | value | autoCount => rfl
  · have hkp : e.kind = (e.choose o p v).1.kind := (kind_choose ..).symm
    have hkr : e.kind = (e.choose o r w).1.kind := (kind_choose ..).symm
    -- Each encoding is the first one with one member taken over, and those members differ.
    have hright : (e.choose o p v).1.choose o r w =
        ((e.choose o r w).1.restore (e.choose o p v).1 p.home, (e.choose o r w).2) := by
      have h := choose_restore hkp ho p.parent?_home hhome w
      rwa [choose_home _ _ _ _ ho] at h
    have hleft : (e.choose o r w).1.choose o p v =
        ((e.choose o p v).1.restore (e.choose o r w).1 r.home, (e.choose o p v).2) := by
      have h := choose_restore hkr ho r.parent?_home (Ne.symm hhome) v
      rwa [choose_home _ _ _ _ ho] at h
    rw [hright, hleft, Prod.mk.injEq]
    refine ⟨?_, rfl⟩
    calc (e.choose o r w).1.restore (e.choose o p v).1 p.home
        = (e.restore (e.choose o r w).1 r.home).restore (e.choose o p v).1 p.home := by
          rw [choose_home _ _ _ _ ho]
      _ = (e.restore (e.choose o p v).1 p.home).restore (e.choose o r w).1 r.home :=
          restore_restore_of_ne hkr hkp r.parent?_home p.parent?_home hhome
      _ = (e.choose o p v).1.restore (e.choose o r w).1 r.home := by rw [choose_home _ _ _ _ ho]

end Encoding
end ChartAdvisor
