import ChartAdvisor.Proofs.Encoding.Choosing

/-!
# Scales without nulls

Encodings are compared by `withoutNulls`. An encoding in which no domain and no range is fixed at
`null` is its own comparison, and stays so when a value is chosen or a slot put back.
-/
namespace ChartAdvisor

/-- Neither the domain nor the range is fixed at `null`. -/
def Scale.NullFree (s : Scale) : Prop :=
  s.domain ≠ some (.fixed .null) ∧ s.range ≠ some (.fixed .null)

namespace Scale

theorem keepUnlessNull_eq_self_iff (s : Option (Slot Json)) :
    keepUnlessNull s = s ↔ s ≠ some (.fixed .null) := by
  unfold keepUnlessNull
  split
  · next h => simp [h]
  · next h => simp [h]

theorem nullFree_empty : Scale.NullFree {} := ⟨nofun, nofun⟩

theorem dropNulls_eq_self_iff (s : Scale) : s.dropNulls = s ↔ s.NullFree := by
  rw [dropNulls_eq]
  unfold NullFree
  rw [← keepUnlessNull_eq_self_iff, ← keepUnlessNull_eq_self_iff]
  constructor
  · intro h
    exact ⟨congrArg domain h, congrArg range h⟩
  · rintro ⟨hd, hr⟩
    rw [hd, hr]

theorem nullFree_dropNulls (s : Scale) : s.dropNulls.NullFree := by
  rw [← dropNulls_eq_self_iff, dropNulls_dropNulls]

/-- A value for any part takes the nulls out. -/
theorem nullFree_assign (s : Scale) (p : ScaleProperty) (c : Choice) :
    (s.assign p c).1.NullFree := by
  unfold assign
  split
  · exact nullFree_dropNulls _
  · exact nullFree_dropNulls _

theorem NullFree.restore {s o : Scale} (h : s.NullFree) {p : ScaleProperty}
    (ho : o.isOpen p = true) : (s.restore o p).NullFree := by
  unfold isOpen at ho
  unfold Scale.restore
  rcases hg : o.get p with _ | _ | w
  · rw [hg] at ho; contradiction
  · rw [hg] at ho; contradiction
  · cases p with
    | domain => exact ⟨nofun, h.2⟩
    | range => exact ⟨h.1, nofun⟩
    | _ => exact h

end Scale

namespace FieldEncoding

/-- No domain and no range of the scale is fixed at `null`. -/
def NullFree (q : FieldEncoding) : Prop := ∀ s ∈ q.scale?, s.NullFree

theorem withoutNulls_eq_self_iff (q : FieldEncoding) : q.withoutNulls = q ↔ q.NullFree := by
  have hscale : q.withoutNulls = q ↔ q.scale.map (·.mapInner Scale.dropNulls) = q.scale := by
    constructor
    · intro h
      exact congrArg scale h
    · intro h
      unfold withoutNulls
      rw [h]
  rw [hscale]
  unfold NullFree scale?
  rcases q.scale with _ | _ | s | ⟨w, s⟩ <;>
    simp [Toggle.mapInner, Toggle.inner?, Scale.dropNulls_eq_self_iff]

theorem NullFree.of_scale {q r : FieldEncoding} (h : q.NullFree) (hs : r.scale = q.scale) :
    r.NullFree := by
  unfold NullFree scale?
  rw [hs]
  exact h

theorem NullFree.mapInner {q : FieldEncoding} {f : Scale → Scale}
    (hf : ∀ s, q.scale? = some s → (f s).NullFree) :
    FieldEncoding.NullFree { q with scale := q.scale.map (·.mapInner f) } := by
  unfold NullFree scale?
  rw [Toggle.bind_inner?_map_mapInner]
  intro s hs
  obtain ⟨t, ht, rfl⟩ := Option.map_eq_some_iff.mp hs
  exact hf t ht

theorem NullFree.assign {q : FieldEncoding} (h : q.NullFree) (p : Property) (c : Choice) :
    (q.assign p c).1.NullFree := by
  cases p with
  | scale =>
    simp only [FieldEncoding.assign, settleToggle]
    have hflag (b : Bool) : FieldEncoding.NullFree
        { q with scale := some ((q.scale.getD .off).setFlag b) } := by
      intro s hs
      rcases hq : q.scale with _ | _ | t | ⟨w, t⟩ <;> rw [hq] at hs <;> cases b <;> cases hs
      · exact Scale.nullFree_empty
      · exact Scale.nullFree_empty
      · exact h t (by rw [scale?, hq]; rfl)
      · exact h t (by rw [scale?, hq]; rfl)
    split
    · exact hflag _
    · intro s hs
      refine h s ?_
      rcases hq : q.scale with _ | t
      · rw [hq] at hs; contradiction
      · rw [hq] at hs
        rw [scale?, hq]
        exact hs
  | scaleOf part =>
    rw [assign_scaleOf]
    split
    · exact .mapInner fun s _ => s.nullFree_assign part c
    · exact h
  | bin | axis | legend => simp only [FieldEncoding.assign, settle, settleToggle]; split <;> exact h
  | maxBins =>
    rw [assign_maxBins]
    unfold settle
    split
    · split <;> exact h
    · exact h
  | channel | aggregate | timeUnit | field | type | sort =>
    simp only [FieldEncoding.assign, settle]; split <;> exact h
  | _ => exact h

theorem NullFree.restore {q o : FieldEncoding} (h : q.NullFree) {p : Property}
    (hs : p = .scale → o.NullFree) (ho : o.isOpen p = true) : (q.restore o p).NullFree := by
  cases p with
  | scale => exact hs rfl
  | scaleOf part =>
    cases hos : o.scale? with
    | none => simp [isOpen, hos] at ho
    | some t =>
      simp only [FieldEncoding.restore, hos]
      refine .mapInner fun s hq => (h s hq).restore ?_
      simpa [isOpen, hos] using ho
  | _ => exact h

end FieldEncoding

namespace Encoding

/-- No domain and no range of a scale is fixed at `null`. -/
def NullFree (e : Encoding) : Prop := ∀ q ∈ e.field?, q.NullFree

theorem nullFree_field (q : FieldEncoding) : (field q).NullFree ↔ q.NullFree := by
  simp [NullFree, field?]

theorem withoutNulls_eq_self_iff (e : Encoding) : e.withoutNulls = e ↔ e.NullFree := by
  cases e with
  | field q =>
    rw [nullFree_field, ← q.withoutNulls_eq_self_iff, withoutNulls, field.injEq]
  | value | autoCount => simp [withoutNulls, NullFree, field?]

theorem NullFree.of_kind {e : Encoding} (h : e.kind ≠ .field) : e.NullFree := by
  rw [← withoutNulls_eq_self_iff, withoutNulls_of_ne_field h]

theorem NullFree.assign {e : Encoding} (h : e.NullFree) (p : Property) (c : Choice) :
    (e.assign p c).1.NullFree := by
  cases e with
  | field q =>
    rw [assign_field]
    exact (nullFree_field _).mpr (((nullFree_field q).mp h).assign p c)
  | value | autoCount => exact .of_kind (by rw [kind_assign]; nofun)

theorem NullFree.restore {e o : Encoding} (h : e.NullFree) {p : Property} (hk : e.kind = o.kind)
    (hs : p = .scale → o.NullFree) (ho : o.isOpen p = true) : (e.restore o p).NullFree := by
  cases e with
  | field q =>
    cases o with
    | field r =>
      rw [restore_field]
      exact (nullFree_field _).mpr (((nullFree_field q).mp h).restore
        (fun hp => (nullFree_field r).mp (hs hp)) ho)
    | value | autoCount => exact absurd hk nofun
  | value | autoCount => exact .of_kind (by rw [kind_restore]; nofun)

theorem NullFree.choose {e o : Encoding} (h : e.NullFree) {p : Property} (hk : e.kind = o.kind)
    (hs : p = .scale → o.NullFree) (ho : o.isOpen p = true) (c : Choice) :
    (e.choose o p c).1.NullFree := by
  unfold Encoding.choose
  split
  · exact (h.restore hk hs ho).assign p c
  · exact h.assign p c

/-- Where the scale is as in another encoding, so are its nulls. -/
theorem NullFree.of_restore {e o : Encoding} (h : e.NullFree) (hk : e.kind = o.kind)
    (hr : e.restore o .scale = e) : o.NullFree := by
  cases e with
  | field q =>
    cases o with
    | field r =>
      rw [restore_field, field.injEq] at hr
      have hscale := congrArg FieldEncoding.scale hr
      exact (nullFree_field r).mpr (((nullFree_field q).mp h).of_scale hscale)
    | value | autoCount => exact absurd hk nofun
  | value | autoCount => exact .of_kind (by rw [← hk]; nofun)

end Encoding
end ChartAdvisor
