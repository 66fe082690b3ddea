import ChartAdvisor.Proofs.Query.Charts
import ChartAdvisor.Proofs.Shorthand.Resolved

/-!
# The shorthand of a chart

The chart of a query has the shorthand of the query: what a chart does not keep is not written either.
This fails where the two disagree. A scale is written on every channel, but kept only on channels that
have one; and a count of rows is never written with the stack, but the field that it is read as is.
-/
namespace ChartAdvisor

/-- The scale of a field stands on a channel that has one, if it is written. -/
def FieldEncoding.KeepsScale (q : FieldEncoding) : Prop :=
  ∀ t ∈ q.scale.map (·.mapInner Scale.dropNulls), t.isWritten = true →
    q.channel.value?.all Channel.supportsScale = true

def Encoding.KeepsScale : Encoding → Prop
  | field q => q.KeepsScale
  | _ => True

theorem Scale.isOpen_dropNulls {s : Scale} {p : ScaleProperty} (closed : s.isOpen p = false) :
    s.dropNulls.isOpen p = false := by
  rw [isOpen, get_dropNulls_eq]
  cases hv : s.get p with
  | none => rfl
  | some v =>
    rw [isOpen, hv] at closed
    rw [Option.filter_some]
    split
    · exact closed
    · rfl

namespace FieldEncoding

variable {q : FieldEncoding}

theorem isOpen_charted (closed : ∀ p, q.isOpen p = false) (p : Property) : q.charted.isOpen p = false := by
  have hkept {α : Type} {t? : Option (Toggle α)} {keep : Toggle α → Bool} {a : α}
      (h : (t?.filter keep).bind Toggle.inner? = some a) : t?.bind Toggle.inner? = some a := by
    obtain ⟨t, ht, ha⟩ := Option.bind_eq_some_iff.mp h
    rw [(Option.filter_eq_some_iff.mp ht).1]
    exact ha
  have hclosed := closed p
  cases p with
  | bin => exact Encoding.any_isOpen_filter hclosed _
  | axis => exact Encoding.any_isOpen_filter hclosed _
  | legend => exact Encoding.any_isOpen_filter hclosed _
  | scale =>
    have hscale := Encoding.any_isOpen_filter hclosed
      fun _ => q.channel.value?.all Channel.supportsScale
    rw [isOpen, charted, Option.any_map]
    refine Eq.trans ?_ hscale
    congr 1
    funext t
    cases t <;> rfl
  | maxBins =>
    cases hb : q.charted.bin? with
    | none => rw [isOpen, hb]; rfl
    | some b =>
      rw [isOpen, bin?, hkept hb] at hclosed
      rw [isOpen, hb]
      exact hclosed
  | scaleOf part =>
    cases hs : q.charted.scale? with
    | none => rw [isOpen, hs]; rfl
    | some s =>
      rw [scale?, charted, Toggle.bind_inner?_map_mapInner] at hs
      obtain ⟨t, ht, rfl⟩ := Option.map_eq_some_iff.mp hs
      rw [isOpen, scale?, hkept ht, Option.any_some] at hclosed
      rw [isOpen, scale?, charted, Toggle.bind_inner?_map_mapInner, ht]
      exact Scale.isOpen_dropNulls hclosed
  | _ => exact hclosed

theorem KeepsScale.asWritten_charted (h : q.KeepsScale) : q.charted.asWritten = q.asWritten := by
  have hbin : (q.bin.filter Toggle.isOn).filter Toggle.isOn = q.bin.filter Toggle.isOn := by
    rw [Option.filter_filter]
    simp only [Bool.and_self]
  have hall {α : Type} (t? : Option α) : (t?.filter fun _ => true) = t? := by
    cases t? <;> rfl
  have hscale : (q.charted.scale.map (·.mapInner Scale.dropNulls)).filter Toggle.isWritten =
      (q.scale.map (·.mapInner Scale.dropNulls)).filter Toggle.isWritten := by
    unfold charted
    rw [Toggle.map_mapInner_mapInner, show Scale.dropNulls ∘ Scale.dropNulls = Scale.dropNulls from
      funext Scale.dropNulls_dropNulls]
    cases hsupported : q.channel.value?.all Channel.supportsScale with
    | true => rw [hall]
    | false =>
      have hnone : (q.scale.filter fun _ => false) = none := by cases q.scale <;> rfl
      rw [hnone]
      symm
      refine Option.filter_eq_none_iff.mpr fun t ht hwritten => ?_
      rw [h t ht hwritten] at hsupported
      contradiction
  have hguide {guide : Option (Toggle Guide)} (supported : Bool) :
      (if supported then (guide.filter fun _ => supported).filter Toggle.isWritten else none) =
        if supported then guide.filter Toggle.isWritten else none := by
    cases supported with
    | true => rw [hall]
    | false => rfl
  unfold asWritten
  rw [hscale]
  simp only [charted, hbin, FieldEncoding.mk.injEq, true_and]
  exact ⟨hguide _, hguide _⟩

end FieldEncoding

open Shorthand

namespace Encoding

variable {e : Encoding}

theorem charted_autoCount {c : Slot Channel} {b : Slot Bool}
    (closed : ∀ p, (autoCount c b).isOpen p = false) : (autoCount c b).charted = (autoCount c b).told := by
  cases b with
  | fixed b => rfl
  | wild w => simpa [isOpen, Slot.isOpen] using closed .autoCount

theorem stacksLike_charted (closed : ∀ p, e.isOpen p = false) (shown : e.isDisabledAutoCount = false) :
    e.charted.StacksLike e := by
  cases e with
  | field | value => exact ⟨rfl, rfl, rfl, rfl, rfl⟩
  | autoCount c b => exact charted_autoCount closed ▸ stacksLike_told shown

/-- What a chart keeps of an encoding is written as the encoding is. -/
theorem KeepsScale.encodingWith_charted (h : e.KeepsScale) (closed : ∀ p, e.isOpen p = false)
    (shown : e.isDisabledAutoCount = false) {stackOffset : Option String}
    (plain : e.isEnabledAutoCount = true → stackOffset = none) :
    encodingWith Include.all [] e.charted stackOffset = encodingWith Include.all [] e stackOffset := by
  cases e with
  | value => rfl
  | autoCount c b => exact charted_autoCount closed ▸ encodingWith_told shown (fun _ _ => rfl) plain
  | field q =>
    calc
      encodingWith Include.all [] (field q.charted) stackOffset
        = encodingWith Include.all [] (field q.charted.asWritten) stackOffset :=
          (encodingWith_asWritten (e := field q.charted) (FieldEncoding.isOpen_charted closed)
            (fun _ _ => rfl) stackOffset).symm
      _ = encodingWith Include.all [] (field q.asWritten) stackOffset := by
          rw [FieldEncoding.KeepsScale.asWritten_charted h]
      _ = encodingWith Include.all [] (field q) stackOffset :=
          encodingWith_asWritten closed (fun _ _ => rfl) stackOffset

end Encoding

/-- The chart of a query has the shorthand of the query, if each channel has one encoding at most, what
accumulates is a field, and each scale that is written is kept. -/
theorem ChartQuery.IsChartable.shorthand_chart {q : ChartQuery} (h : q.IsChartable)
    (apart : q.ChannelsApart) (fields : q.StacksField) (scales : ∀ e ∈ q.active, e.KeepsScale)
    {defaults : Json.Members} (ordered : (Json.object defaults).Ordered)
    (plain : defaults.lookup "stack" = none) {c : Chart} (hc : q.toChart? defaults = some c) :
    c.shorthand = .ok q.shorthand := by
  obtain ⟨-, hcomplete⟩ := toChart?_isSome_iff.mp (Option.isSome_of_eq_some hc)
  obtain ⟨r, hr, hmark, htransform, hoffset, hperm⟩ := h.toQuery apart ordered plain hc
  have hshown (e : Encoding) (he : e ∈ q.active) : e.isDisabledAutoCount = false := by
    simpa using (List.mem_filter.mp he).2
  have hwritten : r.shorthand = q.shorthand := by
    refine apart.stacksApart.shorthand_of_perm
      (fun e he => Encoding.stacksLike_charted (hcomplete e he).closed (hshown e he)) hperm hmark htransform
      hoffset fun e he => ?_
    exact (scales e he).encodingWith_charted (hcomplete e he).closed (hshown e he)
      (fields.stacksShown.offsetOf?_eq_none apart.stacksApart (List.mem_filter.mp he).1)
  rw [Chart.shorthand, hr, ← hwritten]
  rfl

end ChartAdvisor
