import ChartAdvisor.Query.Chart

/-!
# When a query is a chart

A query becomes a chart exactly if nothing is open in its mark and in the encodings that play a part.
-/
namespace ChartAdvisor
namespace Encoding

/-- Nothing is open in an encoding, nor is the value of a constant. -/
structure IsComplete (e : Encoding) : Prop where
  closed : ∀ p, e.isOpen p = false
  known : ∀ c v, e = .value c v → v.isOpen = false

/-- Only some properties can be open in an encoding. -/
theorem mem_of_isOpen {e : Encoding} {p : Property} (h : e.isOpen p = true) :
    p ∈ Property.encodingTop ++ Property.encodingNested := by
  have hscale (part : ScaleProperty) :
      Property.scaleOf part ∈ Property.encodingTop ++ Property.encodingNested := by
    cases part <;> decide
  cases p with
  | scaleOf part => exact hscale part
  | mark | transform | stack | hasFunction =>
    cases e <;> simp [isOpen, FieldEncoding.isOpen] at h
  | _ => decide

theorem hasOpen_eq_false_iff {e : Encoding} : e.hasOpen [] = false ↔ ∀ p, e.isOpen p = false := by
  constructor
  · intro h p
    refine Bool.eq_false_iff.mpr fun hopen => ?_
    have hany : e.hasOpen [] = true :=
      List.any_eq_true.mpr ⟨p, mem_of_isOpen hopen, by simp [hopen]⟩
    rw [h] at hany
    contradiction
  · intro h
    simp [hasOpen, h]

theorem withPart_of_closed {α : Type} [Settings α] {t : Option (Toggle α)}
    (h : t.any Toggle.isOpen = false) (key : String) (d : Json.Members) :
    ∃ d', withPart key t d = some d' := by
  rcases t with _ | _ | a | ⟨w, a⟩
  · exact ⟨_, rfl⟩
  · exact ⟨_, rfl⟩
  · exact ⟨_, rfl⟩
  · contradiction

theorem any_isOpen_filter {α : Type} {t : Option (Toggle α)} (h : t.any Toggle.isOpen = false)
    (keep : Toggle α → Bool) : (t.filter keep).any Toggle.isOpen = false := by
  cases t with
  | none => rfl
  | some t => by_cases hk : keep t = true <;> simp_all [Option.filter]

theorem value?_isSome_iff {α : Type} (s : Slot α) : s.value?.isSome = true ↔ s.isOpen = false := by
  cases s <;> simp [Slot.value?, Slot.isOpen]

/-- A field has a definition exactly if nothing in it is open. -/
theorem definition?_field_isSome_iff (c : Channel) (q : FieldEncoding) :
    ((field q).definition? c).isSome = true ↔ ∀ p, (field q).isOpen p = false := by
  rw [← hasOpen_eq_false_iff]
  unfold definition?
  by_cases hopen : (field q).hasOpen [] = true
  · simp [hopen]
  · have hopen : (field q).hasOpen [] = false := Bool.eq_false_iff.mpr hopen
    have closed := hasOpen_eq_false_iff.mp hopen
    obtain ⟨name, hname⟩ := Option.isSome_iff_exists.mp ((value?_isSome_iff q.field).mpr (closed .field))
    obtain ⟨type, htype⟩ := Option.isSome_iff_exists.mp ((value?_isSome_iff q.type).mpr (closed .type))
    have bin := withPart_of_closed (any_isOpen_filter (closed .bin) Toggle.isOn) "bin"
    have scale := withPart_of_closed (any_isOpen_filter (closed .scale) fun _ => c.supportsScale) "scale"
    have axis := withPart_of_closed (any_isOpen_filter (closed .axis) fun _ => c.supportsAxis) "axis"
    have legend :=
      withPart_of_closed (any_isOpen_filter (closed .legend) fun _ => c.supportsLegend) "legend"
    simp only [hopen, Bool.false_eq_true, if_false, hname, htype, iff_true, Option.bind_eq_bind,
      Option.bind_some]
    obtain ⟨d₁, h₁⟩ := bin _
    obtain ⟨d₂, h₂⟩ := scale d₁
    obtain ⟨d₃, h₃⟩ := axis d₂
    obtain ⟨d₄, h₄⟩ := legend d₃
    rw [h₁, Option.bind_some, h₂, Option.bind_some, h₃, Option.bind_some, h₄]
    rfl

theorem exists_channel_of_closed {e : Encoding} (h : ∀ p, e.isOpen p = false) : ∃ c, e.channel? = some c := by
  have hclosed : e.channel.isOpen = false := by
    have hc := h .channel
    cases e <;> simpa [isOpen, FieldEncoding.isOpen, channel] using hc
  exact Option.isSome_iff_exists.mp ((value?_isSome_iff e.channel).mpr hclosed)

/-- An encoding has a channel and a definition exactly if it is complete. -/
theorem isComplete_iff (e : Encoding) :
    e.IsComplete ↔ ∃ c, e.channel? = some c ∧ (e.definition? c).isSome = true := by
  cases e with
  | field q =>
    constructor
    · intro h
      obtain ⟨c, hc⟩ := exists_channel_of_closed h.closed
      exact ⟨c, hc, (definition?_field_isSome_iff c q).mpr h.closed⟩
    · rintro ⟨c, -, h⟩
      exact ⟨(definition?_field_isSome_iff c q).mp h, fun _ _ heq => Encoding.noConfusion heq⟩
  | value s v =>
    constructor
    · intro h
      obtain ⟨c, hc⟩ := exists_channel_of_closed h.closed
      exact ⟨c, hc, by simpa [definition?] using (value?_isSome_iff v).mpr (h.known s v rfl)⟩
    · rintro ⟨c, hc, h⟩
      have hs : s.isOpen = false := (value?_isSome_iff s).mp (Option.isSome_of_mem hc)
      refine ⟨fun p => by simp [isOpen, hs], fun c' v' heq => ?_⟩
      obtain ⟨-, rfl⟩ := value.inj heq
      exact (value?_isSome_iff v).mp (by simpa [definition?] using h)
  | autoCount s b =>
    constructor
    · intro h
      obtain ⟨c, hc⟩ := exists_channel_of_closed h.closed
      have hb : b.isOpen = false := by simpa [isOpen] using h.closed .autoCount
      exact ⟨c, hc, by simp [definition?, hb]⟩
    · rintro ⟨c, hc, h⟩
      have hs : s.isOpen = false := (value?_isSome_iff s).mp (Option.isSome_of_mem hc)
      have hb : b.isOpen = false := by
        cases hb : b.isOpen with
        | false => rfl
        | true => simp [definition?, hb] at h
      exact ⟨fun p => by simp [isOpen, hs, hb], fun _ _ heq => Encoding.noConfusion heq⟩

end Encoding

namespace ChartQuery

theorem definitions?_isSome_iff (es : List Encoding) (found : List (Channel × Json.Members)) :
    (definitions? es found).isSome = true ↔ ∀ e ∈ es, e.IsComplete := by
  induction es generalizing found with
  | nil => simp [definitions?]
  | cons e rest ih =>
    rw [List.forall_mem_cons, e.isComplete_iff, definitions?]
    cases hc : e.channel? with
    | none => simp
    | some c =>
      cases hd : e.definition? c with
      | none => simp [hd]
      | some d => simpa [hd] using ih _

/-- A query is a chart exactly if its mark is fixed and every encoding that plays a part is
complete. -/
theorem toChart?_isSome_iff {q : ChartQuery} {defaults : Json.Members} :
    (q.toChart? defaults).isSome = true ↔
      q.mark.isOpen = false ∧ ∀ e ∈ q.active, e.IsComplete := by
  rw [← Encoding.value?_isSome_iff, ← definitions?_isSome_iff _ []]
  unfold toChart?
  cases q.mark.value? with
  | none => simp
  | some m => cases definitions? q.active [] <;> simp

end ChartQuery
end ChartAdvisor
