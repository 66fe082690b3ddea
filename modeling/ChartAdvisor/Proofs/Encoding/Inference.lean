import ChartAdvisor.Proofs.Encoding.Offering
import ChartAdvisor.Proofs.Encoding.Progress
import Mathlib.Logic.Relation

/-!
# Scale types that stay

The scale type of a field is set or inferred, and there is none as long as something is open that it
depends on. One switch is not asked for: a scale type that is set counts while its scale may still be
switched off, and with the scale it goes. Other choices leave the scale type in effect as it is. So the
scale type stays, whatever is chosen, exactly when the field has the same one without its scale or the
scale cannot be switched off.
-/
namespace ChartAdvisor
namespace FieldEncoding

variable {q r : FieldEncoding} {p : Property} {c : Choice} {t : ScaleType}

/-! ## Values that are offered -/

/-- A property is open, and a value is among its candidates, if candidates are listed. -/
def Offers (q : FieldEncoding) (p : Property) (c : Choice) : Prop :=
  ∃ w, q.choices? p = some w ∧ ∀ vs, w.candidates = some vs → c ∈ vs

theorem Offers.isOpen (h : q.Offers p c) : q.isOpen p = true := by
  obtain ⟨w, hw, -⟩ := h
  rw [← isSome_choices?, hw]
  rfl

/-- Values that are offered lead from one field to another, one property being settled after the other. -/
def Resolves : FieldEncoding → FieldEncoding → Prop :=
  Relation.ReflTransGen fun q r => ∃ p c, q.Offers p c ∧ q.assign p c = (r, none)

/-- A value for an open slot settles it. -/
theorem settles_assign (h : (q.assign p c).2 = none) (hopen : q.isOpen p = true) :
    Settles q.standing (q.assign p c).1.standing := by
  refine .of_slot ((q.isOpen_iff p).mp hopen) (fun ha => ?_) fun r hr hparent =>
    standing_of_apart (apart_assign q p c) hr hparent
  rw [standing_assign h] at ha
  exact canVanish_of_standingFor h ha

theorem Resolves.settles (h : q.Resolves r) : Settles q.standing r.standing := by
  induction h with
  | refl => exact .refl _
  | tail _ hstep ih =>
    obtain ⟨p, c, hoffer, hassign⟩ := hstep
    have hsettles := settles_assign (by rw [hassign]) hoffer.isOpen
    rw [hassign] at hsettles
    exact ih.trans hsettles

/-! ## The scale type that is set -/

/-- The candidates for the switch of a scale stay, unless it is the switch that is settled. -/
theorem choices?_scale_assign (hp : p ≠ .scale) (c : Choice) :
    (q.assign p c).1.choices? .scale = q.choices? .scale := by
  cases p with
  | scale => contradiction
  | scaleOf part =>
    rw [assign_scaleOf]
    split
    · unfold choices?
      rcases q.scale with _ | _ | _ | _ <;> rfl
    · rfl
  | maxBins =>
    rw [assign_maxBins, settle]
    split
    · split <;> rfl
    · rfl
  | channel | aggregate | timeUnit | field | type | sort | bin =>
    simp only [assign, settle]
    split <;> rfl
  | axis | legend =>
    simp only [assign, settleToggle]
    split <;> rfl
  | _ => rfl

theorem Offers.of_assign (h : (q.assign p c).2 = none) (hp : q.isOpen p = true) {b : Choice}
    (hoffer : (q.assign p c).1.Offers .scale b) : q.Offers .scale b := by
  by_cases hscale : p = .scale
  · -- a switch that is settled offers nothing any more
    subst hscale
    have hopen := (isOpen_iff _ _).mp hoffer.isOpen
    rw [standing_assign h] at hopen
    exact absurd hopen (Property.standingFor_ne_undecided _ _)
  · rwa [Offers, choices?_scale_assign hscale] at hoffer

/-- A scale type that is set, or that is not, stays so, unless the switch of the scale is turned off. -/
theorem standing_type_assign (h : (q.assign p c).2 = none) (hp : p ≠ .scaleOf .type) :
    (q.assign p c).1.standing (.scaleOf .type) = q.standing (.scaleOf .type) ∨
      p = .scale ∧ c = .flag false ∧ (q.assign p c).1.standing (.scaleOf .type) = .absent := by
  by_cases hscale : p = .scale
  · subst hscale
    have hchild := standing_assign_child (r := .scaleOf .type) rfl h
    obtain ⟨b, rfl, -⟩ := settleToggle_eq_none h
    cases b with
    | true => exact .inl hchild
    | false => exact .inr ⟨rfl, rfl, hchild⟩
  · refine .inl (standing_of_apart (apart_assign q p c) (Ne.symm hp) fun hparent => ?_)
    exact hscale (Option.some.inj hparent).symm

/-- So it is in the end, and the switch was turned off only if that was offered from the start. -/
theorem Resolves.standing_type (h : q.Resolves r) (hset : q.standing (.scaleOf .type) ≠ .undecided) :
    r.standing (.scaleOf .type) = q.standing (.scaleOf .type) ∨
      q.Offers .scale (.flag false) ∧ r.standing (.scaleOf .type) = .absent := by
  induction h using Relation.ReflTransGen.head_induction_on with
  | refl => exact .inl rfl
  | @head q mid hstep _ ih =>
    obtain ⟨p, c, hoffer, hassign⟩ := hstep
    obtain rfl : (q.assign p c).1 = mid := by rw [hassign]
    have htaken : (q.assign p c).2 = none := by rw [hassign]
    have hp : p ≠ .scaleOf .type := by
      rintro rfl
      exact hset ((q.isOpen_iff _).mp hoffer.isOpen)
    rcases standing_type_assign htaken hp with hsame | ⟨rfl, rfl, hgone⟩
    · rw [hsame] at ih
      exact (ih hset).imp_right fun h => ⟨h.1.of_assign htaken hoffer.isOpen, h.2⟩
    · refine .inr ⟨hoffer, ?_⟩
      rw [hgone] at ih
      exact (ih nofun).elim id And.right

/-! ## The scale type in effect -/

/-- A field without its scale. -/
def withoutScale (q : FieldEncoding) : FieldEncoding := { q with scale := none }

/-- Without a scale type that is set, the scale has no say. -/
theorem scaleType?_withoutScale (h : q.standing (.scaleOf .type) = .absent) :
    q.withoutScale.scaleType? = q.scaleType? := by
  refine scaleType?_congr fun p hp => ?_
  simp only [scaleTypeInputs, List.mem_cons, List.not_mem_nil, or_false] at hp
  rcases hp with rfl | rfl | rfl | rfl | rfl
  · exact h.symm
  all_goals rfl

theorem settles_withoutScale (h : Settles q.standing r.standing) :
    Settles q.withoutScale.standing r.withoutScale.standing := by
  intro p
  have hp := h p
  cases p with
  | scale | scaleOf => exact .inl rfl
  | maxBins =>
    rcases hp with hsame | hopen | ⟨_, ⟨⟩, hbin⟩
    · exact .inl hsame
    · exact .inr (.inl hopen)
    · exact .inr (.inr ⟨.bin, rfl, hbin⟩)
  | _ =>
    rcases hp with hsame | hopen | ⟨_, hparent, _⟩
    · exact .inl hsame
    · exact .inr (.inl hopen)
    · cases hparent

/-- A scale type in effect stays, whatever is chosen of what is offered, exactly when the field has the
same one without its scale or the scale cannot be switched off. -/
theorem scaleType?_stays_iff (ht : q.scaleType? = some t) :
    (∀ r, q.Resolves r → r.scaleType? = some t) ↔
      (q.Offers .scale (.flag false) → q.withoutScale.scaleType? = some t) := by
  constructor
  · intro hstays hoffer
    exact hstays { q with scale := some .off } (.single ⟨.scale, .flag false, hoffer, rfl⟩)
  · intro hwithout r hr
    rcases hr.standing_type (standing_type_ne_undecided ht) with hsame | ⟨hoffer, hgone⟩
    · exact scaleType?_of_settles_of_eq hr.settles hsame ht
    · rw [← scaleType?_withoutScale hgone]
      exact scaleType?_of_settles_of_eq (settles_withoutScale hr.settles) rfl (hwithout hoffer)

/-- A scale whose type is set, and which may be switched off, on a field that has more open slots. -/
def switchedScale (type : ScaleType) : FieldEncoding where
  channel := .fixed .x
  timeUnit := .wild .short
  field := .wild (.ofCandidates ["Q", "R"])
  type := .fixed .quantitative
  scale := some (.wild (.ofCandidates [true, false])
    { type := some (.fixed type), clamp := some (.wild .short) })

/-- A linear scale would be inferred too, so that it does not matter how the switch is set. -/
theorem scaleType?_stays_linear : (switchedScale .linear).scaleType? = some .linear ∧
    ∀ r, (switchedScale .linear).Resolves r → r.scaleType? = some .linear :=
  ⟨rfl, (scaleType?_stays_iff rfl).mpr fun _ => rfl⟩

/-- A logarithmic scale is in effect, and once it is switched off it is not. -/
theorem scaleType?_lost : ∃ r, (switchedScale .log).Offers .scale (.flag false) ∧
    (switchedScale .log).assign .scale (.flag false) = (r, none) ∧
    (switchedScale .log).scaleType? = some .log ∧ r.scaleType? = some .linear := by
  refine ⟨_, ⟨_, rfl, ?_⟩, rfl, rfl, rfl⟩
  rintro _ ⟨⟩
  decide

end FieldEncoding
end ChartAdvisor
