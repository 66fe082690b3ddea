import ChartAdvisor.Proofs.Encoding.Choosing
import ChartAdvisor.Proofs.Encoding.Filling
import ChartAdvisor.Draft.Basic

/-!
# Listed values fit their slots

Choices are untyped, but the values that are listed for an open slot come from candidates of the
type of the slot. A choice of the right type is refused by no encoding in which the slot is open,
unless it lies in a part that has been switched off.
-/
namespace ChartAdvisor

/-- Whether a choice is one of the values of a property. -/
def Property.takes (c : Choice) : Property → Bool
  | .mark => (ofChoice? c : Option Mark).isSome
  | .channel => (ofChoice? c : Option Channel).isSome
  | .aggregate => (ofChoice? c : Option (Option Aggregate)).isSome
  | .timeUnit => (ofChoice? c : Option (Option TimeUnit)).isSome
  | .field => (ofChoice? c : Option String).isSome
  | .type => (ofChoice? c : Option FieldType).isSome
  | .sort => (ofChoice? c : Option Sorting).isSome
  | .autoCount | .bin | .scale | .axis | .legend => (ofChoice? c : Option Bool).isSome
  | .maxBins => (ofChoice? c : Option UInt32).isSome
  | .scaleOf part => (ofChoice? c : Option part.Value).isSome
  | .transform | .stack | .hasFunction => false

namespace FieldEncoding

theorem settle_of_isSome {α : Type} [Choosable α] {q : FieldEncoding} {p : Property} {c : Choice}
    {put : α → FieldEncoding} (h : (ofChoice? c : Option α).isSome) :
    (q.settle p c put).2 = none := by
  obtain ⟨v, hv⟩ := Option.isSome_iff_exists.mp h
  unfold settle
  rw [hv]

theorem settleToggle_of_isSome {α : Type} [Settings α] {t : Option (Toggle α)} {p : Property}
    {c : Choice} {put : Option (Toggle α) → FieldEncoding} (h : (ofChoice? c : Option Bool).isSome) :
    (settleToggle t p c put).2 = none := by
  obtain ⟨b, hb⟩ := Option.isSome_iff_exists.mp h
  unfold settleToggle
  rw [hb]

/-- A field takes each value of an open property, in a part that is there. -/
theorem assign_of_takes {q o : FieldEncoding} {p : Property} {c : Choice} (ho : o.isOpen p = true)
    (hc : p.takes c = true) (hparent : ∀ r, p.parent? = some r → q.standing r ≠ .absent) :
    (q.assign p c).2 = none := by
  cases p with
  | channel | aggregate | timeUnit | field | type | sort | bin => exact settle_of_isSome hc
  | scale | axis | legend => exact settleToggle_of_isSome hc
  | maxBins =>
    have hbin : q.bin?.isSome = true := by
      rw [bin?_isSome_eq, bne_iff_ne]
      exact hparent .bin rfl
    rw [assign_maxBins, if_pos hbin]
    exact settle_of_isSome hc
  | scaleOf part =>
    have hscale : q.scale?.isSome = true := by
      rw [scale?_isSome_eq, bne_iff_ne]
      exact hparent .scale rfl
    obtain ⟨v, hv⟩ := Option.isSome_iff_exists.mp hc
    rw [assign_scaleOf, if_pos hscale]
    simp [hv]
  | mark | transform | stack | autoCount | hasFunction => contradiction

/-- What is open inside a part is there together with the part. -/
theorem standing_parent_ne {q : FieldEncoding} {p r : Property} (hp : p.parent? = some r)
    (ho : q.isOpen p = true) : q.standing r ≠ .absent := by
  cases p with
  | maxBins =>
    obtain rfl : Property.bin = r := Option.some.inj hp
    rw [← bne_iff_ne, ← bin?_isSome_eq]
    simp only [isOpen] at ho
    cases hb : q.bin? with
    | none => rw [hb] at ho; contradiction
    | some b => rfl
  | scaleOf part =>
    obtain rfl : Property.scale = r := Option.some.inj hp
    rw [← bne_iff_ne, ← scale?_isSome_eq]
    simp only [isOpen] at ho
    cases hs : q.scale? with
    | none => rw [hs] at ho; contradiction
    | some s => rfl
  | _ => contradiction

end FieldEncoding

namespace Encoding

theorem assign_of_takes {e o : Encoding} {p : Property} {c : Choice} (hk : e.kind = o.kind)
    (ho : o.isOpen p = true) (hc : p.takes c = true)
    (hparent : ∀ r, p.parent? = some r → e.standing r ≠ .absent) : (e.assign p c).2 = none := by
  revert ho hparent
  refine kind_cases (motive := fun e o => o.isOpen p = true →
    (∀ r, p.parent? = some r → e.standing r ≠ .absent) → (e.assign p c).2 = none)
    (fun q q' ho hparent => ?_) (fun ch v ch' v' ho _ => ?_) (fun ch b ch' b' ho _ => ?_) hk
  · rw [assign_field]
    exact FieldEncoding.assign_of_takes ho hc hparent
  · obtain rfl : p = .channel := by
      simp only [isOpen, Bool.and_eq_true, beq_iff_eq] at ho
      exact ho.1
    obtain ⟨v, hv⟩ := Option.isSome_iff_exists.mp hc
    simp [assign, hv]
  · have hp : p = .channel ∨ p = .autoCount := by
      simp only [isOpen, Bool.or_eq_true, Bool.and_eq_true, beq_iff_eq] at ho
      exact ho.imp And.left And.left
    obtain rfl | rfl := hp <;>
    · obtain ⟨v, hv⟩ := Option.isSome_iff_exists.mp hc
      simp [assign, hv]

/-- A listed value is not refused where its slot was built open. -/
theorem choose_of_takes {e o : Encoding} {p : Property} {c : Choice} (hk : e.kind = o.kind)
    (ho : o.isOpen p = true) (hc : p.takes c = true)
    (hparent : ∀ r, p.parent? = some r → e.standing r ≠ .absent) : (e.choose o p c).2 = none := by
  unfold choose
  split
  · next hs =>
    refine assign_of_takes ((kind_restore e o p).trans hk) ho hc fun r hr => ?_
    -- A part that holds settings lies in no other part.
    cases p <;> contradiction
  · exact assign_of_takes hk ho hc hparent

theorem standing_parent_ne {e : Encoding} {p r : Property} (hp : p.parent? = some r)
    (ho : e.isOpen p = true) : e.standing r ≠ .absent := by
  cases e with
  | field q => exact FieldEncoding.standing_parent_ne hp ho
  | value | autoCount => cases p <;> contradiction

end Encoding

/-! ## Filling -/

namespace Filling

variable (f : Filling)

/-- Open slots of which every listed value is one of the property, where those of a field are the
given names. -/
def Listed (names : Slot String) (opened : OpenSlots) : Prop :=
  ∀ x ∈ opened, (∀ c ∈ x.2.values, x.1.takes c = true) ∧
    (x.1 = .field → ∃ w, names = .wild w ∧ x.2.values = (w.candidates.getD f.schema.names).map .field)

variable {f} {names : Slot String}

theorem listed_nil : Listed f names [] := fun _ h => absurd h List.not_mem_nil

theorem Listed.append {s t : OpenSlots} (hs : Listed f names s) (ht : Listed f names t) :
    Listed f names (s ++ t) := fun x hx => (List.mem_append.mp hx).elim (hs x) (ht x)

theorem listed_slot {α : Type} [Choosable α] {p : Property} (hp : p ≠ .field)
    (hread : ∀ v : α, p.takes (toChoice v) = true) (s : Slot α) : Listed f names (f.slot p s).2 := by
  cases s with
  | fixed v => exact listed_nil
  | wild w =>
    intro x hx
    obtain rfl := List.mem_singleton.mp hx
    refine ⟨fun c hc => ?_, fun h => absurd h hp⟩
    obtain ⟨v, -, rfl⟩ := List.mem_map.mp hc
    exact hread v

theorem listed_slot? {α : Type} [Choosable α] {p : Property} (hp : p ≠ .field)
    (hread : ∀ v : α, p.takes (toChoice v) = true) (s : Option (Slot α)) :
    Listed f names (f.slot? p s).2 := by
  cases s with
  | none => exact listed_nil
  | some s => exact listed_slot hp hread s

theorem listed_names (names : Slot String) : Listed f names (f.slot .field names).2 := by
  cases names with
  | fixed v => exact listed_nil
  | wild w =>
    intro x hx
    obtain rfl := List.mem_singleton.mp hx
    refine ⟨fun c hc => ?_, fun _ => ⟨w, rfl, ?_⟩⟩
    · obtain ⟨v, -, rfl⟩ := List.mem_map.mp hc
      rfl
    · have hdefaults : (f.schema.names.map Choice.field).filterMap (ofChoice? : Choice → Option String) =
          f.schema.names := by
        rw [List.filterMap_map]
        exact List.filterMap_some
      simp only [candidates, Property.defaults, hdefaults]
      rfl

theorem listed_toggle {α : Type} {p : Property} (hp : p ≠ .field)
    (hread : ∀ b : Bool, p.takes (toChoice b) = true) {inner : α → α × OpenSlots}
    (hinner : ∀ a, Listed f names (inner a).2) (t : Option (Toggle α)) :
    Listed f names (f.toggle p inner t).2 := by
  rcases t with _ | _ | t | ⟨w, t⟩
  · exact listed_nil
  · exact listed_nil
  · exact hinner t
  · exact (listed_slot hp hread (.wild w)).append (hinner t)

theorem takes_part (part : ScaleProperty) (v : part.Value) :
    (Property.scaleOf part).takes (toChoice v) = true := by
  cases part <;> rfl

theorem listed_scaleParts (parts : List ScaleProperty) (s : Scale) :
    Listed f names (f.scaleParts parts s).2 := by
  induction parts generalizing s with
  | nil => exact listed_nil
  | cons part rest ih => exact (listed_slot? (p := .scaleOf part) nofun (takes_part part) _).append (ih _)

theorem listed_field (q : FieldEncoding) : Listed f q.field (f.field q).2 := by
  have hguide (g : Guide) : Listed f q.field (guide g).2 := listed_nil
  have hbin (b : Bin) : Listed f q.field (f.bin b).2 :=
    listed_slot? (p := .maxBins) nofun (fun _ => rfl) _
  have hscale (s : Scale) : Listed f q.field (f.scale s).2 := listed_scaleParts _ s
  have hchannel : Listed f q.field (f.slot .channel q.channel).2 :=
    listed_slot (by nofun) (fun _ => rfl) _
  have haggregate : Listed f q.field (f.slot .aggregate q.aggregate).2 :=
    listed_slot (by nofun) (fun _ => rfl) _
  have htimeUnit : Listed f q.field (f.slot .timeUnit q.timeUnit).2 :=
    listed_slot (by nofun) (fun _ => rfl) _
  have htype : Listed f q.field (f.slot .type q.type).2 := listed_slot (by nofun) (fun _ => rfl) _
  have hsort : Listed f q.field (f.slot? .sort q.sort).2 := listed_slot? (by nofun) (fun _ => rfl) _
  exact (((((((((hchannel.append haggregate).append
    (listed_toggle (p := .bin) nofun (fun _ => rfl) hbin _)).append htimeUnit).append
    (listed_names q.field)).append htype).append
    (listed_toggle (p := .scale) nofun (fun _ => rfl) hscale _)).append hsort).append
    (listed_toggle (p := .axis) nofun (fun _ => rfl) hguide _)).append
    (listed_toggle (p := .legend) nofun (fun _ => rfl) hguide _))

end Filling
end ChartAdvisor
