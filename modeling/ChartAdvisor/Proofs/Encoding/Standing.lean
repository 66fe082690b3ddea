import ChartAdvisor.Encoding.Open

/-!
# How the slots of an encoding stand

Rules never look at the candidates of an open slot. What they see of a slot is its standing:
it is absent, undecided, or decided for a choice. The lemmas below say what an encoding
answers in terms of the standings of its slots alone. A part that is fixed at `null` counts as
absent, as does a part that is switched off.
-/
namespace ChartAdvisor

/-- What can be seen of a slot without looking at its candidates. -/
inductive Standing
  | absent
  | undecided
  | decided (c : Choice)
deriving DecidableEq

namespace Standing

variable {α : Type}

/-- A choice in its place; `null` leaves the place empty. -/
def ofChoice : Choice → Standing
  | .json .null => absent
  | c => decided c

def ofSlot [Choosable α] : Slot α → Standing
  | .fixed v => ofChoice (toChoice v)
  | .wild _ => undecided

def ofSlot? [Choosable α] : Option (Slot α) → Standing
  | none => absent
  | some s => ofSlot s

def ofToggle : Option (Toggle α) → Standing
  | none | some .off => absent
  | some (.on _) => decided (.flag true)
  | some (.wild ..) => undecided

/-- The value that a slot is decided for. -/
def value? [Choosable α] : Standing → Option α
  | decided c => ofChoice? c
  | _ => none

/-- A part that is switched on. -/
def isOn (s : Standing) : Bool := s == decided (.flag true)

theorem ofChoice_ne_undecided (c : Choice) : ofChoice c ≠ undecided := by
  unfold ofChoice
  split <;> simp

theorem ofChoice_of_ne {c : Choice} (h : c ≠ .json .null) : ofChoice c = decided c := by
  unfold ofChoice
  split
  · contradiction
  · rfl

end Standing

/-- Types of slot values that choices tell apart, and of which none is `null`. -/
class PlainChoice (α : Type) [Choosable α] : Prop where
  read_back : ∀ v : α, (ofChoice? (toChoice v) : Option α) = some v
  ne_null : ∀ v : α, toChoice v ≠ .json .null

instance : PlainChoice Mark := ⟨fun _ => rfl, fun _ h => Choice.noConfusion h⟩
instance : PlainChoice Channel := ⟨fun _ => rfl, fun _ h => Choice.noConfusion h⟩
instance : PlainChoice (Option Aggregate) := ⟨fun _ => rfl, fun _ h => Choice.noConfusion h⟩
instance : PlainChoice (Option TimeUnit) := ⟨fun _ => rfl, fun _ h => Choice.noConfusion h⟩
instance : PlainChoice Bool := ⟨fun _ => rfl, fun _ h => Choice.noConfusion h⟩
instance : PlainChoice UInt32 := ⟨fun _ => rfl, fun _ h => Choice.noConfusion h⟩
instance : PlainChoice Number := ⟨fun _ => rfl, fun _ h => Choice.noConfusion h⟩
instance : PlainChoice String := ⟨fun _ => rfl, fun _ h => Choice.noConfusion h⟩
instance : PlainChoice FieldType := ⟨fun _ => rfl, fun _ h => Choice.noConfusion h⟩
instance : PlainChoice ScaleType := ⟨fun _ => rfl, fun _ h => Choice.noConfusion h⟩
instance : PlainChoice Sorting := ⟨fun _ => rfl, fun _ h => Choice.noConfusion h⟩

namespace Slot

variable {α : Type} [Choosable α]

theorem standing_eq_undecided_iff (s : Slot α) :
    Standing.ofSlot s = .undecided ↔ s.isOpen = true := by
  cases s with
  | fixed v => simp [Standing.ofSlot, isOpen, Standing.ofChoice_ne_undecided]
  | wild w => simp [Standing.ofSlot, isOpen]

theorem standing?_eq_undecided_iff (s : Option (Slot α)) :
    Standing.ofSlot? s = .undecided ↔ s.any isOpen = true := by
  cases s with
  | none => simp [Standing.ofSlot?]
  | some s => simpa [Standing.ofSlot?] using standing_eq_undecided_iff s

variable [PlainChoice α]

theorem standing_fixed (v : α) : Standing.ofSlot (.fixed v) = .decided (toChoice v) :=
  Standing.ofChoice_of_ne (PlainChoice.ne_null v)

theorem value?_eq (s : Slot α) : s.value? = (Standing.ofSlot s).value? := by
  cases s with
  | fixed v => rw [standing_fixed]; exact (PlainChoice.read_back v).symm
  | wild w => rfl

theorem bind_value?_eq (s : Option (Slot α)) :
    s.bind value? = (Standing.ofSlot? s).value? := by
  cases s with
  | none => rfl
  | some s => exact value?_eq s

theorem is_eq [BEq α] (s : Slot α) (v : α) :
    s.is v = (Standing.ofSlot s).value?.any (· == v) := by
  rw [← value?_eq]
  cases s <;> rfl

theorem any_is_eq [BEq α] (s : Option (Slot α)) (v : α) :
    s.any (·.is v) = (Standing.ofSlot? s).value?.any (· == v) := by
  cases s with
  | none => rfl
  | some s => exact is_eq s v

end Slot

namespace Toggle

variable {α : Type}

theorem standing_eq_undecided_iff (t : Option (Toggle α)) :
    Standing.ofToggle t = .undecided ↔ t.any isOpen = true := by
  rcases t with _ | _ | _ | _ <;> simp [Standing.ofToggle, isOpen]

theorem any_isOn_eq (t : Option (Toggle α)) : t.any isOn = (Standing.ofToggle t).isOn := by
  rcases t with _ | _ | _ | _ <;> rfl

theorem any_isOpen_eq (t : Option (Toggle α)) :
    t.any isOpen = (Standing.ofToggle t == .undecided) := by
  rcases t with _ | _ | _ | _ <;> rfl

theorem any_isPresent_eq (t : Option (Toggle α)) :
    t.any isPresent = (Standing.ofToggle t != .absent) := by
  rcases t with _ | _ | _ | _ <;> rfl

end Toggle

/-! ## Fields -/

namespace FieldEncoding

variable (q : FieldEncoding)

/-- How the slot of a property stands. -/
def standing : Property → Standing
  | .channel => .ofSlot q.channel
  | .aggregate => .ofSlot q.aggregate
  | .timeUnit => .ofSlot q.timeUnit
  | .hasFunction => .decided (.flag q.hasFunction)
  | .field => .ofSlot q.field
  | .type => .ofSlot q.type
  | .sort => .ofSlot? q.sort
  | .bin => .ofToggle q.bin
  | .scale => .ofToggle q.scale
  | .axis => .ofToggle q.axis
  | .legend => .ofToggle q.legend
  | .maxBins => .ofSlot? (q.bin?.bind Bin.maxbins)
  | .scaleOf part => .ofSlot? (q.scale?.bind (·.get part))
  | _ => .absent

theorem isOpen_iff (p : Property) : q.isOpen p = true ↔ q.standing p = .undecided := by
  cases p with
  | channel | aggregate | timeUnit | field | type =>
    exact (Slot.standing_eq_undecided_iff _).symm
  | sort | maxBins => exact (Slot.standing?_eq_undecided_iff _).symm
  | bin | scale | axis | legend => exact (Toggle.standing_eq_undecided_iff _).symm
  | scaleOf part =>
    rw [show q.standing (.scaleOf part) = .ofSlot? (q.scale?.bind (·.get part)) from rfl,
      Slot.standing?_eq_undecided_iff]
    unfold isOpen Scale.isOpen
    cases q.scale? <;> simp
  | mark | transform | stack | autoCount | hasFunction => simp [isOpen, standing]

theorem channel_value?_eq : q.channel.value? = (q.standing .channel).value? := Slot.value?_eq _

theorem type_value?_eq : q.type.value? = (q.standing .type).value? := Slot.value?_eq _

theorem field_value?_eq : q.field.value? = (q.standing .field).value? := Slot.value?_eq _

theorem type_is_eq (t : FieldType) :
    q.type.is t = (q.standing .type).value?.any (· == t) := Slot.is_eq _ _

theorem field_is_eq (name : String) :
    q.field.is name = (q.standing .field).value?.any (· == name) := Slot.is_eq _ _

theorem aggregate?_eq :
    q.aggregate? = ((q.standing .aggregate).value? : Option (Option Aggregate)).join := by
  unfold aggregate?
  rw [Slot.value?_eq]
  rfl

theorem timeUnit?_eq :
    q.timeUnit? = ((q.standing .timeUnit).value? : Option (Option TimeUnit)).join := by
  unfold timeUnit?
  rw [Slot.value?_eq]
  rfl

theorem mayAggregate_eq : q.mayAggregate = (q.standing .aggregate != .decided (.aggregate none)) := by
  rcases h : q.aggregate with (_ | op) | w <;>
    simp [mayAggregate, standing, h, Standing.ofSlot, toChoice, Standing.ofChoice]

theorem mayHaveTimeUnit_eq :
    q.mayHaveTimeUnit = (q.standing .timeUnit != .decided (.timeUnit none)) := by
  rcases h : q.timeUnit with (_ | unit) | w <;>
    simp [mayHaveTimeUnit, standing, h, Standing.ofSlot, toChoice, Standing.ofChoice]

theorem timeUnit_is_none_eq :
    q.timeUnit.is none = (q.standing .timeUnit == .decided (.timeUnit none)) := by
  rcases h : q.timeUnit with (_ | unit) | w <;>
    simp [Slot.is, standing, h, Standing.ofSlot, toChoice, Standing.ofChoice]

theorem timeUnit_isOpen_eq : q.timeUnit.isOpen = (q.standing .timeUnit == .undecided) := by
  rw [Bool.eq_iff_iff, beq_iff_eq]
  exact (Slot.standing_eq_undecided_iff _).symm

theorem type_isOpen_eq : q.type.isOpen = (q.standing .type == .undecided) := by
  rw [Bool.eq_iff_iff, beq_iff_eq]
  exact (Slot.standing_eq_undecided_iff _).symm

theorem channel_isOpen_eq : q.channel.isOpen = (q.standing .channel == .undecided) := by
  rw [Bool.eq_iff_iff, beq_iff_eq]
  exact (Slot.standing_eq_undecided_iff _).symm

theorem isBinned_eq : q.isBinned = (q.standing .bin).isOn := Toggle.any_isOn_eq _

theorem binIsOpen_eq : q.binIsOpen = (q.standing .bin == .undecided) := Toggle.any_isOpen_eq _

theorem binIsPresent_eq : q.binIsPresent = (q.standing .bin != .absent) := Toggle.any_isPresent_eq _

theorem hasFunction_eq : q.hasFunction = (q.standing .hasFunction).isOn := by
  cases h : q.hasFunction <;> simp [standing, h, Standing.isOn]

/-! ## Scales -/

theorem scaleOn?_isSome_eq : q.scaleOn?.isSome = (q.standing .scale).isOn := by
  unfold scaleOn? standing
  rcases q.scale with _ | _ | _ | _ <;> rfl

theorem scale?_isSome_eq : q.scale?.isSome = (q.standing .scale != .absent) := by
  unfold scale? standing
  rcases q.scale with _ | _ | _ | _ <;> rfl

theorem bin?_isSome_eq : q.bin?.isSome = (q.standing .bin != .absent) := by
  unfold bin? standing
  rcases q.bin with _ | _ | _ | _ <;> rfl

theorem scale?_of_scaleOn? {s : Scale} (h : q.scaleOn? = some s) : q.scale? = some s := by
  unfold scaleOn? at h
  split at h
  · next t hs => simpa [scale?, hs, Toggle.inner?] using h
  · contradiction

end FieldEncoding

/-! ## Parts of a scale -/

theorem Wildcard.isNull_sorted_toJson {α : Type} [Coded α] (w : Wildcard α) :
    w.toJson.sorted.isNull = false := by
  unfold Wildcard.toJson
  split <;> rfl

theorem Json.isNull_sorted (v : Json) : v.sorted.isNull = v.isNull := by
  cases v <;> rfl

theorem ScaleProperty.isNull_encode (p : ScaleProperty) (v : p.Value) :
    (encode v).isNull = (Standing.ofChoice (toChoice v) == .absent) := by
  cases p with
  | domain | range =>
    change (v : Json).isNull = (Standing.ofChoice (.json v) == .absent)
    cases (v : Json) <;> rfl
  | _ => rfl

namespace Scale

/-- A part is present unless it is absent or fixed at `null`. -/
theorem has_eq (s : Scale) (p : ScaleProperty) :
    s.has p = (Standing.ofSlot? (s.get p) != .absent) := by
  unfold has json?
  cases h : s.get p with
  | none => rfl
  | some t =>
    cases t with
    | wild w =>
      have hw : (encode (Slot.wild w)).sorted.isNull = false := Wildcard.isNull_sorted_toJson w
      simp [Standing.ofSlot?, Standing.ofSlot, hw]
    | fixed v =>
      have hv : (encode (Slot.fixed v)).sorted.isNull = (encode v).isNull := Json.isNull_sorted _
      rw [ScaleProperty.isNull_encode] at hv
      simp only [Option.map_some, Option.filter_some, hv, Standing.ofSlot?, Standing.ofSlot, bne]
      cases Standing.ofChoice (toChoice v) == Standing.absent <;> rfl

end Scale

namespace FieldEncoding

variable (q : FieldEncoding)

theorem scaleOn?_eq : q.scaleOn? = if (q.standing .scale).isOn then q.scale? else none := by
  unfold scaleOn? standing scale?
  rcases q.scale with _ | _ | _ | _ <;> rfl

theorem has_part_eq {s : Scale} (h : q.scale? = some s) (p : ScaleProperty) :
    s.has p = (q.standing (.scaleOf p) != .absent) := by
  rw [Scale.has_eq, standing, h]
  rfl

theorem zero_is_eq (b : Bool) : (q.scale?.bind Scale.zero).any (·.is b) =
    ((q.standing (.scaleOf .zero)).value? : Option Bool).any (· == b) := Slot.any_is_eq _ _

theorem scaleType_is_eq (t : ScaleType) : (q.scale?.bind Scale.type).any (·.is t) =
    ((q.standing (.scaleOf .type)).value? : Option ScaleType).any (· == t) := Slot.any_is_eq _ _

theorem zeroOn_is_eq (b : Bool) : (q.scaleOn?.bind Scale.zero).any (·.is b) =
    ((q.standing .scale).isOn &&
      ((q.standing (.scaleOf .zero)).value? : Option Bool).any (· == b)) := by
  rw [scaleOn?_eq, ← zero_is_eq]
  cases (q.standing .scale).isOn <;> rfl

theorem scaleTypeOn_is_eq (t : ScaleType) : (q.scaleOn?.bind Scale.type).any (·.is t) =
    ((q.standing .scale).isOn &&
      ((q.standing (.scaleOf .type)).value? : Option ScaleType).any (· == t)) := by
  rw [scaleOn?_eq, ← scaleType_is_eq]
  cases (q.standing .scale).isOn <;> rfl

/-- What the scale type in effect is read off. -/
def scaleTypeInputs : List Property := [.scaleOf .type, .type, .channel, .bin, .timeUnit]

/-- The scale type in effect, from the standings of its inputs. -/
theorem scaleType?_eq : q.scaleType? =
    if q.standing (.scaleOf .type) = .undecided ∨ q.standing .type = .undecided ∨
        q.standing .channel = .undecided ∨ q.standing .bin = .undecided then none
    else
      match ((q.standing (.scaleOf .type)).value? : Option ScaleType),
        ((q.standing .channel).value? : Option Channel),
        ((q.standing .type).value? : Option FieldType) with
      | some t, _, _ => some t
      | none, some c, some t =>
        if t = .temporal ∧ q.standing .timeUnit = .undecided then none
        else some (q.inferredScaleType c t)
      | _, _, _ => none := by
  have hx : (q.scale?.bind Scale.type).any Slot.isOpen =
      (q.standing (.scaleOf .type) == .undecided) := by
    rw [Bool.eq_iff_iff, beq_iff_eq]
    exact (Slot.standing?_eq_undecided_iff _).symm
  have hv : (q.scale?.bind Scale.type).bind Slot.value? =
      ((q.standing (.scaleOf .type)).value? : Option ScaleType) := Slot.bind_value?_eq _
  unfold scaleType?
  simp only [hx, type_isOpen_eq, channel_isOpen_eq, binIsOpen_eq, Bool.or_eq_true, beq_iff_eq,
    timeUnit_isOpen_eq, or_assoc]
  split
  · rfl
  · rw [← hv, ← channel_value?_eq, ← type_value?_eq]
    rcases q.scale?.bind Scale.type with _ | t | w <;> rcases q.channel with c | w' <;>
      rcases q.type with t' | w'' <;> simp [Slot.value?]

theorem scaleType?_congr {q r : FieldEncoding}
    (h : ∀ p ∈ scaleTypeInputs, q.standing p = r.standing p) : q.scaleType? = r.scaleType? := by
  have hb : q.isBinned = r.isBinned := by rw [isBinned_eq, isBinned_eq, h .bin (by decide)]
  have hu : q.timeUnit? = r.timeUnit? := by
    rw [timeUnit?_eq, timeUnit?_eq, h .timeUnit (by decide)]
  have hi (c : Channel) (t : FieldType) : q.inferredScaleType c t = r.inferredScaleType c t := by
    cases t <;> simp [inferredScaleType, hb, hu]
  rw [scaleType?_eq, scaleType?_eq, h (.scaleOf .type) (by decide), h .type (by decide),
    h .channel (by decide), h .bin (by decide), h .timeUnit (by decide)]
  simp only [hi]

/-- Without a scale the scale type in effect is inferred. -/
theorem scaleType?_of_absent {q : FieldEncoding} (hs : q.scale = none) {c : Channel}
    (hc : q.channel = .fixed c) {t : ScaleType} (ht : q.scaleType? = some t) :
    ∃ type, q.type = .fixed type ∧ t = q.inferredScaleType c type := by
  unfold scaleType? at ht
  simp only [scale?, hs, hc, Option.bind_none] at ht
  split at ht
  · contradiction
  · cases htype : q.type with
    | wild w => rw [htype] at ht; contradiction
    | fixed type =>
      rw [htype] at ht
      simp only at ht
      split at ht
      · contradiction
      · exact ⟨type, rfl, (Option.some.inj ht).symm⟩

/-- A logarithm is never inferred. -/
theorem inferredScaleType_ne_log (q : FieldEncoding) (c : Channel) (t : FieldType) :
    q.inferredScaleType c t ≠ .log := by
  have hsteps : inferredScaleType.steps c ≠ .log := by cases c <;> nofun
  cases t with
  | nominal | ordinal => exact hsteps
  | temporal =>
    simp only [inferredScaleType]
    split
    · exact hsteps
    · cases c <;> nofun
  | quantitative =>
    unfold inferredScaleType
    cases c <;> cases q.isBinned <;> nofun

end FieldEncoding

/-! ## Encodings -/

namespace Encoding

/-- What an encoding maps to its channel. -/
inductive Kind
  | field | value | autoCount
deriving DecidableEq

def kind : Encoding → Kind
  | field _ => .field
  | value .. => .value
  | autoCount .. => .autoCount

/-- How the slot of a property stands. -/
def standing : Encoding → Property → Standing
  | field q, p => q.standing p
  | value c _, p => if p = .channel then .ofSlot c else .absent
  | autoCount c b, p =>
    if p = .channel then .ofSlot c else if p = .autoCount then .ofSlot b else .absent

theorem isOpen_iff (e : Encoding) (p : Property) :
    e.isOpen p = true ↔ e.standing p = .undecided := by
  cases e with
  | field q => exact q.isOpen_iff p
  | value c v =>
    by_cases hp : p = .channel
    · simp [isOpen, standing, hp, Slot.standing_eq_undecided_iff]
    · simp [isOpen, standing, hp]
  | autoCount c b =>
    by_cases hp : p = .channel
    · simp [isOpen, standing, hp, Slot.standing_eq_undecided_iff]
    · by_cases hb : p = .autoCount
      · simp [isOpen, standing, hb, Slot.standing_eq_undecided_iff]
      · simp [isOpen, standing, hp, hb]

theorem isOpen_eq (e : Encoding) (p : Property) :
    e.isOpen p = (e.standing p == .undecided) := by
  rw [Bool.eq_iff_iff, isOpen_iff, beq_iff_eq]

theorem channel?_eq (e : Encoding) : e.channel? = (e.standing .channel).value? := by
  cases e <;> exact Slot.value?_eq _

theorem channel_is_eq (e : Encoding) (c : Channel) :
    e.channel.is c = (e.standing .channel).value?.any (· == c) := by
  cases e <;> exact Slot.is_eq _ _

theorem isValue_eq (e : Encoding) : e.isValue = (e.kind == .value) := by
  cases e <;> rfl

theorem isDisabledAutoCount_eq (e : Encoding) :
    e.isDisabledAutoCount = (e.kind == .autoCount && e.standing .autoCount == .decided (.flag false)) := by
  cases e with
  | field | value => rfl
  | autoCount c b => rcases b with (_ | _) | w <;> rfl

theorem isEnabledAutoCount_eq (e : Encoding) :
    e.isEnabledAutoCount = (e.kind == .autoCount && e.standing .autoCount == .decided (.flag true)) := by
  cases e with
  | field | value => rfl
  | autoCount c b => rcases b with (_ | _) | w <;> rfl

/-- The search passes an encoding by: a constant, or a count of rows that is switched off. -/
def isFrozen (e : Encoding) : Bool := e.isValue || e.isDisabledAutoCount

theorem isFrozen_congr {e f : Encoding} (hk : e.kind = f.kind)
    (hb : e.standing .autoCount = f.standing .autoCount) : e.isFrozen = f.isFrozen := by
  unfold isFrozen
  rw [isValue_eq, isValue_eq, isDisabledAutoCount_eq, isDisabledAutoCount_eq, hk, hb]

/-- Two encodings are of one kind, and the listed properties stand alike in them. -/
structure Agree (ps : List Property) (e f : Encoding) : Prop where
  kind : e.kind = f.kind
  standing : ∀ p ∈ ps, e.standing p = f.standing p

end Encoding
end ChartAdvisor
