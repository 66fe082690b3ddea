import ChartAdvisor.Encoding.Fill
import ChartAdvisor.Proofs.Encoding.Change

/-!
# What filling leaves open

Filling an encoding opens nothing and closes nothing, and it lists exactly the slots that are
open.
-/
namespace ChartAdvisor
namespace Filling

variable (f : Filling)

/-- Whether some open slot of a list belongs to a property. -/
def lists (slots : OpenSlots) (p : Property) : Bool := slots.any (·.1 == p)

@[simp]
theorem lists_nil (p : Property) : lists [] p = false := rfl

@[simp]
theorem lists_append (s t : OpenSlots) (p : Property) :
    lists (s ++ t) p = (lists s p || lists t p) := List.any_append

variable {α : Type}

@[simp]
theorem isOpen_slot [Choosable α] (p : Property) (s : Slot α) :
    (f.slot p s).1.isOpen = s.isOpen := by
  cases s <;> rfl

@[simp]
theorem lists_slot [Choosable α] (p r : Property) (s : Slot α) :
    lists (f.slot p s).2 r = (p == r && s.isOpen) := by
  cases s with
  | fixed v => simp [slot, Slot.isOpen]
  | wild w => simp [slot, Slot.isOpen, lists]

@[simp]
theorem isOpen_slot? [Choosable α] (p : Property) (s : Option (Slot α)) :
    (f.slot? p s).1.any Slot.isOpen = s.any Slot.isOpen := by
  cases s with
  | none => rfl
  | some s => exact f.isOpen_slot p s

@[simp]
theorem lists_slot? [Choosable α] (p r : Property) (s : Option (Slot α)) :
    lists (f.slot? p s).2 r = (p == r && s.any Slot.isOpen) := by
  cases s with
  | none => simp [slot?]
  | some s => exact f.lists_slot p r s

@[simp]
theorem isOpen_toggle (p : Property) (inner : α → α × OpenSlots) (t : Option (Toggle α)) :
    (f.toggle p inner t).1.any Toggle.isOpen = t.any Toggle.isOpen := by
  rcases t with _ | _ | _ | _ <;> rfl

@[simp]
theorem inner?_toggle (p : Property) (inner : α → α × OpenSlots) (t : Option (Toggle α)) :
    (f.toggle p inner t).1.bind Toggle.inner? =
      (t.bind Toggle.inner?).map fun a => (inner a).1 := by
  rcases t with _ | _ | _ | _ <;> rfl

/-- A part lists its switch, and what is open in its settings. -/
theorem lists_toggle (p r : Property) (inner : α → α × OpenSlots) (t : Option (Toggle α)) :
    lists (f.toggle p inner t).2 r = ((p == r && t.any Toggle.isOpen) ||
      (t.bind Toggle.inner?).any fun a => lists (inner a).2 r) := by
  rcases t with _ | _ | _ | _ <;> simp [toggle, Toggle.isOpen, Toggle.inner?, lists]

theorem get_scaleParts (parts : List ScaleProperty) (hn : parts.Nodup) (s : Scale)
    (part : ScaleProperty) :
    (f.scaleParts parts s).1.get part =
      if part ∈ parts then (f.slot? (.scaleOf part) (s.get part)).1 else s.get part := by
  induction parts generalizing s with
  | nil => rfl
  | cons p rest ih =>
    obtain ⟨hp, hrest⟩ := List.nodup_cons.mp hn
    simp only [scaleParts]
    rw [ih hrest]
    by_cases h : part = p
    · subst h
      rw [if_neg hp, if_pos (List.mem_cons_self ..), Scale.get_put]
    · rw [Scale.get_put_of_ne _ h]
      simp only [List.mem_cons, h, false_or]

theorem lists_scaleParts (parts : List ScaleProperty) (hn : parts.Nodup) (s : Scale)
    (r : Property) :
    lists (f.scaleParts parts s).2 r = parts.any fun p => .scaleOf p == r && s.isOpen p := by
  induction parts generalizing s with
  | nil => rfl
  | cons p rest ih =>
    obtain ⟨hp, hrest⟩ := List.nodup_cons.mp hn
    simp only [scaleParts, lists_append, lists_slot?, List.any_cons]
    rw [ih hrest]
    refine congrArg _ ?_
    rw [Bool.eq_iff_iff, List.any_eq_true, List.any_eq_true]
    refine exists_congr fun part => and_congr_right fun hpart => ?_
    have hne : part ≠ p := fun e => hp (e ▸ hpart)
    rw [Scale.isOpen, Scale.get_put_of_ne _ hne]
    rfl

theorem isOpen_scale (s : Scale) (part : ScaleProperty) :
    (f.scale s).1.isOpen part = s.isOpen part := by
  have hm : part ∈ Property.scaleParts := by cases part <;> decide
  rw [Scale.isOpen, scale, get_scaleParts f _ (by decide), if_pos hm, isOpen_slot?]
  rfl

theorem lists_scale (s : Scale) (r : Property) : lists (f.scale s).2 r =
    match r with
    | .scaleOf part => s.isOpen part
    | _ => false := by
  rw [scale, lists_scaleParts f _ (by decide), Bool.eq_iff_iff, List.any_eq_true]
  have hm (part : ScaleProperty) : part ∈ Property.scaleParts := by cases part <;> decide
  cases r <;> simp [hm]

/-- Guides have no slots of their own. -/
@[simp]
theorem lists_guide (t : Option (Toggle Guide)) (p r : Property) :
    lists (f.toggle p guide t).2 r = (p == r && t.any Toggle.isOpen) := by
  rw [lists_toggle]
  cases t.bind Toggle.inner? <;> simp [guide]

@[simp]
theorem lists_bin (t : Option (Toggle Bin)) (r : Property) :
    lists (f.toggle .bin f.bin t).2 r = ((.bin == r && t.any Toggle.isOpen) ||
      (.maxBins == r && ((t.bind Toggle.inner?).bind Bin.maxbins).any Slot.isOpen)) := by
  rw [lists_toggle]
  cases t.bind Toggle.inner? <;> simp [bin]

theorem isOpen_filter_isPresent {α : Type} (t : Option (Toggle α)) :
    (t.filter Toggle.isPresent).any Toggle.isOpen = t.any Toggle.isOpen := by
  rcases t with _ | _ | _ | _ <;> rfl

theorem inner?_filter_isPresent {α : Type} (t : Option (Toggle α)) :
    (t.filter Toggle.isPresent).bind Toggle.inner? = t.bind Toggle.inner? := by
  rcases t with _ | _ | _ | _ <;> rfl

theorem isOpen_field (q : FieldEncoding) (p : Property) : (f.field q).1.isOpen p = q.isOpen p := by
  cases p with
  | maxBins =>
    simp only [FieldEncoding.isOpen, FieldEncoding.bin?, field, inner?_toggle,
      inner?_filter_isPresent]
    cases q.bin.bind Toggle.inner? with
    | none => rfl
    | some b => exact f.isOpen_slot? _ _
  | scaleOf part =>
    simp only [FieldEncoding.isOpen, FieldEncoding.scale?, field, inner?_toggle]
    cases q.scale.bind Toggle.inner? with
    | none => rfl
    | some s => exact f.isOpen_scale s part
  | bin => simp only [FieldEncoding.isOpen, field, isOpen_toggle, isOpen_filter_isPresent]
  | _ => simp only [FieldEncoding.isOpen, field, isOpen_toggle, isOpen_slot, isOpen_slot?]

theorem lists_field (q : FieldEncoding) (p : Property) : lists (f.field q).2 p = q.isOpen p := by
  simp only [field, lists_append, lists_slot, lists_slot?, lists_guide, lists_bin,
    inner?_filter_isPresent, isOpen_filter_isPresent]
  rw [lists_toggle]
  simp only [lists_scale]
  rw [Bool.eq_iff_iff]
  cases p <;> simp [FieldEncoding.isOpen, FieldEncoding.bin?, FieldEncoding.scale?]

end Filling

theorem Encoding.isOpen_fill (f : Filling) (e : Encoding) (p : Property) :
    (e.fill f).1.isOpen p = e.isOpen p := by
  cases e with
  | field q => exact f.isOpen_field q p
  | value c v => simp [fill, isOpen]
  | autoCount c b => simp [fill, isOpen]

/-- Exactly the open slots of an encoding are listed. -/
theorem Encoding.lookup_fill (f : Filling) (e : Encoding) (p : Property) :
    ((e.fill f).2.lookup p).isSome = (e.fill f).1.isOpen p := by
  rw [Table.lookup_isSome_eq_any, isOpen_fill]
  cases e with
  | field q => exact f.lists_field q p
  | value c v =>
    refine (f.lists_slot .channel p c).trans ?_
    rw [BEq.comm]
    rfl
  | autoCount c b =>
    have h := Filling.lists_append (f.slot .channel c).2 (f.slot .autoCount b).2 p
    rw [Filling.lists_slot, Filling.lists_slot, BEq.comm, BEq.comm (a := Property.autoCount)] at h
    exact h

end ChartAdvisor
