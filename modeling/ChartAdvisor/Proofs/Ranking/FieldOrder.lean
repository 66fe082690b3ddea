import Mathlib.Data.List.Lex
import Mathlib.Data.Nat.Digits.Defs
import Mathlib.Tactic.Ring
import ChartAdvisor.Proofs.Number.Exactness
import ChartAdvisor.Proofs.Pointwise
import ChartAdvisor.Proofs.Search.Precedence
import ChartAdvisor.Ranking.Basic

/-!
# Fields in the order of the schema

A draft is scored by where its fields stand in the schema, each slot weighing as much as the schema has
fields times the weight of the next slot. So the places are the digits of a number, the first slot the
leading one, and the numbers are in the order in which the digits are, read from the first slot on. That
holds of the numbers themselves; the ranking rounds them, and is exact as long as they are small.
-/
namespace ChartAdvisor

/-! ## Digits -/

section Digits

variable {base : Nat}

/-- A number in some base, the leading digit first. -/
def ofLeading (base : Nat) (digits : List Nat) : Nat := Nat.ofDigits base digits.reverse

theorem ofLeading_cons (digit : Nat) (digits : List Nat) :
    ofLeading base (digit :: digits) = ofLeading base digits + base ^ digits.length * digit := by
  rw [ofLeading, Nat.ofDigits_reverse_cons, ofLeading]

/-- Digits that are too many by one for a number make it larger, in base one as well. -/
theorem ofLeading_lt {digits : List Nat} (h : ∀ digit ∈ digits, digit < base) :
    ofLeading base digits < base ^ digits.length := by
  induction digits with
  | nil => simp [ofLeading]
  | cons digit digits ih =>
    have hrest := ih fun x hx => h x (List.mem_cons_of_mem _ hx)
    have hdigit : digit + 1 ≤ base := h digit List.mem_cons_self
    calc ofLeading base (digit :: digits)
        = ofLeading base digits + base ^ digits.length * digit := ofLeading_cons digit digits
      _ < base ^ digits.length + base ^ digits.length * digit := Nat.add_lt_add_right hrest _
      _ = base ^ digits.length * (digit + 1) := by ring
      _ ≤ base ^ digits.length * base := Nat.mul_le_mul_left _ hdigit
      _ = base ^ (digit :: digits).length := by rw [List.length_cons, pow_succ]

/-- Where the first different digit is smaller, the number is, whatever comes behind. -/
theorem ofLeading_lt_of_lt {digits digits' : List Nat} (hlength : digits.length = digits'.length)
    (h : ∀ digit ∈ digits, digit < base) (hlt : digits < digits') :
    ofLeading base digits < ofLeading base digits' := by
  induction digits generalizing digits' with
  | nil =>
    obtain rfl := List.length_eq_zero_iff.mp hlength.symm
    exact absurd hlt (List.not_lt_nil _)
  | cons x rest ih =>
    cases digits' with
    | nil => exact absurd hlt (List.not_lt_nil _)
    | cons y rest' =>
      have hbehind : ∀ digit ∈ rest, digit < base := fun z hz => h z (List.mem_cons_of_mem _ hz)
      have hrest : rest.length = rest'.length := Nat.succ.inj hlength
      rw [ofLeading_cons, ofLeading_cons, ← hrest]
      rcases List.cons_lt_cons_iff.mp hlt with hxy | ⟨rfl, htail⟩
      · calc ofLeading base rest + base ^ rest.length * x
            < base ^ rest.length + base ^ rest.length * x := Nat.add_lt_add_right (ofLeading_lt hbehind) _
          _ = base ^ rest.length * (x + 1) := by ring
          _ ≤ base ^ rest.length * y := Nat.mul_le_mul_left _ hxy
          _ ≤ ofLeading base rest' + base ^ rest.length * y := Nat.le_add_left ..
      · exact Nat.add_lt_add_right (ih hrest hbehind htail) _

/-- As many digits below the base are in the order of the numbers that they write. -/
theorem ofLeading_lt_iff {digits digits' : List Nat} (hlength : digits.length = digits'.length)
    (h : ∀ digit ∈ digits, digit < base) (h' : ∀ digit ∈ digits', digit < base) :
    ofLeading base digits < ofLeading base digits' ↔ digits < digits' := by
  refine ⟨fun hlt => ?_, ofLeading_lt_of_lt hlength h⟩
  rcases lt_trichotomy digits digits' with hless | rfl | hmore
  · exact hless
  · exact absurd hlt (Nat.lt_irrefl _)
  · exact absurd hlt (ofLeading_lt_of_lt hlength.symm h' hmore).not_gt

theorem ofLeading_eq_iff {digits digits' : List Nat} (hlength : digits.length = digits'.length)
    (h : ∀ digit ∈ digits, digit < base) (h' : ∀ digit ∈ digits', digit < base) :
    ofLeading base digits = ofLeading base digits' ↔ digits = digits' := by
  refine ⟨fun heq => ?_, fun heq => heq ▸ rfl⟩
  rcases lt_trichotomy digits digits' with hless | heq | hmore
  · exact absurd heq (ofLeading_lt_of_lt hlength h hless).ne
  · exact heq
  · exact absurd heq.symm (ofLeading_lt_of_lt hlength.symm h' hmore).ne

end Digits

/-! ## The field order in some arithmetic -/

namespace Ranking

/-- What the field order computes with. -/
structure Arithmetic (α : Type) where
  one : α
  ofNat : Nat → α
  neg : α → α
  mul : α → α → α

/-- The arithmetic of the ranking, in which each step is rounded. -/
def Arithmetic.rounded : Arithmetic Binary64 where
  one := .ofThousandths 1000
  ofNat n := .ofRat false (n : Nat)
  neg := Binary64.neg
  mul := Binary64.mul

theorem toRat_ofNat_rounded {n : Nat} (h : n ≤ twoTo 53) : (Arithmetic.rounded.ofNat n).toRat = (n : Int) :=
  Binary64.toRat_ofRat_int false h

/-- Exact integers. -/
def Arithmetic.integers : Arithmetic Int where
  one := 1
  ofNat n := n
  neg n := -n
  mul n m := n * m

section Arithmetic

variable {α : Type} (a : Arithmetic α) (schema : Schema) (d : Draft)

/-- The open slots that hold fields, the last one first. -/
def fieldSlots : List (Nat × FieldEncoding) :=
  (d.slots.indices .field).reverse.filterMap fun i =>
    ((d.encoding? i).bind Encoding.field?).map (i, ·)

/-- The reason of a slot that is chosen, its text and its number. -/
def slotReason? (weight : α) (slot : Nat × FieldEncoding) : Option (String × α) :=
  slot.2.field.value?.map fun field =>
    let position := (schema.index? field).getD 0
    let name := ((d.slots.slot? slot.1 .field).map Candidates.name).getD Wildcard.mark
    (s!"field {name} is {field} (#{position} in the schema)", a.mul (a.neg (a.ofNat position)) weight)

/-- The reasons of some slots, from the weight of the first of them on. -/
def slotReasons : α → List (Nat × FieldEncoding) → List (String × α)
  | _, [] => []
  | weight, slot :: rest =>
    (slotReason? a schema d weight slot).toList ++
      slotReasons (a.mul weight (a.ofNat (max 1 schema.fields.length))) rest

end Arithmetic

/-- A reason of the ranking. -/
def fieldFeature (reason : String × Binary64) : Feature := ⟨fieldOrder.name, reason.1, reason.2⟩

/-- One step of the ranking: the reason of a slot, and the weight of the next. -/
def addSlot (schema : Schema) (d : Draft) (found : List Feature × Binary64) (slot : Nat × FieldEncoding) :
    List Feature × Binary64 :=
  (found.1 ++ ((slotReason? .rounded schema d found.2 slot).map fieldFeature).toList,
    found.2.mul (Arithmetic.rounded.ofNat (max 1 schema.fields.length)))

theorem foldl_addSlot (schema : Schema) (d : Draft) (slots : List (Nat × FieldEncoding))
    (found : List Feature) (weight : Binary64) :
    (slots.foldl (addSlot schema d) (found, weight)).1 =
      found ++ (slotReasons .rounded schema d weight slots).map fieldFeature := by
  induction slots generalizing found weight with
  | nil => exact (List.append_nil _).symm
  | cons slot rest ih =>
    rw [List.foldl_cons, slotReasons, List.map_append, ← List.append_assoc]
    refine (ih _ _).trans ?_
    cases slotReason? .rounded schema d weight slot <;> rfl

/-- The reasons of the ranking are those of the slots in rounded arithmetic. -/
theorem fieldOrderFeatures_eq (schema : Schema) (d : Draft) : fieldOrderFeatures schema d =
    (slotReasons .rounded schema d Arithmetic.rounded.one (fieldSlots d)).map fieldFeature := by
  have hstep : fieldOrderFeatures schema d =
      ((fieldSlots d).foldl (addSlot schema d) ([], Arithmetic.rounded.one)).1 := by
    refine congrArg (fun step => ((fieldSlots d).foldl step ([], Arithmetic.rounded.one)).1) ?_
    funext ⟨found, weight⟩ ⟨i, q⟩
    simp only [addSlot, slotReason?, Option.map_map]
    rfl
  rw [hstep, foldl_addSlot, List.nil_append]

/-- The score by the order of the fields, in exact integers. -/
def exactFieldOrder (schema : Schema) (d : Draft) : Int :=
  ((slotReasons .integers schema d Arithmetic.integers.one (fieldSlots d)).map Prod.snd).sum

/-! ## Positions -/

/-- Where the field of an encoding stands in the schema. -/
def fieldPosition? (schema : Schema) (d : Draft) (i : Nat) : Option Nat :=
  ((d.encoding? i).bind Encoding.field?).bind fun q => q.field.value?.bind schema.index?

/-- Where the fields of the open slots stand in the schema, by ascending number of the encoding; there is
no telling if one of them is not chosen. -/
def fieldPositions? (schema : Schema) (d : Draft) : Option (List Nat) :=
  (d.slots.indices .field).mapM (fieldPosition? schema d)

theorem lt_of_index? {schema : Schema} {field : String} {p : Nat} (h : schema.index? field = some p) :
    p < schema.fields.length :=
  (List.findIdx?_eq_some_iff_getElem.mp h).1

/-- A slot that holds the field at a position. -/
def HoldsAt (schema : Schema) (slot : Nat × FieldEncoding) (p : Nat) : Prop :=
  ∃ field, slot.2.field.value? = some field ∧ schema.index? field = some p

/-- The slots that hold fields hold those at the positions, the last slot first. -/
theorem holdsAt_fieldSlots {schema : Schema} {d : Draft} {v : List Nat} (h : fieldPositions? schema d = some v) :
    List.Forall₂ (HoldsAt schema) (fieldSlots d) v.reverse := by
  have hreverse := List.rel_reverse (forall₂_of_mapM_eq_some h)
  rw [← List.filterMap_some (l := v.reverse)]
  refine List.rel_filterMap (fun i p hp => ?_) hreverse
  obtain ⟨q, hq, hp⟩ := Option.bind_eq_some_iff.mp hp
  obtain ⟨field, hfield, hindex⟩ := Option.bind_eq_some_iff.mp hp
  rw [hq]
  exact .some ⟨field, hfield, hindex⟩

section Sums

variable {schema : Schema} {d : Draft} {slots : List (Nat × FieldEncoding)} {ps : List Nat}
  (h : List.Forall₂ (HoldsAt schema) slots ps)
include h

/-- In exact integers, the reasons add up to the number that the positions write, taken off. -/
theorem sum_slotReasons (weight : Int) : ((slotReasons .integers schema d weight slots).map Prod.snd).sum =
    -(weight * Nat.ofDigits (max 1 schema.fields.length) ps) := by
  induction h generalizing weight with
  | nil => simp [slotReasons]
  | @cons slot p rest ps hslot _ ih =>
    obtain ⟨field, hfield, hindex⟩ := hslot
    rw [slotReasons, slotReason?, hfield, Nat.ofDigits_cons, List.map_append, List.sum_append, ih]
    simp only [Option.map_some, Option.toList_some, List.map_singleton, List.sum_singleton, hindex,
      Option.getD_some, Arithmetic.integers]
    push_cast
    ring

/-- As long as the numbers are small, the rounded sum of the reasons is exact as well. -/
theorem foldl_add_slotReasons {weight : Binary64} {w : Nat} (hweight : weight.toRat = (w : Int)) (hpos : 0 < w)
    (hsmall : w * max 1 schema.fields.length ^ slots.length ≤ twoTo 53)
    {sum : Binary64} {t : Nat} (hsum : sum.toRat = (-t : Int))
    (hrest : t + w * Nat.ofDigits (max 1 schema.fields.length) ps ≤ twoTo 53) :
    (((slotReasons .rounded schema d weight slots).map Prod.snd).foldl Binary64.add sum).toRat =
      (-(t + w * Nat.ofDigits (max 1 schema.fields.length) ps : Nat) : Int) := by
  -- What is added up and what a slot weighs stay integers of 53 bits from slot to slot.
  induction h generalizing weight w sum t with
  | nil => simpa [slotReasons] using hsum
  | @cons slot p rest ps hslot _ ih =>
    obtain ⟨field, hfield, hindex⟩ := hslot
    have hp : p < max 1 schema.fields.length := (lt_of_index? hindex).trans_le (Nat.le_max_right ..)
    rw [slotReasons, slotReason?, hfield, Nat.ofDigits_cons]
    simp only [Option.map_some, Option.toList_some, List.map_append, List.map_singleton, List.foldl_append,
      List.foldl_cons, List.foldl_nil, hindex, Option.getD_some]
    rw [Nat.ofDigits_cons] at hrest
    rw [List.length_cons] at hsmall
    generalize max 1 schema.fields.length = n at *
    have hn : 0 < n := Nat.zero_lt_of_lt hp
    have hsplit : t + w * (p + n * Nat.ofDigits n ps) = t + w * p + w * n * Nat.ofDigits n ps := by ring
    rw [hsplit] at hrest ⊢
    have hnext : w * n ≤ twoTo 53 :=
      (Nat.mul_le_mul_left w (Nat.le_self_pow (Nat.succ_ne_zero _) n)).trans hsmall
    have hbase : n ≤ twoTo 53 := (Nat.le_mul_of_pos_left n hpos).trans hnext
    have hplace : w * p ≤ twoTo 53 := (Nat.mul_le_mul_left w hp.le).trans hnext
    have hheavier : (weight.mul (Arithmetic.rounded.ofNat n)).toRat = (w * n : Nat) :=
      Binary64.toRat_mul_int hweight (toRat_ofNat_rounded hbase) hnext
    have hnumber : ((Binary64.neg (Arithmetic.rounded.ofNat p)).mul weight).toRat = (-(w * p : Nat) : Int) := by
      have hproduct : -(p : Int) * w = -(w * p : Nat) := by
        push_cast
        ring
      rw [← hproduct]
      refine Binary64.toRat_mul_int (Binary64.toRat_neg_int (toRat_ofNat_rounded (hp.le.trans hbase))) hweight ?_
      rwa [hproduct, Int.natAbs_neg]
    have hmore : (sum.add ((Binary64.neg (Arithmetic.rounded.ofNat p)).mul weight)).toRat =
        (-(t + w * p : Nat) : Int) := by
      have htotal : -(t : Int) + -(w * p : Nat) = -(t + w * p : Nat) := by
        push_cast
        ring
      rw [← htotal]
      refine Binary64.toRat_add_int hsum hnumber ?_
      rw [htotal, Int.natAbs_neg]
      exact (Nat.le_add_right ..).trans hrest
    exact ih hheavier (Nat.mul_pos hpos hn) (by rwa [Nat.mul_assoc, ← pow_succ']) hmore hrest

end Sums

section Positions

variable {schema : Schema} {d : Draft} {v : List Nat} (h : fieldPositions? schema d = some v)
include h

theorem exactFieldOrder_eq : exactFieldOrder schema d = -(ofLeading (max 1 schema.fields.length) v : Int) := by
  rw [exactFieldOrder, sum_slotReasons (holdsAt_fieldSlots h), ofLeading]
  exact congrArg Neg.neg (one_mul _)

theorem length_fieldPositions : v.length = (d.slots.indices .field).length :=
  (forall₂_of_mapM_eq_some h).length_eq.symm

theorem lt_of_mem_fieldPositions : ∀ p ∈ v, p < max 1 schema.fields.length := by
  intro p hp
  obtain ⟨i, -, hi⟩ := exists_of_forall₂ (forall₂_of_mapM_eq_some h).flip hp
  obtain ⟨q, -, hq⟩ := Option.bind_eq_some_iff.mp hi
  obtain ⟨field, -, hindex⟩ := Option.bind_eq_some_iff.mp hq
  exact (lt_of_index? hindex).trans_le (Nat.le_max_right ..)

/-- The ranking does not round as long as the highest number of so many digits is small. -/
theorem total_fieldOrder {config : Config} (hsmall : max 1 schema.fields.length ^ v.length ≤ twoTo 53) :
    (fieldOrder.score ⟨schema, config⟩ d).total.toRat = exactFieldOrder schema d := by
  have hslots := holdsAt_fieldSlots h
  have hnumbers (fs : List (String × Binary64)) (sum : Binary64) :
      (fs.map fieldFeature).foldl (fun sum f => sum.add f.score) sum =
        (fs.map Prod.snd).foldl Binary64.add sum := by
    rw [List.foldl_map, List.foldl_map]
    rfl
  have hstart : (0 : Nat) + 1 * Nat.ofDigits (max 1 schema.fields.length) v.reverse ≤ twoTo 53 := by
    rw [Nat.zero_add, one_mul]
    exact (ofLeading_lt (lt_of_mem_fieldPositions h)).le.trans hsmall
  have hslot : 1 * max 1 schema.fields.length ^ (fieldSlots d).length ≤ twoTo 53 := by
    rwa [one_mul, hslots.length_eq, List.length_reverse]
  have hexact : (((slotReasons .rounded schema d Arithmetic.rounded.one (fieldSlots d)).map Prod.snd).foldl
      Binary64.add (.zero true)).toRat =
        (-(0 + 1 * Nat.ofDigits (max 1 schema.fields.length) v.reverse : Nat) : Int) :=
    foldl_add_slotReasons hslots (by decide +kernel) Nat.one_pos hslot (by decide +kernel) hstart
  rw [Nat.zero_add, one_mul] at hexact
  rw [exactFieldOrder_eq h, ofLeading, ← hexact, ← hnumbers, ← fieldOrderFeatures_eq]
  unfold score
  split
  · next hnone =>
    have hnil : fieldOrderFeatures schema d = [] := by
      unfold fieldOrderFeatures
      rw [List.isEmpty_iff.mp hnone.2]
      rfl
    rw [hnil]
    decide +kernel
  · rfl

end Positions

/-- Of two drafts with the same open slots, all of which hold fields of the schema, the one with the higher
exact score is the one of which the positions in the schema are smaller, read from the first slot on; the scores
are equal only for the same positions. Where there are few slots and fields, the ranking has these very
numbers. -/
theorem fieldOrder_lexicographic (ctx : Context) {d d' : Draft} (hslots : d.slots = d'.slots) {v v' : List Nat}
    (h : fieldPositions? ctx.schema d = some v) (h' : fieldPositions? ctx.schema d' = some v') :
    (exactFieldOrder ctx.schema d' < exactFieldOrder ctx.schema d ↔ v < v') ∧
    (exactFieldOrder ctx.schema d = exactFieldOrder ctx.schema d' ↔ v = v') ∧
    (ctx.schema.fields.length ^ (d.slots.indices .field).length ≤ twoTo 53 →
      (fieldOrder.score ctx d).total.toRat = exactFieldOrder ctx.schema d ∧
      (fieldOrder.score ctx d').total.toRat = exactFieldOrder ctx.schema d') := by
  have hlength : v.length = v'.length := by
    rw [length_fieldPositions h, length_fieldPositions h', hslots]
  have hbelow := lt_of_mem_fieldPositions h
  have hbelow' := lt_of_mem_fieldPositions h'
  refine ⟨?_, ?_, fun hsmall => ?_⟩
  · rw [exactFieldOrder_eq h, exactFieldOrder_eq h', neg_lt_neg_iff, Int.ofNat_lt,
      ofLeading_lt_iff hlength hbelow hbelow']
  · rw [exactFieldOrder_eq h, exactFieldOrder_eq h', neg_inj, Int.natCast_inj,
      ofLeading_eq_iff hlength hbelow hbelow']
  · have hfields : max 1 ctx.schema.fields.length = ctx.schema.fields.length :=
      Nat.max_eq_right (List.length_pos_iff.mpr ctx.schema.ne_nil)
    rw [← length_fieldPositions h, ← hfields] at hsmall
    exact ⟨total_fieldOrder h hsmall, total_fieldOrder h' (hlength ▸ hsmall)⟩

/-- Points at two numbers, the fields of which are open. -/
def anyNumbers : ChartQuery where
  mark := .fixed .point
  encodings := [
    .field { channel := .fixed .x, field := .wild {}, type := .fixed .quantitative },
    .field { channel := .fixed .y, field := .wild {}, type := .fixed .quantitative }]

/-- Whether there are two results, and they are related. -/
def areTwo {α : Type} (related : α → α → Bool) : List α → Bool
  | [a, b] => related a b
  | _ => false

theorem eq_pair_of_areTwo {α : Type} {related : α → α → Bool} {l : List α} (h : areTwo related l = true) :
    ∃ a b, l = [a, b] ∧ related a b = true := by
  unfold areTwo at h
  split at h
  · exact ⟨_, _, rfl, h⟩
  · contradiction

/-- With three fields in the schema, the first slot weighs three times the second. -/
theorem fieldOrder_lexicographic_numbers : ∃ d d' : Draft,
    (generate anyNumbers ⟨Draft.threeFields, {}⟩).outcome = .ok [d, d'] ∧ d.slots = d'.slots ∧
      fieldPositions? Draft.threeFields d = some [0, 1] ∧ fieldPositions? Draft.threeFields d' = some [1, 0] ∧
      exactFieldOrder Draft.threeFields d' = -3 ∧ exactFieldOrder Draft.threeFields d = -1 ∧
      (exactFieldOrder Draft.threeFields d' < exactFieldOrder Draft.threeFields d ↔ [0, 1] < [1, 0]) ∧
      (exactFieldOrder Draft.threeFields d = exactFieldOrder Draft.threeFields d' ↔ [0, 1] = [1, 0]) ∧
      (fieldOrder.score ⟨Draft.threeFields, {}⟩ d).total.toRat = exactFieldOrder Draft.threeFields d := by
  have hfound : ((generate anyNumbers ⟨Draft.threeFields, {}⟩).outcome.map (areTwo fun d d' =>
      decide (d.slots.mark = d'.slots.mark ∧ d.slots.encodings = d'.slots.encodings ∧
        fieldPositions? Draft.threeFields d = some [0, 1] ∧ fieldPositions? Draft.threeFields d' = some [1, 0] ∧
        exactFieldOrder Draft.threeFields d' = -3 ∧ exactFieldOrder Draft.threeFields d = -1 ∧
        Draft.threeFields.fields.length ^ (d.slots.indices .field).length ≤ twoTo 53))).toOption =
      some true := by decide
  obtain ⟨drafts, hdrafts, htwo⟩ := Draft.exists_of_map_toOption hfound
  obtain ⟨d, d', rfl, hboth⟩ := eq_pair_of_areTwo htwo
  obtain ⟨hmark, hencodings, h, h', hscore', hscore, hsmall⟩ := of_decide_eq_true hboth
  have hslots : d.slots = d'.slots := congrArg₂ SlotIndex.mk hmark hencodings
  obtain ⟨hlt, heq, hexact⟩ := fieldOrder_lexicographic ⟨Draft.threeFields, {}⟩ hslots h h'
  exact ⟨d, d', hdrafts, hslots, h, h', hscore', hscore, hlt, heq, (hexact hsmall).1⟩

end Ranking
end ChartAdvisor
