import Mathlib.Data.List.Perm.Basic
import ChartAdvisor.Query.Basic

/-!
# How a query stacks

What a shorthand tells of a stack is the channel on which values accumulate and the offset. Where no
two encodings share an axis, neither depends on the order of the encodings.
-/
namespace ChartAdvisor

theorem Slot.is_iff {α : Type} [BEq α] [LawfulBEq α] {s : Slot α} {v : α} :
    s.is v = true ↔ s.value? = some v := by
  cases s <;> simp [is, value?]

/-- What a shorthand tells of a stack. -/
def Stack.told (s : Stack) : Channel × String := (s.fieldChannel, s.offset)

namespace ChartQuery

variable {q r : ChartQuery}

/-- The axis on which values accumulate, if they do. -/
def stackAxis (q : ChartQuery) : Channel := if q.aggregatesOn .x then .x else .y

/-- Values accumulate, unless the settings switch that off. -/
def accumulates (q : ChartQuery) : Bool :=
  q.mark.value?.any Mark.isStackable && q.isAggregate &&
    q.encodings.any (fun e => (stackGroup? e).isSome) && q.aggregatesOn .x != q.aggregatesOn .y

theorem stack?_eq (q : ChartQuery) : q.stack? =
    match q.stackOffset with
    | .ok (some offset) =>
      if q.accumulates then
        (q.position? q.stackAxis).map fun i =>
          ⟨if q.aggregatesOn .x then (q.position? .y).map fun _ => .y
            else (q.position? .x).map fun _ => .x,
            q.stackAxis, q.encodings.filterMap stackGroup?, offset, i⟩
      else none
    | _ => none := by
  have hgroups : (q.encodings.filterMap stackGroup?).isEmpty =
      !q.encodings.any fun e => (stackGroup? e).isSome := by
    rw [Bool.eq_iff_iff]
    simp [List.filterMap_eq_nil_iff, Option.isSome_iff_ne_none]
  unfold stack? accumulates stackAxis
  simp only [hgroups]
  cases q.stackOffset with
  | error v => rfl
  | ok o =>
    cases o with
    | none => rfl
    | some offset =>
      cases (q.mark.value?.any Mark.isStackable && q.isAggregate) <;>
        cases q.encodings.any (fun e => (stackGroup? e).isSome) <;>
        cases q.aggregatesOn .x <;> cases q.aggregatesOn .y <;> rfl

theorem stack?_eq_some {s : Stack} (h : q.stack? = some s) :
    q.stackOffset = .ok (some s.offset) ∧ q.position? s.fieldChannel = some s.fieldIndex := by
  rw [stack?_eq] at h
  split at h
  · next offset hoffset =>
    split at h
    · obtain ⟨i, hi, rfl⟩ := Option.map_eq_some_iff.mp h
      exact ⟨hoffset, hi⟩
    · contradiction
  · contradiction

theorem mem_stackOffsets {offset : String} (h : q.stackOffset = .ok (some offset)) :
    offset ∈ stackOffsets := by
  have zero (heq : Except.ok (some "zero") = (.ok (some offset) : Except Json _)) :
      offset ∈ stackOffsets := by
    cases heq
    decide
  unfold stackOffset at h
  split at h
  · exact zero h
  · exact zero h
  · exact absurd (Except.ok.inj h) nofun
  · exact absurd (Except.ok.inj h) nofun
  · split at h
    · exact absurd (Except.ok.inj h) nofun
    · split at h
      · next hmem => cases h; exact List.contains_iff_mem.mp hmem
      · contradiction
  · contradiction

theorem position?_isSome_of_aggregatesOn {c : Channel} (h : q.aggregatesOn c = true) :
    (q.position? c).isSome = true := by
  obtain ⟨e, he, -⟩ := (Option.any_eq_true _ _).mp h
  have hfound := List.find?_some he
  rw [position?, List.findIdx?_isSome, List.any_eq_true]
  exact ⟨e, List.mem_of_find?_eq_some he, hfound⟩

/-- There is an encoding on the axis on which values accumulate. -/
theorem position?_stackAxis (h : q.accumulates = true) : (q.position? q.stackAxis).isSome := by
  have hone := (Bool.and_eq_true_iff.mp h).2
  unfold stackAxis
  cases hx : q.aggregatesOn .x with
  | true => exact position?_isSome_of_aggregatesOn hx
  | false =>
    rw [hx] at hone
    exact position?_isSome_of_aggregatesOn (by simpa using hone)

theorem told_stack? (q : ChartQuery) : q.stack?.map Stack.told =
    match q.stackOffset with
    | .ok (some offset) => if q.accumulates then some (q.stackAxis, offset) else none
    | _ => none := by
  rw [stack?_eq]
  split
  · next offset _ =>
    split
    · next h =>
      obtain ⟨i, hi⟩ := Option.isSome_iff_exists.mp (position?_stackAxis h)
      rw [hi]
      rfl
    · rfl
  · rfl

theorem accumulates_eq_true (h : q.accumulates = true) :
    q.mark.value?.any Mark.isStackable = true ∧ q.isAggregate = true := by
  simp only [accumulates, Bool.and_eq_true] at h
  exact h.1.1

/-- What accumulates does so along an axis. -/
theorem accumulates_of_stack? {s : Stack} (h : q.stack? = some s) :
    q.accumulates = true ∧ s.fieldChannel = q.stackAxis := by
  rw [stack?_eq] at h
  split at h
  · split at h
    · next hstack =>
      obtain ⟨i, -, rfl⟩ := Option.map_eq_some_iff.mp h
      exact ⟨hstack, rfl⟩
    · contradiction
  · contradiction

theorem isPositional_stackAxis (q : ChartQuery) : q.stackAxis.isPositional = true := by
  unfold stackAxis
  split <;> rfl

end ChartQuery

/-! ## Queries with one encoding on each axis -/

/-- The axis that an encoding is fixed on, if it is on one. -/
def Encoding.axis? (e : Encoding) : Option Channel := e.channel?.filter Channel.isPositional

namespace ChartQuery

variable {q r : ChartQuery}

/-- No two encodings share a channel. -/
def ChannelsApart (q : ChartQuery) : Prop := (q.encodings.filterMap Encoding.channel?).Nodup

instance (q : ChartQuery) : Decidable q.ChannelsApart :=
  inferInstanceAs (Decidable (List.Nodup _))

/-- No two encodings share an axis. -/
def AxesApart (q : ChartQuery) : Prop := (q.encodings.filterMap Encoding.axis?).Nodup

/-- In a bar or an area with an aggregate no two encodings share an axis. -/
def StacksApart (q : ChartQuery) : Prop :=
  q.mark.value?.any Mark.isStackable = true → q.isAggregate = true → q.AxesApart

theorem ChannelsApart.axesApart (h : q.ChannelsApart) : q.AxesApart := by
  have haxes : q.encodings.filterMap Encoding.axis? =
      (q.encodings.filterMap Encoding.channel?).filter Channel.isPositional :=
    List.filter_filterMap.symm
  unfold AxesApart
  rw [haxes]
  exact h.filter _

theorem ChannelsApart.stacksApart (h : q.ChannelsApart) : q.StacksApart := fun _ _ => h.axesApart

theorem AxesApart.eq_of_is (h : q.AxesApart) {c : Channel} (axis : c.isPositional = true) {i j : Nat}
    {e e' : Encoding} (hi : q.encodings[i]? = some e) (hj : q.encodings[j]? = some e')
    (he : e.channel.is c = true) (he' : e'.channel.is c = true) : i = j := by
  have haxis (e : Encoding) (he : e.channel.is c = true) : e.axis? = some c := by
    rw [Encoding.axis?, Encoding.channel?, Slot.is_iff.mp he, Option.filter_some, if_pos axis]
  have hne := List.pairwise_iff_getElem.mp (List.pairwise_filterMap.mp h)
  obtain ⟨hilt, rfl⟩ := List.getElem?_eq_some_iff.mp hi
  obtain ⟨hjlt, rfl⟩ := List.getElem?_eq_some_iff.mp hj
  rcases Nat.lt_trichotomy i j with hlt | heq | hlt
  · exact absurd rfl (hne i j hilt hjlt hlt c (haxis _ he) c (haxis _ he'))
  · exact heq
  · exact absurd rfl (hne j i hjlt hilt hlt c (haxis _ he') c (haxis _ he))

theorem AxesApart.aggregatesOn_eq (h : q.AxesApart) {c : Channel} (axis : c.isPositional = true) :
    q.aggregatesOn c = q.encodings.any fun e => e.channel.is c && e.mayAggregate := by
  unfold aggregatesOn
  cases hfound : q.encodings.find? (·.channel.is c) with
  | none =>
    symm
    rw [Option.any_none, List.any_eq_false]
    intro e he hany
    exact List.find?_eq_none.mp hfound e he (Bool.and_eq_true_iff.mp hany).1
  | some e =>
    have he := List.find?_some hfound
    obtain ⟨i, hi⟩ := List.mem_iff_getElem?.mp (List.mem_of_find?_eq_some hfound)
    rw [Option.any_some, Bool.eq_iff_iff, List.any_eq_true]
    constructor
    · exact fun hagg => ⟨e, List.mem_of_getElem? hi, Bool.and_eq_true_iff.mpr ⟨he, hagg⟩⟩
    · rintro ⟨e', he', hany⟩
      obtain ⟨hc, hagg⟩ := Bool.and_eq_true_iff.mp hany
      obtain ⟨j, hj⟩ := List.mem_iff_getElem?.mp he'
      obtain rfl := h.eq_of_is axis hi hj he hc
      obtain rfl := Option.some.inj (hi.symm.trans hj)
      exact hagg

/-- The encoding that accumulates is the one on its channel. -/
theorem StacksApart.fieldIndex_beq (h : q.StacksApart) {s : Stack} (hs : q.stack? = some s)
    {i : Nat} {e : Encoding} (he : q.encodings[i]? = some e) :
    (s.fieldIndex == i) = e.channel.is s.fieldChannel := by
  obtain ⟨hlt, hon, -⟩ := List.findIdx?_eq_some_iff_getElem.mp (stack?_eq_some hs).2
  obtain ⟨haccumulates, haxis⟩ := accumulates_of_stack? hs
  obtain ⟨hmark, haggregate⟩ := accumulates_eq_true haccumulates
  rw [Bool.eq_iff_iff, beq_iff_eq]
  constructor
  · rintro rfl
    obtain ⟨-, rfl⟩ := List.getElem?_eq_some_iff.mp he
    exact hon
  · exact fun hc => (h hmark haggregate).eq_of_is (haxis ▸ q.isPositional_stackAxis)
      (List.getElem?_eq_getElem hlt) he hon hc

/-- The stack depends on which encodings there are, not on their order. -/
theorem StacksApart.told_stack?_eq (hq : q.StacksApart) (hr : r.StacksApart)
    (mark : q.mark = r.mark) (offset : q.stackOffset = r.stackOffset)
    (aggregate : q.isAggregate = r.isAggregate)
    (groups : q.encodings.any (fun e => (stackGroup? e).isSome) =
      r.encodings.any fun e => (stackGroup? e).isSome)
    (axes : ∀ c, (q.encodings.any fun e => e.channel.is c && e.mayAggregate) =
      r.encodings.any fun e => e.channel.is c && e.mayAggregate) :
    q.stack?.map Stack.told = r.stack?.map Stack.told := by
  rw [told_stack?, told_stack?, offset]
  cases hstack : q.mark.value?.any Mark.isStackable && q.isAggregate with
  | false =>
    have hnone : q.accumulates = false := by simp only [accumulates, hstack, Bool.false_and]
    have hnone' : r.accumulates = false := by
      simp only [accumulates, ← mark, ← aggregate, hstack, Bool.false_and]
    rw [hnone, hnone']
    rfl
  | true =>
    obtain ⟨hmark, haggregate⟩ := Bool.and_eq_true_iff.mp hstack
    have haxes (c : Channel) (axis : c.isPositional = true) : q.aggregatesOn c = r.aggregatesOn c := by
      rw [(hq hmark haggregate).aggregatesOn_eq axis,
        (hr (mark ▸ hmark) (aggregate ▸ haggregate)).aggregatesOn_eq axis, axes]
    have haccumulates : q.accumulates = r.accumulates := by
      simp only [accumulates, mark, aggregate, groups, haxes .x rfl, haxes .y rfl]
    have haxis : q.stackAxis = r.stackAxis := by simp only [stackAxis, haxes .x rfl]
    rw [haccumulates, haxis]

/-- The offset that is written with an encoding. -/
def offsetOf? (q : ChartQuery) (e : Encoding) : Option String :=
  ((q.stack?.map Stack.told).filter fun t => e.channel.is t.1).map Prod.snd

theorem StacksApart.offset_eq (h : q.StacksApart) {i : Nat} {e : Encoding}
    (he : q.encodings[i]? = some e) :
    (q.stack?.filter (·.fieldIndex == i)).map Stack.offset = q.offsetOf? e := by
  unfold offsetOf?
  cases hs : q.stack? with
  | none => rfl
  | some s =>
    simp only [Option.map_some, Option.filter_some, h.fieldIndex_beq hs he, Stack.told]
    cases e.channel.is s.fieldChannel <;> rfl

end ChartQuery

/-! ## Queries with like encodings -/

/-- An encoding that plays a part and adds to a stack what another one adds. -/
structure Encoding.StacksLike (e e' : Encoding) : Prop where
  active : e.isDisabledAutoCount = false
  channel : e.channel = e'.channel
  aggregate : e.isAggregate = e'.isAggregate
  mayAggregate : e.mayAggregate = e'.mayAggregate
  group : ChartQuery.stackGroup? e = ChartQuery.stackGroup? e'

namespace ChartQuery

variable {q r : ChartQuery}

/-- A kind that no disabled auto count is of is found among the encodings that play a part. -/
theorem any_active {P : Encoding → Bool} (hidden : ∀ c, P (.autoCount c (.fixed false)) = false) :
    q.active.any P = q.encodings.any P := by
  rw [active, List.any_filter]
  congr 1
  funext e
  cases e with
  | field | value => rfl
  | autoCount c b =>
    rcases b with (_ | _) | w
    · rw [hidden]
      exact Bool.and_false _
    · rfl
    · rfl

section Like

variable {f : Encoding → Encoding} (like : ∀ e ∈ q.active, (f e).StacksLike e)
  (perm : r.encodings.Perm (q.active.map f))
include like perm

theorem active_of_perm : r.active = r.encodings := by
  refine List.filter_eq_self.mpr fun e he => ?_
  obtain ⟨e, hmem, rfl⟩ := List.mem_map.mp (perm.mem_iff.mp he)
  rw [(like e hmem).active]
  rfl

omit like in
theorem any_of_perm {P : Encoding → Bool} (hidden : ∀ c, P (.autoCount c (.fixed false)) = false)
    (hP : ∀ e ∈ q.active, P (f e) = P e) : r.encodings.any P = q.encodings.any P := by
  rw [perm.any_eq, List.any_map, ← any_active hidden, Bool.eq_iff_iff, List.any_eq_true,
    List.any_eq_true]
  exact exists_congr fun e => and_congr_right fun he => by rw [Function.comp_apply, hP e he]

theorem isAggregate_of_perm : r.isAggregate = q.isAggregate :=
  any_of_perm perm (fun _ => rfl) fun e he => (like e he).aggregate

theorem StacksApart.of_perm (h : q.StacksApart) (mark : r.mark = q.mark) : r.StacksApart := by
  have haxes : (q.active.map f).filterMap Encoding.axis? = q.active.filterMap Encoding.axis? := by
    rw [List.filterMap_map]
    refine List.filterMap_congr fun e he => ?_
    rw [Function.comp_apply, Encoding.axis?, Encoding.channel?, (like e he).channel]
    rfl
  intro hmark haggregate
  have hapart := h (mark ▸ hmark) (isAggregate_of_perm like perm ▸ haggregate)
  unfold AxesApart
  rw [(perm.filterMap _).nodup_iff, haxes]
  exact List.Nodup.sublist (List.filter_sublist.filterMap _) hapart

/-- What is told of a stack does not change if each encoding is replaced by one that adds the same. -/
theorem StacksApart.told_stack?_of_perm (h : q.StacksApart) (mark : r.mark = q.mark)
    (offset : r.stackOffset = q.stackOffset) :
    r.stack?.map Stack.told = q.stack?.map Stack.told := by
  refine (h.of_perm like perm mark).told_stack?_eq h mark offset (isAggregate_of_perm like perm) ?_
    fun c => ?_
  · exact any_of_perm perm (fun _ => rfl) fun e he => by rw [(like e he).group]
  · refine any_of_perm perm (fun _ => Bool.and_false _) fun e he => ?_
    rw [(like e he).channel, (like e he).mayAggregate]

end Like

end ChartQuery
end ChartAdvisor
