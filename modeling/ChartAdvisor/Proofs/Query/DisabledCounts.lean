import ChartAdvisor.Proofs.Draft.Counting
import ChartAdvisor.Proofs.Shorthand.Rewriting

/-!
# Counts of rows that are switched off

A count of rows that is switched off plays no part, so a query should look the same with it and
without it. The chart, the shorthand and the counter of the channels leave it out. The stack does
not: it looks for the first encoding on an axis among all encodings, and a count of rows that is
switched off may be the first.
-/
namespace ChartAdvisor

/-- The other axis. -/
def Channel.across : Channel → Channel
  | .x => .y
  | _ => .x

namespace Stack

/-- The number of an encoding after another one was put in at position `k`. -/
def shiftIndex (k i : Nat) : Nat := if i < k then i else i + 1

theorem shiftIndex_injective (k : Nat) : Function.Injective (shiftIndex k) := by
  intro i j h
  unfold shiftIndex at h
  split at h <;> split at h <;> omega

/-- The stack after an encoding was put in at position `k`. -/
def shiftedAt (k : Nat) (s : Stack) : Stack := { s with fieldIndex := shiftIndex k s.fieldIndex }

/-- What a shorthand writes of a stack, and with which encoding. -/
def written (s : Stack) : Nat × String := (s.fieldIndex, s.offset)

end Stack

namespace ChartQuery

variable {q : ChartQuery} {k : Nat} {c : Slot Channel}

/-- The query with a count of rows that is switched off put in at position `k`. -/
def withDisabledCount (q : ChartQuery) (k : Nat) (c : Slot Channel) : ChartQuery :=
  { q with encodings := q.encodings.take k ++ .autoCount c (.fixed false) :: q.encodings.drop k }

/-- Values accumulate as soon as one axis has an aggregate and the other has none. -/
def mayStack (q : ChartQuery) : Bool :=
  q.mark.value?.any Mark.isStackable && q.isAggregate && q.encodings.any fun e => (stackGroup? e).isSome

/-- A count of rows on an axis, put in at position `k`, comes first on that axis and takes the place
of an aggregate there, or is alone there and across an aggregate. -/
structure Displaces (q : ChartQuery) (k : Nat) (c : Slot Channel) (axis : Channel) : Prop where
  positional : axis.isPositional = true
  on : c.is axis = true
  first : ∀ e ∈ q.encodings.take k, e.channel.is axis = false
  splits : q.mayStack = true ∧ ∃ offset, q.stackOffset = .ok (some offset)
  aggregate : q.aggregatesOn axis = true ∨
    q.aggregatesOn axis.across = true ∧ q.position? axis = none

/-! ## The stack along an axis -/

theorem accumulates_eq (q : ChartQuery) :
    q.accumulates = (q.mayStack && q.aggregatesOn .x != q.aggregatesOn .y) := rfl

/-- Nothing stacks where both axes have an aggregate or none has. -/
theorem stack?_eq_none {axis : Channel} (positional : axis.isPositional = true)
    (h : q.mayStack = false ∨ q.aggregatesOn axis = q.aggregatesOn axis.across) : q.stack? = none := by
  have hnone : q.accumulates = false := by
    rw [accumulates_eq]
    rcases h with hmay | heq
    · rw [hmay, Bool.false_and]
    · cases axis <;> first | contradiction | skip
      · rw [show q.aggregatesOn .x = q.aggregatesOn .y from heq, bne_self_eq_false, Bool.and_false]
      · rw [show q.aggregatesOn .y = q.aggregatesOn .x from heq, bne_self_eq_false, Bool.and_false]
  rw [stack?_eq, hnone]
  split <;> rfl

/-- Values accumulate along the axis that has the aggregate. -/
theorem stack?_along {axis : Channel} (positional : axis.isPositional = true) {offset : String}
    (hoffset : q.stackOffset = .ok (some offset)) (may : q.mayStack = true)
    (along : q.aggregatesOn axis = true) (across : q.aggregatesOn axis.across = false) :
    q.stack? = (q.position? axis).map fun i =>
      ⟨(q.position? axis.across).map fun _ => axis.across, axis,
        q.encodings.filterMap stackGroup?, offset, i⟩ := by
  rw [stack?_eq, hoffset]
  simp only [accumulates_eq, may, stackAxis]
  cases axis <;> first | contradiction | skip
  · have hy : q.aggregatesOn .y = false := across
    simp [along, hy, Channel.across]
  · have hx : q.aggregatesOn .x = false := across
    simp [along, hx, Channel.across]

/-! ## What a disabled count leaves alone -/

section Disabled

variable (q k c)

theorem any_withDisabledCount {P : Encoding → Bool} (hidden : P (.autoCount c (.fixed false)) = false) :
    (q.withDisabledCount k c).encodings.any P = q.encodings.any P := by
  rw [withDisabledCount, List.any_append, List.any_cons, hidden, Bool.false_or, ← List.any_append,
    List.take_append_drop]

theorem active_withDisabledCount : (q.withDisabledCount k c).active = q.active := by
  have hgone : Encoding.isDisabledAutoCount (.autoCount c (.fixed false)) = true := rfl
  rw [active, active, withDisabledCount, List.filter_append, List.filter_cons_of_neg (by simp [hgone]),
    ← List.filter_append, List.take_append_drop]

theorem isAggregate_withDisabledCount :
    (q.withDisabledCount k c).isAggregate = q.isAggregate :=
  any_withDisabledCount q k c rfl

theorem stackGroups_withDisabledCount :
    (q.withDisabledCount k c).encodings.filterMap stackGroup? = q.encodings.filterMap stackGroup? := by
  have hgone : stackGroup? (.autoCount c (.fixed false)) = none := rfl
  rw [withDisabledCount, List.filterMap_append, List.filterMap_cons_none hgone, ← List.filterMap_append,
    List.take_append_drop]

theorem mayStack_withDisabledCount : (q.withDisabledCount k c).mayStack = q.mayStack := by
  have hgroups := any_withDisabledCount q k c
    (P := fun e => (stackGroup? e).isSome) rfl
  simp only [mayStack, isAggregate_withDisabledCount, hgroups]
  rfl

theorem toChart?_withDisabledCount (defaults : Json.Members) :
    (q.withDisabledCount k c).toChart? defaults = q.toChart? defaults := by
  simp only [toChart?, active_withDisabledCount]
  rfl

end Disabled

/-! ## The first encoding on an axis -/

/-- The first encoding on a channel, one half of the encodings before the other. -/
theorem position?_halves (q : ChartQuery) (k : Nat) (a : Channel) : q.position? a =
    ((q.encodings.take k).findIdx? (·.channel.is a)).or
      (((q.encodings.drop k).findIdx? (·.channel.is a)).map (· + (q.encodings.take k).length)) := by
  rw [position?, ← List.findIdx?_append, List.take_append_drop]

theorem position?_withDisabledCount (q : ChartQuery) (k : Nat) (c : Slot Channel) (a : Channel) :
    (q.withDisabledCount k c).position? a =
      ((q.encodings.take k).findIdx? (·.channel.is a)).or
        (if c.is a = true then some (q.encodings.take k).length
        else (((q.encodings.drop k).findIdx? (·.channel.is a)).map (· + 1)).map
          (· + (q.encodings.take k).length)) := by
  rw [position?, withDisabledCount, List.findIdx?_append, List.findIdx?_cons]
  congr 1
  change (if c.is a = true then some 0 else _).map _ = _
  by_cases hon : c.is a = true
  · rw [if_pos hon, if_pos hon, Option.map_some, Nat.zero_add]
  · rw [if_neg hon, if_neg hon]

/-- What comes before a position keeps its number, what comes from there on gets the next one. -/
theorem position?_withDisabledCount_of_behind {a : Channel}
    (h : c.is a = true → ∃ e ∈ q.encodings.take k, e.channel.is a = true) :
    (q.withDisabledCount k c).position? a = (q.position? a).map (Stack.shiftIndex k) := by
  rw [position?_withDisabledCount, position?_halves q k]
  cases hbefore : (q.encodings.take k).findIdx? (·.channel.is a) with
  | some i =>
    have hlt : i < k := by
      have hi := (List.findIdx?_eq_some_iff_getElem.mp hbefore).1
      rw [List.length_take] at hi
      omega
    rw [Option.some_or, Option.some_or, Option.map_some, Stack.shiftIndex, if_pos hlt]
  | none =>
    have hoff : ¬c.is a = true := by
      intro hon
      obtain ⟨e, he, hea⟩ := h hon
      rw [List.findIdx?_eq_none_iff.mp hbefore e he] at hea
      contradiction
    rw [if_neg hoff, Option.none_or, Option.none_or, Option.map_map]
    cases hafter : (q.encodings.drop k).findIdx? (·.channel.is a) with
    | none => rfl
    | some i =>
      -- An encoding is left behind the position, so as many as the position says are before it.
      have hi := (List.findIdx?_eq_some_iff_getElem.mp hafter).1
      rw [List.length_drop] at hi
      have hlen : (q.encodings.take k).length = k := by rw [List.length_take]; omega
      rw [hlen, Option.map_some, Option.map_some, Option.map_some, Stack.shiftIndex,
        if_neg (by omega)]
      simp only [Function.comp_apply, Option.some.injEq]
      omega

theorem aggregatesOn_withDisabledCount_of_behind {a : Channel}
    (h : c.is a = true → ∃ e ∈ q.encodings.take k, e.channel.is a = true) :
    (q.withDisabledCount k c).aggregatesOn a = q.aggregatesOn a := by
  have hhalves : q.encodings.find? (·.channel.is a) =
      ((q.encodings.take k).find? (·.channel.is a)).or
        ((q.encodings.drop k).find? (·.channel.is a)) := by
    rw [← List.find?_append, List.take_append_drop]
  rw [aggregatesOn, aggregatesOn, withDisabledCount, List.find?_append, hhalves]
  cases hbefore : (q.encodings.take k).find? (·.channel.is a) with
  | some e => rfl
  | none =>
    have hoff : ¬Slot.is (Encoding.channel (.autoCount c (.fixed false))) a = true := by
      intro hon
      obtain ⟨e, he, hea⟩ := h hon
      exact List.find?_eq_none.mp hbefore e he hea
    rw [Option.none_or, Option.none_or,
      List.find?_cons_of_neg (p := fun e : Encoding => e.channel.is a) hoff]

/-- A count of rows that comes first on an axis hides what was first there. -/
theorem position?_withDisabledCount_of_first {a : Channel} (on : c.is a = true)
    (first : ∀ e ∈ q.encodings.take k, e.channel.is a = false) :
    (q.withDisabledCount k c).position? a = some (q.encodings.take k).length := by
  rw [position?_withDisabledCount, List.findIdx?_eq_none_iff.mpr first, if_pos on, Option.none_or]

theorem aggregatesOn_withDisabledCount_of_first {a : Channel} (on : c.is a = true)
    (first : ∀ e ∈ q.encodings.take k, e.channel.is a = false) :
    (q.withDisabledCount k c).aggregatesOn a = false := by
  have hnone : (q.encodings.take k).find? (·.channel.is a) = none :=
    List.find?_eq_none.mpr fun e he => Bool.eq_false_iff.mp (first e he)
  have hon : (Encoding.autoCount c (.fixed false)).channel.is a = true := on
  rw [aggregatesOn, withDisabledCount, List.find?_append, hnone, Option.none_or,
    List.find?_cons_of_pos (p := fun e : Encoding => e.channel.is a) hon]
  rfl

/-! ## The stack -/

/-- A fixed channel is one channel. -/
theorem is_across_eq_false {a : Channel} (positional : a.isPositional = true) (on : c.is a = true) :
    c.is a.across = false := by
  obtain rfl : c = .fixed a := by
    cases c with
    | fixed v => rw [beq_iff_eq.mp on]
    | wild w => contradiction
  cases a <;> first | contradiction | rfl

/-- A count of rows that comes first on no axis leaves the stack as it is. -/
theorem stack?_withDisabledCount_of_behind
    (h : ∀ a : Channel, a.isPositional = true → c.is a = true →
      ∃ e ∈ q.encodings.take k, e.channel.is a = true) :
    (q.withDisabledCount k c).stack? = q.stack?.map (Stack.shiftedAt k) := by
  have hoffset : (q.withDisabledCount k c).stackOffset = q.stackOffset := rfl
  have hon (a : Channel) (positional : a.isPositional = true) :
      (q.withDisabledCount k c).aggregatesOn a = q.aggregatesOn a :=
    aggregatesOn_withDisabledCount_of_behind (h a positional)
  have hat (a : Channel) (positional : a.isPositional = true) :
      (q.withDisabledCount k c).position? a = (q.position? a).map (Stack.shiftIndex k) :=
    position?_withDisabledCount_of_behind (h a positional)
  have hthere {a : Channel} (positional : a.isPositional = true) :
      ((q.position? a).map (Stack.shiftIndex k)).map (fun _ => a) = (q.position? a).map fun _ => a := by
    rw [Option.map_map]
    rfl
  have haxis : (q.withDisabledCount k c).stackAxis = q.stackAxis := by
    rw [stackAxis, stackAxis, hon .x rfl]
  rw [stack?_eq, stack?_eq, hoffset, accumulates_eq, accumulates_eq, mayStack_withDisabledCount,
    hon .x rfl, hon .y rfl, haxis, hat _ q.isPositional_stackAxis, hat .x rfl, hat .y rfl,
    hthere (a := .x) rfl, hthere (a := .y) rfl, stackGroups_withDisabledCount]
  split
  · split
    · rw [Option.map_map, Option.map_map]
      rfl
    · rfl
  · rfl

theorem splits_of_stack? {s : Stack} (h : q.stack? = some s) :
    q.mayStack = true ∧ ∃ offset, q.stackOffset = .ok (some offset) := by
  have haccumulates := (accumulates_of_stack? h).1
  rw [accumulates_eq, Bool.and_eq_true] at haccumulates
  exact ⟨haccumulates.1, s.offset, (stack?_eq_some h).1⟩

/-- A query that could not stack still cannot. -/
theorem stack?_eq_none_of_not_splits
    (h : ¬(q.mayStack = true ∧ ∃ offset, q.stackOffset = .ok (some offset))) :
    q.stack? = none ∧ (q.withDisabledCount k c).stack? = none := by
  refine ⟨Option.eq_none_iff_forall_ne_some.mpr fun s hs => h (splits_of_stack? hs),
    Option.eq_none_iff_forall_ne_some.mpr fun s hs => h ?_⟩
  have hsplits := splits_of_stack? hs
  rwa [mayStack_withDisabledCount] at hsplits

section First

variable {a : Channel} (positional : a.isPositional = true) (on : c.is a = true)
  (first : ∀ e ∈ q.encodings.take k, e.channel.is a = false)
include positional on

theorem behind_across : c.is a.across = true → ∃ e ∈ q.encodings.take k, e.channel.is a.across = true := by
  intro hon
  rw [is_across_eq_false positional on] at hon
  contradiction

include first

/-- Where the axis has no aggregate, a stack across it goes on, and is now grouped by that axis. -/
theorem stack?_withDisabledCount_of_free (free : q.aggregatesOn a = false) :
    (q.withDisabledCount k c).stack? =
      q.stack?.map fun s => { s.shiftedAt k with groupbyChannel := some a } := by
  have hfirst := aggregatesOn_withDisabledCount_of_first on first
  have hacross := aggregatesOn_withDisabledCount_of_behind (behind_across (q := q) (k := k) positional on)
  have hback : a.across.isPositional = true ∧ a.across.across = a := by
    cases a <;> first | contradiction | exact ⟨rfl, rfl⟩
  by_cases hsplits : q.mayStack = true ∧ ∃ offset, q.stackOffset = .ok (some offset)
  · obtain ⟨may, offset, hoffset⟩ := hsplits
    cases hag : q.aggregatesOn a.across with
    | false =>
      rw [stack?_eq_none positional (.inr (free.trans hag.symm)),
        stack?_eq_none positional (.inr (hfirst.trans (hacross.trans hag).symm))]
      rfl
    | true =>
      rw [stack?_along hback.1 hoffset may hag (hback.2.symm ▸ free),
        stack?_along (q := q.withDisabledCount k c) hback.1 hoffset
          ((mayStack_withDisabledCount q k c).trans may) (hacross.trans hag) (hback.2.symm ▸ hfirst),
        hback.2, position?_withDisabledCount_of_first on first,
        position?_withDisabledCount_of_behind (behind_across positional on),
        stackGroups_withDisabledCount, Option.map_map, Option.map_map]
      rfl
  · obtain ⟨hnone, hnone'⟩ := stack?_eq_none_of_not_splits (k := k) (c := c) hsplits
    rw [hnone, hnone']
    rfl

theorem stack?_withDisabledCount_iff_of_first :
    (q.withDisabledCount k c).stack? = q.stack?.map (Stack.shiftedAt k) ↔
      ¬∃ axis, q.Displaces k c axis := by
  have hdisplaces : (∃ axis, q.Displaces k c axis) ↔
      (q.mayStack = true ∧ ∃ offset, q.stackOffset = .ok (some offset)) ∧
        (q.aggregatesOn a = true ∨ q.aggregatesOn a.across = true ∧ q.position? a = none) := by
    refine ⟨?_, fun h => ⟨a, positional, on, first, h.1, h.2⟩⟩
    rintro ⟨axis, h⟩
    obtain rfl : axis = a := Option.some.inj ((Slot.is_iff.mp h.on).symm.trans (Slot.is_iff.mp on))
    exact ⟨h.splits, h.aggregate⟩
  rw [hdisplaces]
  by_cases hsplits : q.mayStack = true ∧ ∃ offset, q.stackOffset = .ok (some offset)
  · obtain ⟨may, offset, hoffset⟩ := hsplits
    cases hag : q.aggregatesOn a <;> cases hac : q.aggregatesOn a.across
    · rw [stack?_withDisabledCount_of_free positional on first hag,
        stack?_eq_none positional (.inr (hag.trans hac.symm))]
      simp
    · have hback : a.across.isPositional = true ∧ a.across.across = a := by
        cases a <;> first | contradiction | exact ⟨rfl, rfl⟩
      obtain ⟨i, hi⟩ := Option.isSome_iff_exists.mp (position?_isSome_of_aggregatesOn hac)
      rw [stack?_withDisabledCount_of_free positional on first hag,
        stack?_along hback.1 hoffset may hac (hback.2.symm ▸ hag), hback.2, hi]
      cases q.position? a <;> simp [Stack.shiftedAt, may, hoffset]
    all_goals
      -- The aggregate is hidden: what stacked does not any more, and what did not does across.
      have hfirst := aggregatesOn_withDisabledCount_of_first on first
      have hacross :=
        aggregatesOn_withDisabledCount_of_behind (behind_across (q := q) (k := k) positional on)
    · obtain ⟨i, hi⟩ := Option.isSome_iff_exists.mp (position?_isSome_of_aggregatesOn hag)
      rw [stack?_along positional hoffset may hag hac, hi,
        stack?_eq_none positional (.inr (hfirst.trans (hacross.trans hac).symm))]
      simp [may, hoffset]
    · have hback : a.across.isPositional = true ∧ a.across.across = a := by
        cases a <;> first | contradiction | exact ⟨rfl, rfl⟩
      obtain ⟨i, hi⟩ := Option.isSome_iff_exists.mp (position?_isSome_of_aggregatesOn hac)
      rw [stack?_eq_none (q := q) positional (.inr (hag.trans hac.symm)),
        stack?_along (q := q.withDisabledCount k c) hback.1 hoffset
          ((mayStack_withDisabledCount q k c).trans may) (hacross.trans hac) (hback.2.symm ▸ hfirst),
        position?_withDisabledCount_of_behind (behind_across positional on), hi]
      simp [may, hoffset]
  · obtain ⟨hnone, hnone'⟩ := stack?_eq_none_of_not_splits (k := k) (c := c) hsplits
    rw [hnone, hnone']
    exact iff_of_true rfl fun h => hsplits h.1

end First

/-- The stack stays what it was, the number of its encoding moved on, exactly if the count of rows
displaces nothing. -/
theorem stack?_withDisabledCount_iff (q : ChartQuery) (k : Nat) (c : Slot Channel) :
    (q.withDisabledCount k c).stack? = q.stack?.map (Stack.shiftedAt k) ↔
      ¬∃ axis, q.Displaces k c axis := by
  by_cases hbehind : ∀ a : Channel, a.isPositional = true → c.is a = true →
      ∃ e ∈ q.encodings.take k, e.channel.is a = true
  · refine iff_of_true (stack?_withDisabledCount_of_behind hbehind) ?_
    rintro ⟨a, hdisplaces⟩
    obtain ⟨e, he, hea⟩ := hbehind a hdisplaces.positional hdisplaces.on
    rw [hdisplaces.first e he] at hea
    contradiction
  · push Not at hbehind
    obtain ⟨a, positional, on, hfirst⟩ := hbehind
    exact stack?_withDisabledCount_iff_of_first positional on
      fun e he => Bool.eq_false_iff.mpr (hfirst e he)

/-- What is written of the stack stays unless the aggregate along which it runs is displaced. -/
theorem written_withDisabledCount
    (h : ¬∃ axis, q.Displaces k c axis ∧ q.aggregatesOn axis = true) :
    (q.withDisabledCount k c).stack?.map Stack.written =
      (q.stack?.map (Stack.shiftedAt k)).map Stack.written := by
  by_cases hdisplaced : ∃ axis, q.Displaces k c axis
  · obtain ⟨a, ha⟩ := hdisplaced
    have free : q.aggregatesOn a = false := Bool.eq_false_iff.mpr fun hag => h ⟨a, ha, hag⟩
    rw [stack?_withDisabledCount_of_free ha.positional ha.on ha.first free, Option.map_map,
      Option.map_map]
    rfl
  · rw [(stack?_withDisabledCount_iff q k c).mpr hdisplaced]

/-! ## The shorthand -/

/-- Leaving out what plays no part, the encodings are numbered as before, those behind the position
one further. -/
theorem numbered_withDisabledCount (q : ChartQuery) (k : Nat) (c : Slot Channel) :
    (q.withDisabledCount k c).encodings.zipIdx.filter (fun p => !p.1.isDisabledAutoCount) =
      (q.encodings.zipIdx.filter fun p => !p.1.isDisabledAutoCount).map
        (Prod.map id (Stack.shiftIndex k)) := by
  have hbefore : ((q.encodings.take k).zipIdx).map (Prod.map id (Stack.shiftIndex k)) =
      (q.encodings.take k).zipIdx := by
    refine (List.map_congr_left fun p hp => ?_).trans (List.map_id _)
    obtain ⟨-, hlt, -⟩ := List.mem_zipIdx hp
    rw [List.length_take] at hlt
    exact Prod.ext rfl (if_pos (by omega))
  have hbehind : ((q.encodings.drop k).zipIdx (q.encodings.take k).length).map
      (Prod.map id (Stack.shiftIndex k)) =
        (q.encodings.drop k).zipIdx ((q.encodings.take k).length + 1) := by
    rw [List.zipIdx_succ]
    refine List.map_congr_left fun p hp => ?_
    obtain ⟨hle, hlt, -⟩ := List.mem_zipIdx hp
    rw [List.length_take] at hle hlt
    rw [List.length_drop] at hlt
    exact Prod.ext rfl (if_neg (by omega))
  have hgone : Encoding.isDisabledAutoCount (.autoCount c (.fixed false)) = true := rfl
  calc
    _ = ((q.encodings.take k).zipIdx ++
          (.autoCount c (.fixed false), (q.encodings.take k).length) ::
            (q.encodings.drop k).zipIdx ((q.encodings.take k).length + 1)).filter
          fun p => !p.1.isDisabledAutoCount := by
      rw [withDisabledCount, List.zipIdx_append, List.zipIdx_cons, Nat.zero_add]
    _ = (((q.encodings.take k).zipIdx ++ (q.encodings.drop k).zipIdx
          (q.encodings.take k).length).map (Prod.map id (Stack.shiftIndex k))).filter
          fun p => !p.1.isDisabledAutoCount := by
      rw [List.map_append, hbefore, hbehind, List.filter_append, List.filter_append,
        List.filter_cons_of_neg (by simp [hgone])]
    _ = (q.encodings.zipIdx.map (Prod.map id (Stack.shiftIndex k))).filter
          fun p => !p.1.isDisabledAutoCount := by
      rw [← Nat.zero_add (q.encodings.take k).length, ← List.zipIdx_append, List.take_append_drop]
    _ = _ := List.filter_map

/-- The encodings are written alike where the offset is written at the same one of them. -/
theorem encodings_withDisabledCount {incl : Include} (repl : Replacers)
    (h : (if incl .stack then (q.withDisabledCount k c).stack? else none).map Stack.written =
      ((if incl .stack then q.stack? else none).map (Stack.shiftedAt k)).map Stack.written) :
    Shorthand.encodings incl repl (q.withDisabledCount k c) = Shorthand.encodings incl repl q := by
  have hwritten (stack : Option Stack) (i : Nat) :
      (stack.filter (·.fieldIndex == i)).map Stack.offset =
        ((stack.map Stack.written).filter (·.1 == i)).map Prod.snd := by
    cases stack with
    | none => rfl
    | some s =>
      rw [Option.map_some, Option.filter_some, Option.filter_some]
      change _ = Option.map Prod.snd (if (s.fieldIndex == i) = true then some s.written else none)
      cases s.fieldIndex == i <;> rfl
  have hshifted (stack : Option Stack) (i : Nat) :
      ((stack.map (Stack.shiftedAt k)).filter (·.fieldIndex == Stack.shiftIndex k i)).map Stack.offset =
        (stack.filter (·.fieldIndex == i)).map Stack.offset := by
    cases stack with
    | none => rfl
    | some s =>
      have hindex : (Stack.shiftIndex k s.fieldIndex == Stack.shiftIndex k i) = (s.fieldIndex == i) := by
        rw [Bool.eq_iff_iff, beq_iff_eq, beq_iff_eq, (Stack.shiftIndex_injective k).eq_iff]
      rw [Option.map_some, Option.filter_some, Option.filter_some]
      simp only [Stack.shiftedAt, hindex]
      cases s.fieldIndex == i <;> rfl
  unfold Shorthand.encodings
  rw [numbered_withDisabledCount, List.map_map]
  refine List.map_congr_left fun p _ => congrArg (Shorthand.encodingWith incl repl p.1) ?_
  change ((if incl .stack then (q.withDisabledCount k c).stack? else none).filter
    (·.fieldIndex == Stack.shiftIndex k p.2)).map Stack.offset = _
  rw [hwritten, h, ← hwritten, hshifted]

theorem shorthand_withDisabledCount {incl : Include} (repl : Replacers)
    (h : incl .stack = true → ¬∃ axis, q.Displaces k c axis ∧ q.aggregatesOn axis = true) :
    Shorthand.query incl repl (q.withDisabledCount k c) = Shorthand.query incl repl q := by
  refine Shorthand.query_congr rfl rfl (.of_eq (encodings_withDisabledCount repl ?_))
  cases hincl : incl .stack with
  | false => rfl
  | true => exact written_withDisabledCount (h hincl)

end ChartQuery

/-! ## The counter -/

/-- Filling leaves an encoding on its channel, whatever its number. -/
theorem Encoding.countedChannel?_fill (f : Filling) (e : Encoding) :
    (e.fill f).1.countedChannel? = e.countedChannel? := by
  have hvalue {α : Type} [Choosable α] (p : Property) (s : Slot α) : (f.slot p s).1.value? = s.value? := by
    cases s <;> rfl
  cases e with
  | field q => exact hvalue .channel q.channel
  | value c v => exact hvalue .channel c
  | autoCount c b =>
    have hswitch : (f.slot .autoCount b).1.is false = b.is false := by cases b <;> rfl
    change (if (f.slot .autoCount b).1.is false then none else (f.slot .channel c).1.value?) = _
    rw [hswitch, hvalue]
    rfl

namespace Draft

/-- A built draft counts the encodings of its query: an added count of rows is on no channel yet. -/
theorem IsBuilt.occupancy_eq {q : ChartQuery} {schema : Schema} {config : Config} {d : Draft}
    (h : IsBuilt q schema config d) (c : Channel) :
    occupancy d.query.encodings c = occupancy q.encodings c := by
  have hfilled : ((q.encodings.zipIdx.map fun x =>
      x.1.fill { index := x.2, schema, config }).map Prod.fst).filterMap Encoding.countedChannel? =
        q.encodings.filterMap Encoding.countedChannel? := by
    have hnumbered : q.encodings.zipIdx.map Prod.fst = q.encodings := List.zipIdx_map_fst 0 q.encodings
    rw [List.map_map, List.filterMap_map]
    conv_rhs => rw [← hnumbered, List.filterMap_map]
    exact List.filterMap_congr fun p _ => Encoding.countedChannel?_fill _ p.1
  rw [h.query_eq, h.origin_eq, occupancy_eq_count, occupancy_eq_count, fillEncodings_eq, List.map_append,
    List.filterMap_append, hfilled, List.count_append]
  split <;> rfl

theorem IsBuilt.channelUsed_eq {q : ChartQuery} {schema : Schema} {config : Config} {d : Draft}
    (h : IsBuilt q schema config d) (c : Channel) :
    d.channelUsed c = decide (0 < occupancy q.encodings c) := by
  rw [channelUsed, h.coherent.counts, h.occupancy_eq]

end Draft

namespace ChartQuery

theorem occupancy_withDisabledCount (q : ChartQuery) (k : Nat) (c : Slot Channel) (a : Channel) :
    occupancy (q.withDisabledCount k c).encodings a = occupancy q.encodings a := by
  have hgone : Encoding.countedChannel? (.autoCount c (.fixed false)) = none := rfl
  rw [occupancy_eq_count, occupancy_eq_count, withDisabledCount, List.filterMap_append,
    List.filterMap_cons_none hgone, ← List.filterMap_append, List.take_append_drop]

/-- A count of rows that is switched off, put in anywhere and on any channel, leaves the chart,
whether there is an aggregate and which channels are used as they are. It leaves the stack as it is,
but for the number of its encoding, exactly if it displaces nothing. A shorthand stays too, unless it
tells of the stack and the count of rows displaces an aggregate. -/
theorem disabledCount_leaves_no_trace (q : ChartQuery) (k : Nat) (c : Slot Channel) :
    (∀ defaults, (q.withDisabledCount k c).toChart? defaults = q.toChart? defaults) ∧
    (q.withDisabledCount k c).isAggregate = q.isAggregate ∧
    (∀ schema config d d', Draft.build q schema config = .ok d →
      Draft.build (q.withDisabledCount k c) schema config = .ok d' →
        ∀ a, d'.channelUsed a = d.channelUsed a) ∧
    ((q.withDisabledCount k c).stack? = q.stack?.map (Stack.shiftedAt k) ↔
      ¬∃ axis, q.Displaces k c axis) ∧
    ∀ incl : Include, ∀ repl,
      (incl .stack = true → ¬∃ axis, q.Displaces k c axis ∧ q.aggregatesOn axis = true) →
        Shorthand.query incl repl (q.withDisabledCount k c) = Shorthand.query incl repl q := by
  refine ⟨q.toChart?_withDisabledCount k c, q.isAggregate_withDisabledCount k c, ?_,
    q.stack?_withDisabledCount_iff k c, fun incl repl h => shorthand_withDisabledCount repl h⟩
  intro schema config d d' hd hd' a
  rw [(Draft.isBuilt_of_build hd).channelUsed_eq, (Draft.isBuilt_of_build hd').channelUsed_eq,
    occupancy_withDisabledCount]

/-- Bars of a sum, split by a colour. -/
def colouredSums : ChartQuery where
  mark := .fixed .bar
  encodings := [
    .field { channel := .fixed .color, field := .fixed "O", type := .fixed .nominal },
    .field { channel := .fixed .x, aggregate := .fixed (some .sum), field := .fixed "Q"
             type := .fixed .quantitative },
    .field { channel := .fixed .y, field := .fixed "N", type := .fixed .nominal }]

/-- Behind the sum on its axis, a count of rows that is switched off displaces nothing. -/
theorem disabledCount_leaves_no_trace_behindSum :
    (¬∃ axis, colouredSums.Displaces 2 (.fixed .x) axis) ∧
      (colouredSums.withDisabledCount 2 (.fixed .x)).shorthand = colouredSums.shorthand := by
  have hdisplaces : ¬∃ axis, colouredSums.Displaces 2 (.fixed .x) axis := by
    rintro ⟨axis, h⟩
    obtain rfl : Channel.x = axis := beq_iff_eq.mp h.on
    exact absurd (h.first _ (List.mem_of_getElem? (i := 1) rfl)) (by decide)
  obtain ⟨-, -, -, -, hshorthand⟩ := disabledCount_leaves_no_trace colouredSums 2 (.fixed .x)
  exact ⟨hdisplaces, hshorthand Include.all [] fun _ ⟨axis, h, _⟩ => hdisplaces ⟨axis, h⟩⟩

/-- Before the sum on its axis, a count of rows that is switched off hides the stack, and its offset
is not written any more. -/
theorem disabledCount_hides_stack :
    (colouredSums.stack? = some ⟨some .y, .x, [.color], "zero", 1⟩ ∧
      (colouredSums.withDisabledCount 1 (.fixed .x)).stack? = none) ∧
    ¬∀ (q : ChartQuery) (k : Nat) (c : Slot Channel) (incl : Include) (repl : Replacers),
      Shorthand.query incl repl (q.withDisabledCount k c) = Shorthand.query incl repl q := by
  refine ⟨⟨by decide, by decide⟩, fun h => ?_⟩
  have hwritten := h colouredSums 1 (.fixed .x) Include.all []
  change (colouredSums.withDisabledCount 1 (.fixed .x)).shorthand = colouredSums.shorthand at hwritten
  rw [shorthand_of_sorted (m := .bar) rfl rfl (by decide +kernel) (by decide +kernel),
    shorthand_of_sorted (m := .bar) rfl rfl (by decide +kernel) (by decide +kernel)] at hwritten
  exact absurd hwritten (by decide +kernel)

end ChartQuery
end ChartAdvisor
