import Mathlib.Data.List.FinRange
import Mathlib.Logic.Equiv.Fin.Rotate
import ChartAdvisor.Proofs.Query.Charts
import ChartAdvisor.Proofs.Query.DisabledCounts

/-!
# Encodings in another order

Where no two encodings share a fixed channel, their order does not show. The shorthand sorts its texts,
and a chart sorts its definitions. A stack is looked for on the axes, each of which has one encoding at
most; so it is told alike, its groups in another order, and the number of its encoding moves along with
the encoding.
-/
namespace ChartAdvisor

/-! ## Definitions -/

theorem Channel.index_injective : Function.Injective (Vocabulary.index : Channel → Nat) := by
  intro c c' h
  cases c <;> cases c' <;> first | rfl | exact absurd h (by decide)

section Put

variable {c c' : Channel} {d d' : Json.Members} {rest : List (Channel × Json.Members)}

theorem putDefinition_before (h : Vocabulary.index c < Vocabulary.index c') :
    putDefinition c d ((c', d') :: rest) = (c, d) :: (c', d') :: rest := by
  have hne : c ≠ c' := fun heq => absurd h (heq ▸ Nat.lt_irrefl _)
  rw [putDefinition, if_neg hne, if_pos h]

theorem putDefinition_behind (h : Vocabulary.index c' < Vocabulary.index c) :
    putDefinition c d ((c', d') :: rest) = (c', d') :: putDefinition c d rest := by
  have hne : c ≠ c' := fun heq => absurd h (heq ▸ Nat.lt_irrefl _)
  rw [putDefinition, if_neg hne, if_neg h.not_gt]

theorem putDefinition_same : putDefinition c d ((c, d') :: rest) = (c, d) :: rest := if_pos rfl

end Put

/-- Definitions on different channels may be put in either order. -/
theorem putDefinition_comm_of_lt {c c' : Channel} (h : Vocabulary.index c < Vocabulary.index c')
    (d d' : Json.Members) (found : List (Channel × Json.Members)) :
    putDefinition c d (putDefinition c' d' found) = putDefinition c' d' (putDefinition c d found) := by
  induction found with
  | nil =>
    change putDefinition c d [(c', d')] = putDefinition c' d' [(c, d)]
    rw [putDefinition_before h, putDefinition_behind h]
    rfl
  | cons x rest ih =>
    obtain ⟨k, v⟩ := x
    rcases Nat.lt_trichotomy (Vocabulary.index c) (Vocabulary.index k) with hlt | heq | hgt
    · rw [putDefinition_before hlt, putDefinition_behind h]
      rcases Nat.lt_trichotomy (Vocabulary.index c') (Vocabulary.index k) with hlt' | heq' | hgt'
      · rw [putDefinition_before hlt', putDefinition_before h]
      · obtain rfl := Channel.index_injective heq'
        rw [putDefinition_same, putDefinition_before h]
      · rw [putDefinition_behind hgt', putDefinition_before hlt]
    · obtain rfl := Channel.index_injective heq
      rw [putDefinition_same, putDefinition_behind h, putDefinition_same, putDefinition_behind h]
    · rw [putDefinition_behind hgt, putDefinition_behind (hgt.trans h), putDefinition_behind hgt,
        putDefinition_behind (hgt.trans h), ih]

theorem putDefinition_comm {c c' : Channel} (hne : c ≠ c') (d d' : Json.Members)
    (found : List (Channel × Json.Members)) :
    putDefinition c d (putDefinition c' d' found) = putDefinition c' d' (putDefinition c d found) := by
  have hindex : Vocabulary.index c ≠ Vocabulary.index c' :=
    fun h => hne (Channel.index_injective h)
  rcases Nat.lt_or_gt_of_ne hindex with hlt | hgt
  · exact putDefinition_comm_of_lt hlt d d' found
  · exact (putDefinition_comm_of_lt hgt d' d found).symm

namespace ChartQuery

theorem definitions?_cons (e : Encoding) (rest : List Encoding) (found : List (Channel × Json.Members)) :
    definitions? (e :: rest) found =
      e.channel?.bind fun c => (e.definition? c).bind fun d => definitions? rest (putDefinition c d found) :=
  rfl

/-- On channels of their own, encodings make the same definitions in any order. -/
theorem definitions?_congr {es es' : List Encoding} (h : es.Perm es')
    (apart : (es.filterMap Encoding.channel?).Nodup) (found : List (Channel × Json.Members)) :
    definitions? es found = definitions? es' found := by
  induction h generalizing found with
  | nil => rfl
  | @cons e es es' _ ih =>
    have hrest : (es.filterMap Encoding.channel?).Nodup :=
      List.Nodup.sublist ((List.sublist_cons_self e es).filterMap _) apart
    simp only [definitions?_cons, ih hrest]
  | swap e e' es =>
    simp only [definitions?_cons]
    cases hc : e.channel? with
    | none => cases e'.channel? <;> simp
    | some c =>
      cases hc' : e'.channel? with
      | none => simp
      | some c' =>
        have hne : c' ≠ c := by
          rw [List.filterMap_cons_some hc', List.filterMap_cons_some hc] at apart
          exact fun heq => (List.nodup_cons.mp apart).1 (heq ▸ List.mem_cons_self)
        simp only [Option.bind_some]
        cases e.definition? c <;> cases e'.definition? c' <;>
          simp only [Option.bind_some, Option.bind_none, putDefinition_comm hne]
  | trans hfirst _ ih ih' =>
    exact (ih apart found).trans (ih' ((hfirst.filterMap _).nodup_iff.mp apart) found)

end ChartQuery

/-! ## Stacks -/

/-- A stack of a query and the one of the query in another order: the groups come in another order, and
the number of the encoding follows it. -/
structure Stack.IsReordered {n : Nat} (σ : Equiv.Perm (Fin n)) (before after : Stack) : Prop where
  groupbyChannel : after.groupbyChannel = before.groupbyChannel
  fieldChannel : after.fieldChannel = before.fieldChannel
  stackBy : after.stackBy.Perm before.stackBy
  offset : after.offset = before.offset
  fieldIndex : ∃ i : Fin n, after.fieldIndex = i ∧ before.fieldIndex = σ i

namespace ChartQuery

variable {q : ChartQuery}

/-- The query with its encodings in another order: the permutation tells from where each of them comes. -/
def reordered (q : ChartQuery) (σ : Equiv.Perm (Fin q.encodings.length)) : ChartQuery :=
  { q with encodings := List.ofFn fun i => q.encodings[σ i] }

section Reordered

variable (σ : Equiv.Perm (Fin q.encodings.length))

theorem perm_reordered : (q.reordered σ).encodings.Perm q.encodings := by
  have hperm := σ.ofFn_comp_perm q.encodings.get
  rwa [List.ofFn_get] at hperm

theorem getElem?_reordered (i : Fin q.encodings.length) :
    (q.reordered σ).encodings[(i : Nat)]? = some q.encodings[σ i] := by
  simp [reordered]

theorem perm_active_reordered : (q.reordered σ).active.Perm q.active := (perm_reordered σ).filter _

theorem toChart?_reordered (apart : q.ChannelsApart) (defaults : Json.Members) :
    (q.reordered σ).toChart? defaults = q.toChart? defaults := by
  have hactive : (q.active.filterMap Encoding.channel?).Nodup :=
    List.Nodup.sublist (List.filter_sublist.filterMap _) apart
  simp only [toChart?, definitions?_congr (perm_active_reordered σ).symm hactive]
  rfl

theorem axesApart_reordered (apart : q.AxesApart) : (q.reordered σ).AxesApart :=
  ((perm_reordered σ).filterMap _).nodup_iff.mpr apart

theorem aggregatesOn_reordered (apart : q.AxesApart) {c : Channel} (axis : c.isPositional = true) :
    (q.reordered σ).aggregatesOn c = q.aggregatesOn c := by
  rw [(axesApart_reordered σ apart).aggregatesOn_eq axis, apart.aggregatesOn_eq axis,
    (perm_reordered σ).any_eq]

theorem isAggregate_reordered : (q.reordered σ).isAggregate = q.isAggregate := (perm_reordered σ).any_eq

/-- The encoding on an axis is found where it comes to stand. -/
theorem position?_reordered (apart : q.AxesApart) {c : Channel} (axis : c.isPositional = true) :
    Option.Rel (fun before after => ∃ i : Fin q.encodings.length, after = (i : Nat) ∧ before = (σ i : Nat))
      (q.position? c) ((q.reordered σ).position? c) := by
  have hsome : ((q.reordered σ).position? c).isSome = (q.position? c).isSome := by
    rw [position?, position?, List.findIdx?_isSome, List.findIdx?_isSome, (perm_reordered σ).any_eq]
  cases hi : q.position? c with
  | none =>
    rw [hi, Option.isSome_none, Option.isSome_eq_false_iff, Option.isNone_iff_eq_none] at hsome
    rw [hsome]
    exact .none
  | some i =>
    rw [hi] at hsome
    obtain ⟨j, hj⟩ := Option.isSome_iff_exists.mp hsome
    obtain ⟨hjlt, hjon, -⟩ := List.findIdx?_eq_some_iff_getElem.mp hj
    obtain ⟨hilt, hion, -⟩ := List.findIdx?_eq_some_iff_getElem.mp hi
    have hlength : (q.reordered σ).encodings.length = q.encodings.length := (perm_reordered σ).length_eq
    have hmoved := getElem?_reordered σ ⟨j, hlength ▸ hjlt⟩
    rw [List.getElem?_eq_getElem hjlt, Option.some.injEq] at hmoved
    rw [hj]
    refine .some ⟨⟨j, hlength ▸ hjlt⟩, rfl, ?_⟩
    exact apart.eq_of_is axis (List.getElem?_eq_getElem hilt) (List.getElem?_eq_getElem (σ _).isLt) hion
      (hmoved ▸ hjon)

theorem accumulates_reordered (apart : q.AxesApart) : (q.reordered σ).accumulates = q.accumulates := by
  simp only [accumulates, isAggregate_reordered, (perm_reordered σ).any_eq,
    aggregatesOn_reordered σ apart (c := .x) rfl, aggregatesOn_reordered σ apart (c := .y) rfl]
  rfl

/-- What is looked for on the axes is found again. -/
theorem stack?_reordered (apart : q.AxesApart) :
    Option.Rel (Stack.IsReordered σ) q.stack? (q.reordered σ).stack? := by
  have hx := aggregatesOn_reordered σ apart (c := .x) rfl
  have hacross {c : Channel} (axis : c.isPositional = true) :
      ((q.reordered σ).position? c).map (fun _ => c) = (q.position? c).map fun _ => c := by
    have hplace := position?_reordered σ apart axis
    generalize q.position? c = before, (q.reordered σ).position? c = after at hplace
    cases hplace <;> rfl
  have haxis : (q.reordered σ).stackAxis = q.stackAxis := by simp only [stackAxis, hx]
  have hoffset : (q.reordered σ).stackOffset = q.stackOffset := rfl
  have hplace := position?_reordered σ apart q.isPositional_stackAxis
  rw [stack?_eq, stack?_eq, hoffset, accumulates_reordered σ apart, haxis, hx, hacross (c := .x) rfl,
    hacross (c := .y) rfl]
  generalize q.position? q.stackAxis = before, (q.reordered σ).position? q.stackAxis = after at hplace
  rcases q.stackOffset with _ | _ | offset
  · exact .none
  · exact .none
  · cases q.accumulates with
    | false => exact .none
    | true =>
      cases hplace with
      | none => exact .none
      | some hindex => exact .some ⟨rfl, rfl, (perm_reordered σ).filterMap _, rfl, hindex⟩

end Reordered

/-! ## The shorthand -/

theorem offsetOf?_reordered (σ : Equiv.Perm (Fin q.encodings.length)) (apart : q.AxesApart) :
    (q.reordered σ).offsetOf? = q.offsetOf? := by
  have htold : (q.reordered σ).stack?.map Stack.told = q.stack?.map Stack.told := by
    have hstack := stack?_reordered σ apart
    generalize q.stack? = before, (q.reordered σ).stack? = after at hstack
    cases hstack with
    | none => rfl
    | some h => exact congrArg some (Prod.ext h.fieldChannel h.offset)
  funext e
  rw [offsetOf?, offsetOf?, htold]

theorem shorthand_reordered (σ : Equiv.Perm (Fin q.encodings.length)) (apart : q.AxesApart) (incl : Include)
    (repl : Replacers) : Shorthand.query incl repl (q.reordered σ) = Shorthand.query incl repl q := by
  refine Shorthand.query_congr rfl rfl ?_
  cases hstack : incl .stack with
  | false =>
    rw [Shorthand.encodings_of_not_stack hstack, Shorthand.encodings_of_not_stack hstack]
    exact (perm_active_reordered σ).map _
  | true =>
    have hq : q.StacksApart := fun _ _ => apart
    have hreordered : (q.reordered σ).StacksApart := fun _ _ => axesApart_reordered σ apart
    rw [Shorthand.encodings_of_stacksApart hstack hreordered, Shorthand.encodings_of_stacksApart hstack hq,
      offsetOf?_reordered σ apart]
    exact (perm_active_reordered σ).map _

/-- Where no two encodings share a fixed channel, a query has one shorthand, whatever is included and
replaced in it, and one chart, in whatever order its encodings come. Its stack is told alike, with its
groups in another order and the number of the encoding that the permutation moves there. -/
theorem reordering_does_not_show (q : ChartQuery) (σ : Equiv.Perm (Fin q.encodings.length))
    (apart : q.ChannelsApart) :
    (∀ incl repl, Shorthand.query incl repl (q.reordered σ) = Shorthand.query incl repl q) ∧
    (∀ defaults, (q.reordered σ).toChart? defaults = q.toChart? defaults) ∧
    Option.Rel (Stack.IsReordered σ) q.stack? (q.reordered σ).stack? :=
  ⟨shorthand_reordered σ apart.axesApart, toChart?_reordered σ apart, stack?_reordered σ apart.axesApart⟩

/-- Sums on `x` and a count of rows that is switched off, all moved one place to the front: the sums
come first, and the stack moves with them. -/
theorem reordering_does_not_show_sums :
    let q := colouredSums.withDisabledCount 2 (.fixed .row)
    let r := q.reordered (finRotate 4)
    q.ChannelsApart ∧ r.shorthand = q.shorthand ∧ r.toChart? [] = q.toChart? [] ∧
      q.stack? = some ⟨some .y, .x, [.color], "zero", 1⟩ ∧
      r.stack? = some ⟨some .y, .x, [.color], "zero", 0⟩ ∧
      Option.Rel (Stack.IsReordered (finRotate 4)) q.stack? r.stack? := by
  have apart : (colouredSums.withDisabledCount 2 (.fixed .row)).ChannelsApart := by decide
  obtain ⟨hshorthand, hchart, hstack⟩ :=
    reordering_does_not_show (colouredSums.withDisabledCount 2 (.fixed .row)) (finRotate 4) apart
  exact ⟨apart, hshorthand Include.all [], hchart [], by decide, by decide, hstack⟩

end ChartQuery
end ChartAdvisor
