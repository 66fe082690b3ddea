import Mathlib.Data.String.Basic
import ChartAdvisor.Proofs.Shorthand.RoundTrip
import ChartAdvisor.Proofs.Sorting

/-!
# Shorthands that are read and written again

The order of the encodings does not show in a shorthand, and a count of rows is written like the field
that it is read as. So what is read from a shorthand is written as the same text again, but for its
stack, which depends on settings that are not written.
-/
namespace ChartAdvisor
namespace Shorthand

variable {incl : Include} {repl : Replacers} {q r : ChartQuery}

theorem ascending_trans (a b c : String) (hab : (!decide (b < a)) = true) (hbc : (!decide (c < b)) = true) :
    (!decide (c < a)) = true := by
  simp only [Bool.not_eq_true', decide_eq_false_iff_not, not_lt] at *
  exact hab.trans hbc

theorem ascending_total (a b : String) : (!decide (b < a) || !decide (a < b)) = true := by
  simp only [Bool.or_eq_true, Bool.not_eq_true', decide_eq_false_iff_not, not_lt]
  exact le_total a b

/-- Texts are put in order as by inserting one after another. -/
theorem sorted_eq_insertionSort (l : List String) :
    l.mergeSort (fun a b => !decide (b < a)) = l.insertionSort fun a b => (!decide (b < a)) = true :=
  mergeSort_eq_insertionSort ascending_trans ascending_total l

/-- Texts in ascending order do not depend on the order that they were given in. -/
theorem sorted_congr {l l' : List String} (h : l.Perm l') :
    l.mergeSort (fun a b => !decide (b < a)) = l'.mergeSort (fun a b => !decide (b < a)) := by
  have hsorted (l : List String) :
      (l.mergeSort fun a b => !decide (b < a)).Pairwise fun a b => a ≤ b := by
    refine (List.pairwise_mergeSort ascending_trans ascending_total l).imp fun h => ?_
    simpa only [Bool.not_eq_true', decide_eq_false_iff_not, not_lt] using h
  exact List.Perm.eq_of_pairwise (fun _ _ _ _ => le_antisymm) (hsorted l) (hsorted l')
    (((List.mergeSort_perm l _).trans h).trans (List.mergeSort_perm l' _).symm)

/-- Queries with the same parts are written alike, in whatever order their encodings come. -/
theorem query_congr (mark : slot repl .mark Vocabulary.name q.mark = slot repl .mark Vocabulary.name r.mark)
    (transform : q.transform.getD [] = r.transform.getD [])
    (h : (encodings incl repl q).Perm (encodings incl repl r)) :
    query incl repl q = query incl repl r := by
  unfold query
  simp only [mark, sorted_congr (h.filter _)]
  rcases hq : q.transform with _ | _ | ⟨v, vs⟩ <;> rcases hr : r.transform with _ | _ | ⟨w, ws⟩ <;>
    rw [hq, hr] at transform <;> first | rfl | contradiction | (cases transform; rfl)

/-- Without stacks, an encoding is written for itself. -/
theorem encodings_of_not_stack (h : incl .stack = false) :
    encodings incl repl q = q.active.map (encoding incl repl) := by
  unfold encodings
  rw [h, ← ChartQuery.map_fst_shown, List.map_map]
  rfl

/-- Where no axis is shared, an encoding is written with the offset of what accumulates on its channel. -/
theorem encodings_of_stacksApart (h : incl .stack = true) (apart : q.StacksApart) :
    encodings incl repl q = q.active.map fun e => encodingWith incl repl e (q.offsetOf? e) := by
  unfold encodings
  rw [h, ← ChartQuery.map_fst_shown, List.map_map]
  refine List.map_congr_left fun (e, i) he => ?_
  have hi := List.mem_zipIdx_iff_getElem?.mp (List.mem_filter.mp he).1
  exact congrArg (encodingWith incl repl e) (apart.offset_eq hi)

end Shorthand

open Shorthand

/-- The texts of the encodings are written in order. -/
theorem ChartQuery.shorthand_of_perm_sorted {q : ChartQuery} {m : Mark} {texts : List String}
    (mark : q.mark = .fixed m) (transform : q.transform = none)
    (perm : (Shorthand.encodings Include.all [] q).Perm texts)
    (full : texts.filter (!·.isEmpty) = texts)
    (sorted : texts.Pairwise fun a b => !decide (b < a)) :
    q.shorthand = "|".intercalate (Vocabulary.name m :: texts) := by
  unfold ChartQuery.shorthand query
  rw [mark, transform, sorted_congr (perm.filter _), full, List.mergeSort_of_pairwise sorted]
  rfl

/-- Encodings whose texts are in order already are written in that order. -/
theorem ChartQuery.shorthand_of_sorted {q : ChartQuery} {m : Mark} (mark : q.mark = .fixed m)
    (transform : q.transform = none)
    (full : (Shorthand.encodings Include.all [] q).filter (!·.isEmpty) =
      Shorthand.encodings Include.all [] q)
    (sorted : (Shorthand.encodings Include.all [] q).Pairwise fun a b => !decide (b < a)) :
    q.shorthand = "|".intercalate (Vocabulary.name m :: Shorthand.encodings Include.all [] q) :=
  shorthand_of_perm_sorted mark transform (.refl _) full sorted

/-- A query with each encoding replaced by one that is written alike is written alike. -/
theorem ChartQuery.StacksApart.shorthand_of_perm {q r : ChartQuery} (h : q.StacksApart)
    {f : Encoding → Encoding} (like : ∀ e ∈ q.active, (f e).StacksLike e)
    (perm : r.encodings.Perm (q.active.map f)) (mark : r.mark = q.mark)
    (transform : r.transform = q.transform) (offset : r.stackOffset = q.stackOffset)
    (written : ∀ e ∈ q.active, encodingWith Include.all [] (f e) (q.offsetOf? e) =
      encodingWith Include.all [] e (q.offsetOf? e)) : r.shorthand = q.shorthand := by
  refine query_congr (by rw [mark]) (by rw [transform]) ?_
  rw [encodings_of_stacksApart rfl h, encodings_of_stacksApart rfl (h.of_perm like perm mark),
    active_of_perm like perm]
  refine (perm.map _).trans (.of_eq ?_)
  rw [List.map_map]
  refine List.map_congr_left fun e he => ?_
  rw [← written e he, Function.comp_apply, offsetOf?, offsetOf?, (like e he).channel,
    h.told_stack?_of_perm like perm mark offset]

/-! ## What is read -/

/-- All is written but perhaps the stack. -/
def Include.IsFull (incl : Include) : Prop := ∀ p, p ≠ .stack → incl p = true

/-- All but the stack. -/
def Include.withoutStack : Include := (· != .stack)

theorem Include.isFull_withoutStack : withoutStack.IsFull := fun _ hp => bne_iff_ne.mpr hp

namespace Encoding

/-- What is read plays a part. -/
theorem isDisabledAutoCount_told (e : Encoding) : e.told.isDisabledAutoCount = false := by
  cases e with
  | field | value => rfl
  | autoCount c b => cases b <;> rfl

/-- What is read is written alike, except that a field may show a stack, and a count of rows
does not. -/
theorem encodingWith_told {e : Encoding} (shown : e.isDisabledAutoCount = false) {incl : Include}
    (full : incl.IsFull) {stackOffset : Option String}
    (plain : e.isEnabledAutoCount = true → stackOffset = none) :
    encodingWith incl [] e.told stackOffset = encodingWith incl [] e stackOffset := by
  cases e with
  | field | value => rfl
  | autoCount c b =>
    obtain rfl | ⟨w, rfl⟩ := eq_true_or_wild_of_shown shown
    · obtain rfl := plain rfl
      have hfunction : function? incl [] (.countOfRows c) = some "count" := by
        unfold function?
        rw [full .aggregate (by decide)]
        rfl
      have hparameters : parameters incl (.countOfRows c) none = [] := by
        simp [parameters, FieldEncoding.countOfRows, FieldEncoding.bin?]
      have hdefinition : definition incl [] (.field (.countOfRows c)) none =
          definition incl [] (.autoCount c (.fixed true)) none := by
        simp only [definition, Shorthand.field, Shorthand.autoCount, hfunction, hparameters,
          full .field (by decide), full .type (by decide), full .aggregate (by decide)]
        rfl
      unfold encodingWith
      rw [told, hdefinition]
      rfl
    · rfl

theorem stacksLike_told {e : Encoding} (shown : e.isDisabledAutoCount = false) : e.told.StacksLike e := by
  cases e with
  | field | value => exact ⟨rfl, rfl, rfl, rfl, rfl⟩
  | autoCount c b =>
    obtain rfl | ⟨w, rfl⟩ := eq_true_or_wild_of_shown shown <;> exact ⟨rfl, rfl, rfl, rfl, rfl⟩

theorem shown_of_mem_active {q : ChartQuery} {e : Encoding} (he : e ∈ q.active) :
    e.isDisabledAutoCount = false := by
  simpa using (List.mem_filter.mp he).2

end Encoding

namespace ChartQuery

variable {q : ChartQuery}

theorem active_told (q : ChartQuery) : q.told.active = q.told.encodings := by
  refine List.filter_eq_self.mpr fun e he => ?_
  obtain ⟨p, -, rfl⟩ := List.mem_map.mp he
  rw [p.1.isDisabledAutoCount_told]
  rfl

/-- A query without its settings, which are not written. -/
def withoutSettings (q : ChartQuery) : ChartQuery := { q with config := none }

/-- Of the settings of a query only the stack shows. -/
theorem shorthand_withoutSettings (h : q.withoutSettings.stack? = q.stack?) :
    q.withoutSettings.shorthand = q.shorthand := by
  refine query_congr rfl rfl (.of_eq ?_)
  unfold Shorthand.encodings
  rw [h]
  rfl

/-- What is read is written as it was, apart from its stack. -/
theorem query_told (q : ChartQuery) {incl : Include} (full : incl.IsFull) (stack : incl .stack = false) :
    query incl [] q.told = query incl [] q := by
  refine query_congr rfl rfl ?_
  have hpoint : q.active.map (encoding incl [] ∘ Encoding.told) = q.active.map (encoding incl []) :=
    List.map_congr_left fun e he =>
      Encoding.encodingWith_told (Encoding.shown_of_mem_active he) full fun _ => rfl
  rw [encodings_of_not_stack stack, encodings_of_not_stack stack, active_told, ← hpoint,
    ← List.map_map]
  exact q.perm_told.map _

/-- What accumulates, if anything does, is no auto count. -/
def StacksField (q : ChartQuery) : Prop :=
  ∀ s ∈ q.stack?, ∀ c b, q.encodings[s.fieldIndex]? ≠ some (.autoCount c b)

/-- What accumulates, if anything does, is no auto count that is switched on: of those the offset is
not written. -/
def StacksShown (q : ChartQuery) : Prop :=
  ∀ s ∈ q.stack?, ∀ e, q.encodings[s.fieldIndex]? = some e → e.isEnabledAutoCount = false

theorem StacksField.stacksShown (h : q.StacksField) : q.StacksShown := by
  intro s hs e he
  cases e with
  | field | value => rfl
  | autoCount c b => exact absurd he (h s hs c b)

theorem StacksShown.offsetOf?_eq_none (h : q.StacksShown) (apart : q.StacksApart) {e : Encoding}
    (he : e ∈ q.encodings) (count : e.isEnabledAutoCount = true) : q.offsetOf? e = none := by
  obtain ⟨i, hi⟩ := List.mem_iff_getElem?.mp he
  rw [← apart.offset_eq hi]
  cases hs : q.stack? with
  | none => rfl
  | some s =>
    rw [Option.filter_some, if_neg fun heq => ?_]
    · rfl
    · rw [← beq_iff_eq.mp heq] at hi
      rw [h s hs e hi] at count
      contradiction

/-- What is read is written as the query would be without its settings, if no axis of a stack is shared
and what accumulates is written with its offset. -/
theorem StacksApart.shorthand_told (apart : q.StacksApart) (shown : q.withoutSettings.StacksShown) :
    q.told.shorthand = q.withoutSettings.shorthand := by
  have apart : q.withoutSettings.StacksApart := apart
  refine apart.shorthand_of_perm
    (fun e he => Encoding.stacksLike_told (Encoding.shown_of_mem_active he)) q.perm_told rfl rfl rfl
    fun e he => ?_
  exact Encoding.encodingWith_told (Encoding.shown_of_mem_active he) (fun _ _ => rfl)
    (shown.offsetOf?_eq_none apart (List.mem_filter.mp he).1)

end ChartQuery
end ChartAdvisor
