import Mathlib.Data.List.Sort
import Mathlib.Order.Defs.LinearOrder

/-!
# Stable sorting

What it means that a list is in order is said without a sorting algorithm: the same elements, no key above
an earlier one, and those of equal key as they stood before. There is one such list, so that inserting one
element after another finds what merging finds, ties included.
-/
namespace ChartAdvisor

/-- Merging sorts as inserting does, though several elements may be equal in the order. -/
theorem mergeSort_eq_insertionSort {α : Type} {le : α → α → Bool}
    (htrans : ∀ a b c, le a b = true → le b c = true → le a c = true)
    (htotal : ∀ a b, (le a b || le b a) = true) (l : List α) :
    l.mergeSort le = l.insertionSort fun a b => le a b = true := by
  induction l with
  | nil => rw [List.mergeSort_nil, List.insertionSort_nil]
  | cons a l ih =>
    obtain ⟨before, after, hcons, hrest, hbefore⟩ := List.mergeSort_cons htrans htotal a l
    have hsorted := List.pairwise_mergeSort htrans htotal (a :: l)
    rw [hcons] at hsorted
    have hafter : ∀ b ∈ after, le a b = true :=
      (List.pairwise_cons.mp (List.pairwise_append.mp hsorted).2.1).1
    have hpassed : ∀ b ∈ before, decide ¬le a b = true := fun b hb => by simpa using hbefore b hb
    rw [List.insertionSort_cons, ← ih, hrest, hcons, List.orderedInsert_eq_take_drop,
      List.takeWhile_append_of_pos hpassed, List.dropWhile_append_of_pos hpassed]
    cases after with
    | nil => simp
    | cons b after => simp [hafter b List.mem_cons_self]

section StableSort

variable {α κ : Type} [LinearOrder κ]

/-- A list put in descending order of a key, elements of one key left in their order. -/
structure IsStableSort (key : α → κ) (before after : List α) : Prop where
  perm : after.Perm before
  descending : after.Pairwise fun a b => key b ≤ key a
  stable : ∀ k, after.filter (key · = k) = before.filter (key · = k)

theorem isStableSort_mergeSort {key : α → κ} {le : α → α → Bool}
    (hle : ∀ a b, le a b = true ↔ key b ≤ key a) (l : List α) :
    IsStableSort key l (l.mergeSort le) := by
  have htrans (a b c : α) (hab : le a b = true) (hbc : le b c = true) : le a c = true :=
    (hle a c).mpr (((hle b c).mp hbc).trans ((hle a b).mp hab))
  have htotal (a b : α) : (le a b || le b a) = true := by
    rw [Bool.or_eq_true, hle, hle]
    exact le_total _ _
  refine ⟨List.mergeSort_perm l le, ?_, fun k => ?_⟩
  · exact (List.pairwise_mergeSort htrans htotal l).imp fun h => (hle _ _).mp h
  · -- Elements of one key may stand in any order, so that their order is kept.
    have hequal : (l.filter (key · = k)).Pairwise fun a b => le a b = true := by
      refine List.pairwise_of_forall_mem_list fun a ha b hb => (hle a b).mpr ?_
      have hka : key a = k := of_decide_eq_true (List.mem_filter.mp ha).2
      have hkb : key b = k := of_decide_eq_true (List.mem_filter.mp hb).2
      rw [hka, hkb]
    have hsub := (List.sublist_mergeSort htrans htotal hequal List.filter_sublist).filter (key · = k)
    simp only [List.filter_filter, Bool.and_self] at hsub
    exact (hsub.eq_of_length ((List.mergeSort_perm l le).filter _).length_eq.symm).symm

/-! ## There is one such list -/

theorem mem_iff_of_filter_eq {key : α → κ} {l l' : List α}
    (same : ∀ k, l.filter (key · = k) = l'.filter (key · = k)) (a : α) : a ∈ l ↔ a ∈ l' := by
  simpa using congrArg (a ∈ ·) (same (key a))

/-- Lists in descending order with the same elements of each key are the same. -/
theorem eq_of_descending {key : α → κ} {l l' : List α} (h : l.Pairwise fun a b => key b ≤ key a)
    (h' : l'.Pairwise fun a b => key b ≤ key a)
    (same : ∀ k, l.filter (key · = k) = l'.filter (key · = k)) : l = l' := by
  induction l generalizing l' with
  | nil =>
    refine (List.eq_nil_iff_forall_not_mem.mpr fun b hb => ?_).symm
    exact List.not_mem_nil ((mem_iff_of_filter_eq same b).mpr hb)
  | cons a rest ih =>
    have ha : a ∈ l' := (mem_iff_of_filter_eq same a).mp List.mem_cons_self
    cases l' with
    | nil => contradiction
    | cons b rest' =>
      have hb : b ∈ a :: rest := (mem_iff_of_filter_eq same b).mpr List.mem_cons_self
      obtain ⟨habove, hrest⟩ := List.pairwise_cons.mp h
      obtain ⟨habove', hrest'⟩ := List.pairwise_cons.mp h'
      -- Each of the two first elements is above the other one, so that they are the first of one key.
      have hkey : key a = key b := by
        refine le_antisymm ?_ ?_
        · exact (List.mem_cons.mp ha).elim (fun h => h ▸ le_rfl) (habove' a)
        · exact (List.mem_cons.mp hb).elim (fun h => h ▸ le_rfl) (habove b)
      have hfirst := same (key a)
      rw [List.filter_cons_of_pos (by simp), List.filter_cons_of_pos (by simp [hkey])] at hfirst
      obtain rfl := (List.cons.inj hfirst).1
      refine congrArg (a :: ·) (ih hrest hrest' fun k => ?_)
      have hk := same k
      by_cases ha : key a = k
      · rw [List.filter_cons_of_pos (by simp [ha]), List.filter_cons_of_pos (by simp [ha])] at hk
        exact (List.cons.inj hk).2
      · rwa [List.filter_cons_of_neg (by simp [ha]), List.filter_cons_of_neg (by simp [ha])] at hk

theorem IsStableSort.unique {key : α → κ} {before after after' : List α} (h : IsStableSort key before after)
    (h' : IsStableSort key before after') : after = after' :=
  eq_of_descending h.descending h'.descending fun k => (h.stable k).trans (h'.stable k).symm

/-- Inserting one element after another finds it. -/
theorem IsStableSort.eq_insertionSort {key : α → κ} {before after : List α}
    (h : IsStableSort key before after) : after = before.insertionSort fun a b => key b ≤ key a := by
  have hle (a b : α) : decide (key b ≤ key a) = true ↔ key b ≤ key a := decide_eq_true_iff
  have htrans (a b c : α) (hab : decide (key b ≤ key a) = true) (hbc : decide (key c ≤ key b) = true) :
      decide (key c ≤ key a) = true :=
    decide_eq_true ((of_decide_eq_true hbc).trans (of_decide_eq_true hab))
  have htotal (a b : α) : (decide (key b ≤ key a) || decide (key a ≤ key b)) = true := by
    simpa using le_total (key b) (key a)
  have hinsert := mergeSort_eq_insertionSort htrans htotal before
  simp only [decide_eq_true_eq] at hinsert
  rw [← hinsert]
  exact h.unique (isStableSort_mergeSort hle before)

/-! ## The first of the best -/

/-- An element of a list that no other exceeds, the earliest of them. -/
def IsEarliestBest (key : α → κ) (l : List α) (a : α) : Prop :=
  ∃ before after, l = before ++ a :: after ∧
    (∀ b ∈ before, key b < key a) ∧ ∀ b ∈ after, key b ≤ key a

/-- What comes first after sorting is the earliest of the best. -/
theorem IsStableSort.isEarliestBest {key : α → κ} {before rest : List α} {a : α}
    (h : IsStableSort key before (a :: rest)) : IsEarliestBest key before a := by
  have hbest (b : α) (hb : b ∈ before) : key b ≤ key a := by
    rcases List.mem_cons.mp (h.perm.mem_iff.mpr hb) with rfl | hb
    · exact le_rfl
    · exact (List.pairwise_cons.mp h.descending).1 b hb
  have hfirst := (h.stable (key a)).symm
  rw [List.filter_cons_of_pos (by simp), List.filter_eq_cons_iff] at hfirst
  obtain ⟨l₁, l₂, rfl, hnone, -, -⟩ := hfirst
  refine ⟨l₁, l₂, rfl, fun b hb => ?_, fun b hb => hbest b (by simp [hb])⟩
  exact lt_of_le_of_ne (hbest b (by simp [hb])) fun he => hnone b hb (decide_eq_true he)

theorem IsEarliestBest.unique {key : α → κ} {l : List α} {a b : α} (h : IsEarliestBest key l a)
    (h' : IsEarliestBest key l b) : a = b := by
  obtain ⟨l₁, l₂, rfl, ha, ha'⟩ := h
  obtain ⟨r₁, r₂, heq, hb, hb'⟩ := h'
  rcases List.append_eq_append_iff.mp heq with ⟨between, rfl, hr⟩ | ⟨between, rfl, hr⟩
  · cases between with
    | nil => exact (List.cons.inj hr).1
    | cons c between =>
      obtain ⟨rfl, rfl⟩ := List.cons.inj hr
      exact absurd (hb a (by simp)) (ha' b (by simp)).not_gt
  · cases between with
    | nil => exact (List.cons.inj hr).1.symm
    | cons c between =>
      obtain ⟨rfl, rfl⟩ := List.cons.inj hr
      exact absurd (ha b (by simp)) (hb' a (by simp)).not_gt

end StableSort
end ChartAdvisor
