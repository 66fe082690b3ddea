import Mathlib.Data.List.Forall2
import Mathlib.Data.List.Induction

/-!
# Lists with related members, and lists without repetition

Lists of which the members are related one by one answer alike to what relates the members. A list may
also be another one of which members were left out. A list of which the repeated members are taken out
keeps the first ones.
-/
namespace ChartAdvisor

variable {α β γ : Type} {R : α → β → Prop} {as : List α} {bs : List β}

theorem any_eq_of_forall₂ (h : List.Forall₂ R as bs) {f : α → Bool} {g : β → Bool}
    (hf : ∀ a b, R a b → f a = g b) : as.any f = bs.any g := by
  induction h with
  | nil => rfl
  | cons hab _ ih => rw [List.any_cons, List.any_cons, hf _ _ hab, ih]

theorem all_eq_of_forall₂ (h : List.Forall₂ R as bs) {f : α → Bool} {g : β → Bool}
    (hf : ∀ a b, R a b → f a = g b) : as.all f = bs.all g := by
  induction h with
  | nil => rfl
  | cons hab _ ih => rw [List.all_cons, List.all_cons, hf _ _ hab, ih]

theorem filterMap_eq_of_forall₂ (h : List.Forall₂ R as bs) {f : α → Option γ} {g : β → Option γ}
    (hf : ∀ a b, R a b → f a = g b) : as.filterMap f = bs.filterMap g := by
  induction h with
  | nil => rfl
  | cons hab _ ih => rw [List.filterMap_cons, List.filterMap_cons, hf _ _ hab, ih]

theorem sublist_filterMap_of_forall₂ (h : List.Forall₂ R as bs) {f : α → Option γ} {g : β → Option γ}
    (hf : ∀ a b, R a b → ∀ x, f a = some x → g b = some x) :
    (as.filterMap f).Sublist (bs.filterMap g) := by
  induction h with
  | nil => exact .slnil
  | @cons a b _ _ hab _ ih =>
    cases ha : f a with
    | none =>
      rw [List.filterMap_cons_none ha]
      cases hb : g b with
      | none => rwa [List.filterMap_cons_none hb]
      | some y =>
        rw [List.filterMap_cons_some hb]
        exact .cons y ih
    | some x =>
      rw [List.filterMap_cons_some ha, List.filterMap_cons_some (hf a b hab x ha)]
      exact .cons_cons x ih

theorem foldl_eq_of_forall₂ (h : List.Forall₂ R as bs) {f : γ → α → γ} {g : γ → β → γ}
    (hf : ∀ c a b, R a b → f c a = g c b) (c : γ) : as.foldl f c = bs.foldl g c := by
  induction h generalizing c with
  | nil => rfl
  | cons hab _ ih => rw [List.foldl_cons, List.foldl_cons, hf c _ _ hab, ih]

theorem findIdx?_eq_of_forall₂ (h : List.Forall₂ R as bs) {f : α → Bool} {g : β → Bool}
    (hf : ∀ a b, R a b → f a = g b) : as.findIdx? f = bs.findIdx? g := by
  induction h with
  | nil => rfl
  | cons hab _ ih => rw [List.findIdx?_cons, List.findIdx?_cons, hf _ _ hab, ih]

theorem find?_rel_of_forall₂ (h : List.Forall₂ R as bs) {f : α → Bool} {g : β → Bool}
    (hf : ∀ a b, R a b → f a = g b) : Option.Rel R (as.find? f) (bs.find? g) := by
  induction h with
  | nil => exact .none
  | @cons a b _ _ hab _ ih =>
    rw [List.find?_cons, List.find?_cons, ← hf _ _ hab]
    cases f a with
    | true => exact .some hab
    | false => exact ih

theorem filter_rel_of_forall₂ (h : List.Forall₂ R as bs) {f : α → Bool} {g : β → Bool}
    (hf : ∀ a b, R a b → f a = g b) : List.Forall₂ R (as.filter f) (bs.filter g) := by
  induction h with
  | nil => exact .nil
  | @cons a b _ _ hab _ ih =>
    rw [List.filter_cons, List.filter_cons, ← hf _ _ hab]
    split
    · exact .cons hab ih
    · exact ih

theorem forall₂_imp_of_mem (h : List.Forall₂ R as bs) {S : α → β → Prop}
    (hs : ∀ a ∈ as, ∀ b, R a b → S a b) : List.Forall₂ S as bs := by
  induction h with
  | nil => exact .nil
  | @cons a b _ _ hab _ ih =>
    exact .cons (hs a (List.mem_cons_self ..) b hab)
      (ih fun x hx => hs x (List.mem_cons_of_mem _ hx))

theorem exists_of_forall₂ (h : List.Forall₂ R as bs) {a : α} (ha : a ∈ as) : ∃ b ∈ bs, R a b := by
  induction h with
  | nil => contradiction
  | cons hab _ ih =>
    rcases List.mem_cons.mp ha with rfl | ha
    · exact ⟨_, List.mem_cons_self .., hab⟩
    · obtain ⟨b, hb, hr⟩ := ih ha
      exact ⟨b, List.mem_cons_of_mem _ hb, hr⟩

theorem getElem?_rel_of_forall₂ (h : List.Forall₂ R as bs) (i : Nat) :
    Option.Rel R as[i]? bs[i]? := by
  induction h generalizing i with
  | nil => exact .none
  | cons hab _ ih =>
    cases i with
    | zero => exact .some hab
    | succ i => simpa only [List.getElem?_cons_succ] using ih i

theorem forall₂_of_getElem?_rel (h : ∀ i : Nat, Option.Rel R as[i]? bs[i]?) : List.Forall₂ R as bs := by
  induction as generalizing bs with
  | nil =>
    cases bs with
    | nil => exact .nil
    | cons b bs => exact absurd (h 0) nofun
  | cons a as ih =>
    cases bs with
    | nil => exact absurd (h 0) nofun
    | cons b bs =>
      have hzero : Option.Rel R (some a) (some b) := h 0
      cases hzero with
      | some hab => exact .cons hab (ih fun i => h (i + 1))

theorem forall₂_zipIdx (h : List.Forall₂ R as bs) (k : Nat) :
    List.Forall₂ (fun a b => R a.1 b.1 ∧ a.2 = b.2) (as.zipIdx k) (bs.zipIdx k) := by
  induction h generalizing k with
  | nil => exact .nil
  | cons hab _ ih => exact .cons ⟨hab, rfl⟩ (ih (k + 1))

theorem findSome?_rel_of_forall₂ {δ : Type} {S : γ → δ → Prop} (h : List.Forall₂ R as bs)
    {f : α → Option γ} {g : β → Option δ} (hfg : ∀ a b, R a b → Option.Rel S (f a) (g b)) :
    Option.Rel S (as.findSome? f) (bs.findSome? g) := by
  induction h with
  | nil => exact .none
  | @cons a b _ _ hab _ ih =>
    have hhead := hfg a b hab
    rw [List.findSome?_cons, List.findSome?_cons]
    generalize f a = x, g b = y at hhead
    cases hhead with
    | none => exact ih
    | some hxy => exact .some hxy

theorem any_eq_of_rel {a : Option α} {b : Option β} (h : Option.Rel R a b) {f : α → Bool}
    {g : β → Bool} (hf : ∀ a b, R a b → f a = g b) : a.any f = b.any g := by
  cases h with
  | none => rfl
  | some hab => exact hf _ _ hab

theorem forall₂_set {α : Type} {R : α → α → Prop} (hr : ∀ a, R a a) {l : List α} {i : Nat} {a b : α}
    (hi : l[i]? = some a) (hab : R a b) : List.Forall₂ R l (l.set i b) := by
  induction l generalizing i with
  | nil => contradiction
  | cons x rest ih =>
    cases i with
    | zero =>
      obtain rfl : x = a := Option.some.inj hi
      exact .cons hab (List.forall₂_same.mpr fun y _ => hr y)
    | succ i => exact .cons (hr x) (ih hi)

/-- Changing an entry that is left out, and is so still, does not show in what is left. -/
theorem filter_set_of_not {α : Type} {f : α → Bool} {l : List α} {i : Nat} {a b : α} (h : l[i]? = some a)
    (ha : f a = false) (hb : f b = false) : (l.set i b).filter f = l.filter f := by
  induction l generalizing i with
  | nil => rfl
  | cons c l ih =>
    cases i with
    | zero =>
      obtain rfl : c = a := Option.some.inj h
      simp [ha, hb]
    | succ i => rw [List.set_cons_succ, List.filter_cons, List.filter_cons, ih h]

theorem forall₂_trans {α : Type} {R : α → α → Prop} (hr : ∀ {a b c}, R a b → R b c → R a c)
    {as bs cs : List α} (h : List.Forall₂ R as bs) (h' : List.Forall₂ R bs cs) :
    List.Forall₂ R as cs := by
  induction h generalizing cs with
  | nil => cases h'; exact .nil
  | cons hab _ ih =>
    cases h' with
    | cons hbc hrest => exact .cons (hr hab hbc) (ih hrest)

theorem forall₂_of_mapM_eq_some {f : α → Option β} {l : List α} (h : l.mapM f = some bs) :
    List.Forall₂ (fun a b => f a = some b) l bs := by
  induction l generalizing bs with
  | nil =>
    obtain rfl := Option.some.inj h
    exact .nil
  | cons a l ih =>
    rw [List.mapM_cons] at h
    obtain ⟨b, hb, h⟩ := Option.bind_eq_some_iff.mp h
    obtain ⟨bs, hbs, h⟩ := Option.bind_eq_some_iff.mp h
    obtain rfl := Option.some.inj h
    exact .cons hb (ih hbs)

/-! ## Lists of which members were left out -/

/-- The members of a list are related to members of another one, in the order of both, and what else the
other one has is gone. -/
inductive Thinned {α β : Type} (R : α → β → Prop) (gone : β → Prop) : List α → List β → Prop
  | nil : Thinned R gone [] []
  | both {a : α} {b : β} {as : List α} {bs : List β} (hab : R a b) (rest : Thinned R gone as bs) :
    Thinned R gone (a :: as) (b :: bs)
  | gone {b : β} {as : List α} {bs : List β} (hb : gone b) (rest : Thinned R gone as bs) :
    Thinned R gone as (b :: bs)

namespace Thinned

variable {gone : β → Prop}

theorem of_forall_gone (h : ∀ b ∈ bs, gone b) : Thinned R gone [] bs := by
  induction bs with
  | nil => exact .nil
  | cons b bs ih =>
    obtain ⟨hb, hbs⟩ := List.forall_mem_cons.mp h
    exact .gone hb (ih hbs)

theorem append {as' : List α} {bs' : List β} (h : Thinned R gone as bs) (h' : Thinned R gone as' bs') :
    Thinned R gone (as ++ as') (bs ++ bs') := by
  induction h with
  | nil => exact h'
  | both hab _ ih => exact .both hab ih
  | gone hb _ ih => exact .gone hb ih

theorem imp_of_mem {S : α → β → Prop} {gone' : β → Prop} (h : Thinned R gone as bs)
    (hS : ∀ a ∈ as, ∀ b ∈ bs, R a b → S a b) (hgone : ∀ b ∈ bs, gone b → gone' b) :
    Thinned S gone' as bs := by
  induction h with
  | nil => exact .nil
  | both hab _ ih =>
    refine .both (hS _ (List.mem_cons_self ..) _ (List.mem_cons_self ..) hab) (ih ?_ ?_)
    · exact fun a ha b hb => hS a (List.mem_cons_of_mem _ ha) b (List.mem_cons_of_mem _ hb)
    · exact fun b hb => hgone b (List.mem_cons_of_mem _ hb)
  | gone hb _ ih =>
    refine .gone (hgone _ (List.mem_cons_self ..) hb) (ih ?_ ?_)
    · exact fun a ha b hb => hS a ha b (List.mem_cons_of_mem _ hb)
    · exact fun b hb => hgone b (List.mem_cons_of_mem _ hb)

/-- What members that are related have in common is a sublist. -/
theorem exists_right (h : Thinned R gone as bs) {a : α} (ha : a ∈ as) : ∃ b ∈ bs, R a b := by
  induction h with
  | nil => contradiction
  | both hab _ ih =>
    rcases List.mem_cons.mp ha with rfl | ha
    · exact ⟨_, List.mem_cons_self .., hab⟩
    · obtain ⟨b, hb, hr⟩ := ih ha
      exact ⟨b, List.mem_cons_of_mem _ hb, hr⟩
  | gone _ _ ih =>
    obtain ⟨b, hb, hr⟩ := ih ha
    exact ⟨b, List.mem_cons_of_mem _ hb, hr⟩

theorem map_sublist {f : α → γ} {g : β → γ} (h : Thinned R gone as bs) (hfg : ∀ a b, R a b → f a = g b) :
    (as.map f).Sublist (bs.map g) := by
  induction h with
  | nil => exact .slnil
  | both hab _ ih =>
    rw [List.map_cons, List.map_cons, hfg _ _ hab]
    exact .cons_cons _ ih
  | gone _ _ ih => exact .cons _ ih

/-- A test that tells what is gone from what is not filters the one list out of the other. -/
theorem map_eq_filter {f : α → γ} {g : β → γ} {keep : γ → Bool} (h : Thinned R gone as bs)
    (hfg : ∀ a b, R a b → f a = g b ∧ keep (g b) = true) (hgone : ∀ b, gone b → keep (g b) = false) :
    as.map f = (bs.map g).filter keep := by
  induction h with
  | nil => rfl
  | both hab _ ih =>
    obtain ⟨heq, hkeep⟩ := hfg _ _ hab
    rw [List.map_cons, List.map_cons, List.filter_cons_of_pos hkeep, heq, ih]
  | gone hb _ ih => rw [List.map_cons, List.filter_cons_of_neg (by rw [hgone _ hb]; nofun), ih]

end Thinned

/-! ## Lists without repetition -/

/-- A list without repetition of which some members are kept, told by the members. -/
theorem filter_mem_of_sublist {α : Type} [DecidableEq α] {kept all : List α} (h : kept.Sublist all)
    (nodup : all.Nodup) : all.filter (fun a => decide (a ∈ kept)) = kept := by
  induction h with
  | slnil => rfl
  | @cons kept all a h ih =>
    obtain ⟨ha, hall⟩ := List.nodup_cons.mp nodup
    have hnot : a ∉ kept := fun hmem => ha (h.subset hmem)
    rw [List.filter_cons_of_neg (by simpa using hnot), ih hall]
  | @cons_cons kept all a h ih =>
    obtain ⟨ha, hall⟩ := List.nodup_cons.mp nodup
    rw [List.filter_cons_of_pos (by simp)]
    refine congrArg (a :: ·) (Eq.trans (List.filter_congr fun b hb => ?_) (ih hall))
    have hne : b ≠ a := fun heq => ha (heq ▸ hb)
    simp [hne]

section EraseDups

variable {α : Type} [BEq α] [LawfulBEq α]

/-- One more entry adds itself if it was not there. -/
theorem eraseDups_concat (l : List α) (a : α) :
    (l ++ [a]).eraseDups = if l.contains a then l.eraseDups else l.eraseDups ++ [a] := by
  have hone : [a].eraseDups = [a] := by rw [List.eraseDups_cons]; rfl
  rw [List.eraseDups_append]
  cases h : l.contains a <;> simp_all [List.removeAll]

theorem nodup_eraseDups (l : List α) : l.eraseDups.Nodup := by
  induction l using List.reverseRecOn with
  | nil => exact .nil
  | append_singleton l a ih =>
    rw [eraseDups_concat]
    split
    · exact ih
    · next ha =>
      refine List.nodup_append.mpr ⟨ih, List.pairwise_singleton _ a, fun b hb c hc => ?_⟩
      rw [List.mem_singleton.mp hc]
      rintro rfl
      exact ha (List.contains_iff_mem.mpr (List.mem_eraseDups.mp hb))

theorem eraseDups_filter (p : α → Bool) (l : List α) :
    (l.filter p).eraseDups = l.eraseDups.filter p := by
  induction l using List.reverseRecOn with
  | nil => rfl
  | append_singleton l a ih =>
    rw [eraseDups_concat, List.filter_append, apply_ite (List.filter p), List.filter_append]
    cases ha : p a with
    | false => simp [ha, ih]
    | true =>
      have hmem : (l.filter p).contains a = l.contains a := by
        simp [ha]
      simp only [ha, List.filter_cons_of_pos, List.filter_nil, eraseDups_concat, hmem, ih]

end EraseDups

end ChartAdvisor
