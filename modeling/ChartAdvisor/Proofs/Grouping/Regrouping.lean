import ChartAdvisor.Proofs.Grouping.Partition

/-!
# Grouping what has been grouped

The drafts of a tree, from first to last, come group by group. So their keys first appear in the order
in which they did before, and those with one key are the drafts of one group, in the order of the tree.
Grouping them once more makes the same groups, and level by level the same tree.
-/
namespace ChartAdvisor

/-! ## Lists that come group by group -/

section ByKey

variable {α : Type} {key : α → String} {keys : List String} {part : String → List α}

/-- In a list that comes group by group the members of one key are the group of that key. -/
theorem filter_flatMap_of_keyed (hnodup : keys.Nodup) (hkey : ∀ k ∈ keys, ∀ a ∈ part k, key a = k)
    {k : String} (hk : k ∈ keys) : (keys.flatMap part).filter (key · = k) = part k := by
  induction keys with
  | nil => contradiction
  | cons j rest ih =>
    obtain ⟨hj, hrest⟩ := List.nodup_cons.mp hnodup
    have hkey' : ∀ i ∈ rest, ∀ a ∈ part i, key a = i := fun i hi => hkey i (List.mem_cons_of_mem j hi)
    rw [List.flatMap_cons, List.filter_append]
    rcases List.mem_cons.mp hk with rfl | hk
    · have hself : (part k).filter (key · = k) = part k :=
        List.filter_eq_self.mpr fun a ha => decide_eq_true (hkey k List.mem_cons_self a ha)
      have hothers : (rest.flatMap part).filter (key · = k) = [] :=
        List.filter_eq_nil_iff.mpr fun a ha => by
          obtain ⟨i, hi, ha⟩ := List.mem_flatMap.mp ha
          rw [hkey' i hi a ha, decide_eq_true_iff]
          exact ne_of_mem_of_not_mem hi hj
      rw [hself, hothers, List.append_nil]
    · have hnone : (part j).filter (key · = k) = [] :=
        List.filter_eq_nil_iff.mpr fun a ha => by
          rw [hkey j List.mem_cons_self a ha, decide_eq_true_iff]
          exact (ne_of_mem_of_not_mem hk hj).symm
      rw [hnone, List.nil_append, ih hrest hkey' hk]

/-- In a list that comes group by group, none of them empty, the keys first appear in the order of the
groups. -/
theorem eraseDups_flatMap_of_keyed (hnodup : keys.Nodup) (hkey : ∀ k ∈ keys, ∀ a ∈ part k, key a = k)
    (hsome : ∀ k ∈ keys, part k ≠ []) : ((keys.flatMap part).map key).eraseDups = keys := by
  induction keys with
  | nil => rfl
  | cons k rest ih =>
    obtain ⟨hk, hrest⟩ := List.nodup_cons.mp hnodup
    obtain ⟨a, as, hpart⟩ := List.exists_cons_of_ne_nil (hsome k List.mem_cons_self)
    have hfirst : ∀ b ∈ a :: as, key b = k := hpart ▸ hkey k List.mem_cons_self
    have hnone : (as.map key).filter (fun j => !j == k) = [] :=
      List.filter_eq_nil_iff.mpr fun j hj => by
        obtain ⟨b, hb, rfl⟩ := List.mem_map.mp hj
        simp [hfirst b (List.mem_cons_of_mem a hb)]
    have hall : ((rest.flatMap part).map key).filter (fun j => !j == k) = (rest.flatMap part).map key :=
      List.filter_eq_self.mpr fun j hj => by
        obtain ⟨b, hb, rfl⟩ := List.mem_map.mp hj
        obtain ⟨i, hi, hb⟩ := List.mem_flatMap.mp hb
        have hik : i ≠ k := ne_of_mem_of_not_mem hi hk
        simpa [hkey i (List.mem_cons_of_mem k hi) b hb] using hik
    rw [List.flatMap_cons, hpart, List.cons_append, List.map_cons, List.map_append,
      hfirst a List.mem_cons_self, List.eraseDups_cons, List.filter_append, hnone, hall, List.nil_append,
      ih hrest (fun j hj => hkey j (List.mem_cons_of_mem k hj))
        fun j hj => hsome j (List.mem_cons_of_mem k hj)]

end ByKey

namespace ResultTree

/-! ## The same tree -/

/-- Grouping the drafts of some groups once more makes those groups. -/
theorem groupInto_draftsOf {passed : List GroupLevel} {incl : Include} {repl : Replacers}
    (h : GroupLevel.Carries passed incl repl) (levels : List GroupLevel) (path : String) (ds : List Draft) :
    groupInto levels incl repl path (draftsOf (groupInto levels incl repl path ds)) =
      groupInto levels incl repl path ds := by
  induction levels generalizing passed incl repl path ds with
  | nil => exact congrArg (List.map leaf) (draftsOf_leaves ds)
  | cons level rest ih =>
    obtain ⟨incl', repl', hcarries, hgroups⟩ := groupInto_cons h level rest
    let keyOf : Draft → String := GroupLevel.keyOn (passed ++ [level])
    -- The drafts of the subgroup of a key, as they are listed.
    let part (key : String) : List Draft :=
      draftsOf (groupInto rest incl' repl' (path ++ "/" ++ key) (ds.filter (keyOf · = key)))
    have hperm (key : String) : (part key).Perm (ds.filter (keyOf · = key)) :=
      draftsOf_groupInto_perm hcarries ..
    have hlisted : draftsOf (groupInto (level :: rest) incl repl path ds) =
        (ds.map keyOf).eraseDups.flatMap part := by
      rw [hgroups, draftsOf_eq, List.flatMap_map]
      rfl
    have hnodup := nodup_eraseDups (ds.map keyOf)
    have hkey : ∀ key ∈ (ds.map keyOf).eraseDups, ∀ d ∈ part key, keyOf d = key :=
      fun key _ d hd => of_decide_eq_true (List.mem_filter.mp ((hperm key).mem_iff.mp hd)).2
    have hsome : ∀ key ∈ (ds.map keyOf).eraseDups, part key ≠ [] := by
      intro key hk hnil
      obtain ⟨d, hd, rfl⟩ := List.mem_map.mp (List.mem_eraseDups.mp hk)
      have hmember : d ∈ part (keyOf d) :=
        (hperm _).mem_iff.mpr (List.mem_filter.mpr ⟨hd, decide_eq_true rfl⟩)
      rw [hnil] at hmember
      contradiction
    rw [hgroups, hlisted, eraseDups_flatMap_of_keyed hnodup hkey hsome, hgroups]
    refine List.map_congr_left fun key hk => ?_
    rw [filter_flatMap_of_keyed hnodup hkey hk, ih hcarries]

mutual

/-- Collecting the drafts of a tree puts its drafts behind those that were found before. -/
theorem collect_eq (found : List Draft) : (t : ResultTree) → collect found t = found ++ t.drafts
  | leaf _ => rfl
  | group _ _ items => collectEach_eq found items

theorem collectEach_eq (found : List Draft) :
    (items : List ResultTree) → collectEach found items = found ++ draftsOf items
  | [] => (List.append_nil found).symm
  | t :: rest => by
    rw [collectEach, collectEach_eq, collect_eq, draftsOf, List.append_assoc]

end

/-- Grouping is idempotent: the drafts of a tree, grouped by the levels by which the tree was made, give
that very tree again, its names, paths and groups and the order of its drafts. And however the drafts of
a tree are listed, they are the same in the same order. -/
theorem ofDrafts_idempotent :
    (∀ levels ds, ofDrafts levels (ofDrafts levels ds).drafts = ofDrafts levels ds) ∧
      ∀ t : ResultTree, t.collected = t.drafts :=
  ⟨fun levels ds => congrArg (group "" "") (groupInto_draftsOf GroupLevel.carries_nil levels "" ds),
    fun t => collect_eq [] t⟩

end ResultTree
end ChartAdvisor
