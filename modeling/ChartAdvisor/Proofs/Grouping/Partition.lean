import ChartAdvisor.Proofs.Grouping.Arrangement
import ChartAdvisor.Proofs.Search.Precedence
import ChartAdvisor.Proofs.Shorthand.Rewriting
import Mathlib.Data.List.Perm.Basic

/-!
# Grouping is a partition, level by level

The groups that stand a number of steps below the root are told by the keys of the levels passed: two
drafts are in one of them exactly if they have the same keys there. So no draft is lost, none is in two
groups, and every group is about the drafts of its keys, in the order in which they came.
-/
namespace ChartAdvisor

theorem length_keyedLevels (passed levels : List GroupLevel) :
    (keyedLevels passed levels).length = levels.length :=
  List.length_mapIdx

namespace ResultTree

/-- The name of a group. -/
def name : ResultTree → String
  | leaf _ => ""
  | group name _ _ => name

/-- The path of a group. -/
def path : ResultTree → String
  | leaf _ => ""
  | group _ path _ => path

/-- The trees that stand a number of steps below a tree. -/
def atDepth : Nat → ResultTree → List ResultTree
  | 0, t => [t]
  | n + 1, t => t.items.flatMap (atDepth n)

/-- What the subgroups of a group look like, by the level on which they stand, the drafts that belong to
the group, in the order in which they came, and its path. -/
structure AreSubgroups (level : KeyedLevel) (members : List Draft) (path : String)
    (items : List ResultTree) : Prop where
  /-- There is one subgroup for each key, in the order in which the keys first appear. -/
  names : items.map name = (members.map level.key).eraseDups
  distinct : (items.map name).Nodup
  shared : ∀ t ∈ items, ∀ d ∈ t.drafts, level.key d = t.name
  paths : ∀ t ∈ items, t = group t.name (path ++ "/" ++ t.name) t.items

/-- What a group looks like, by the levels below it and the drafts that belong to it, in the order in
which they came. -/
structure IsGroupOf (below : List KeyedLevel) (members : List Draft) (g : ResultTree) : Prop where
  isGroup : g = group g.name g.path g.items
  leaves : g.drafts.Perm members
  top : g.top? = members.head?
  /-- A group of the last level holds its drafts as they came. -/
  inOrder : below = [] → g.items = members.map leaf
  subgroups : ∀ level rest, below = level :: rest → AreSubgroups level members g.path g.items

/-- A tree that is a partition of some drafts, refined from level to level. -/
structure IsPartition (levels : List KeyedLevel) (ds : List Draft) (tree : ResultTree) : Prop where
  leaves : tree.drafts.Perm ds
  top : tree.top? = ds.head?
  sameGroup : ∀ n ≤ levels.length, ∀ d ∈ ds, ∀ e ∈ ds,
    (∃ g ∈ tree.atDepth n, d ∈ g.drafts ∧ e ∈ g.drafts) ↔
      keysOn (levels.take n) d = keysOn (levels.take n) e
  /-- One after another, the groups of a level hold the drafts of the tree. -/
  once : ∀ n ≤ levels.length, (tree.atDepth n).flatMap drafts = tree.drafts
  groups : ∀ n ≤ levels.length, ∀ g ∈ tree.atDepth n, ∃ keys,
    IsGroupOf (levels.drop n) (ds.filter (keysOn (levels.take n) · = keys)) g
  nonempty : ∀ n ≤ levels.length, 0 < n → ∀ g ∈ tree.atDepth n, g.drafts ≠ []

/-- The whole tree is the group of all drafts. -/
theorem IsPartition.isGroupOf {levels : List KeyedLevel} {ds : List Draft} {tree : ResultTree}
    (h : IsPartition levels ds tree) : IsGroupOf levels ds tree := by
  obtain ⟨keys, hgroup⟩ := h.groups 0 (Nat.zero_le _) tree List.mem_cons_self
  have hlength := (hgroup.leaves.symm.trans h.leaves).length_eq
  rw [List.filter_sublist.eq_of_length hlength] at hgroup
  exact hgroup

section Grouping

open GroupLevel (Carries keyOn)

variable {passed : List GroupLevel} {incl : Include} {repl : Replacers} (h : Carries passed incl repl)
include h

/-! ## The drafts of a group -/

/-- Grouping loses no draft and makes none up. -/
theorem draftsOf_groupInto_perm (levels : List GroupLevel) (path : String) (ds : List Draft) :
    (draftsOf (groupInto levels incl repl path ds)).Perm ds := by
  induction levels generalizing passed incl repl path ds with
  | nil => exact .of_eq (draftsOf_leaves ds)
  | cons level rest ih =>
    obtain ⟨incl', repl', hcarries, hgroups⟩ := groupInto_cons h level rest
    rw [hgroups, draftsOf_eq, List.flatMap_map]
    exact (List.Perm.flatMap_left _ fun key _ => ih hcarries ..).trans (perm_flatMap_filter _ ds)

/-- The first draft of the first group is the first draft. -/
theorem topOf?_groupInto (levels : List GroupLevel) (path : String) (ds : List Draft) :
    topOf? (groupInto levels incl repl path ds) = ds.head? := by
  induction levels generalizing passed incl repl path ds with
  | nil => cases ds <;> rfl
  | cons level rest ih =>
    obtain ⟨incl', repl', hcarries, hgroups⟩ := groupInto_cons h level rest
    rw [hgroups]
    cases ds with
    | nil => rfl
    | cons d ds =>
      rw [List.map_cons, List.eraseDups_cons, List.map_cons]
      change topOf? (groupInto rest incl' repl' _ _) = some d
      rw [ih hcarries, List.filter_cons_of_pos (by simp)]
      rfl

/-- What is made of drafts on some levels looks as a group above those levels does. -/
theorem isGroupOf_groupInto (levels : List GroupLevel) (name path : String) (ds : List Draft) :
    IsGroupOf (keyedLevels passed levels) ds (group name path (groupInto levels incl repl path ds)) := by
  refine ⟨rfl, draftsOf_groupInto_perm h .., topOf?_groupInto h .., fun hbelow => ?_,
    fun level rest hbelow => ?_⟩
  · cases levels with
    | nil => rfl
    | cons level rest =>
      rw [keyedLevels_cons] at hbelow
      contradiction
  · cases levels with
    | nil => contradiction
    | cons level rest =>
      obtain ⟨incl', repl', hcarries, hgroups⟩ := groupInto_cons h level rest
      rw [keyedLevels_cons] at hbelow
      obtain ⟨rfl, -⟩ := List.cons.inj hbelow
      have hnames : (groupInto (level :: rest) incl repl path ds).map ResultTree.name =
          (ds.map (keyOn (passed ++ [level]))).eraseDups := by
        rw [hgroups, List.map_map]
        exact List.map_id _
      refine ⟨hnames, hnames ▸ nodup_eraseDups _, fun t ht d hd => ?_, fun t ht => ?_⟩
      · rw [items, hgroups] at ht
        obtain ⟨key, -, rfl⟩ := List.mem_map.mp ht
        have hmember := (draftsOf_groupInto_perm hcarries rest _ _).mem_iff.mp hd
        exact of_decide_eq_true (List.mem_filter.mp hmember).2
      · rw [items, hgroups] at ht
        obtain ⟨key, -, rfl⟩ := List.mem_map.mp ht
        rfl

/-! ## The groups of a level -/

/-- Every group that stands some steps below is about the drafts of its keys on the levels passed. -/
theorem exists_isGroupOf (levels : List GroupLevel) (name path : String) (ds : List Draft) {n : Nat}
    (hn : n ≤ levels.length) {g : ResultTree}
    (hg : g ∈ atDepth n (group name path (groupInto levels incl repl path ds))) :
    ∃ keys, IsGroupOf ((keyedLevels passed levels).drop n)
      (ds.filter (keysOn ((keyedLevels passed levels).take n) · = keys)) g := by
  induction n generalizing passed incl repl levels name path ds with
  | zero =>
    obtain rfl := List.mem_singleton.mp hg
    have hall : ds.filter (keysOn [] · = []) = ds := List.filter_eq_self.mpr fun _ _ => decide_eq_true rfl
    refine ⟨[], ?_⟩
    rw [List.take_zero, List.drop_zero, hall]
    exact isGroupOf_groupInto h ..
  | succ n ih =>
    cases levels with
    | nil => contradiction
    | cons level rest =>
      obtain ⟨incl', repl', hcarries, hgroups⟩ := groupInto_cons h level rest
      rw [atDepth, items, hgroups, List.flatMap_map] at hg
      obtain ⟨key, -, hg⟩ := List.mem_flatMap.mp hg
      obtain ⟨keys, hgroup⟩ := ih hcarries rest _ _ _ (Nat.le_of_succ_le_succ hn) hg
      refine ⟨key :: keys, ?_⟩
      rw [keyedLevels_cons, List.take_succ_cons, List.drop_succ_cons, filter_keysOn_cons]
      exact hgroup

/-- Read one after another, the groups of a level give the drafts as the whole tree does. -/
theorem flatMap_drafts_atDepth (levels : List GroupLevel) (name path : String) (ds : List Draft) {n : Nat}
    (hn : n ≤ levels.length) :
    (atDepth n (group name path (groupInto levels incl repl path ds))).flatMap drafts =
      draftsOf (groupInto levels incl repl path ds) := by
  induction n generalizing passed incl repl levels name path ds with
  | zero => exact List.append_nil _
  | succ n ih =>
    cases levels with
    | nil => contradiction
    | cons level rest =>
      obtain ⟨incl', repl', hcarries, hgroups⟩ := groupInto_cons h level rest
      rw [atDepth, items, hgroups, draftsOf_eq, List.flatMap_map, List.flatMap_map, List.flatMap_assoc]
      exact List.flatMap_congr fun key _ => ih hcarries rest _ _ _ (Nat.le_of_succ_le_succ hn)

/-- No group below the root is empty, and where there are drafts the root is not. -/
theorem drafts_ne_nil_of_atDepth (levels : List GroupLevel) (name path : String) {ds : List Draft} {n : Nat}
    (hsome : 0 < n ∨ ds ≠ []) (hn : n ≤ levels.length) {g : ResultTree}
    (hg : g ∈ atDepth n (group name path (groupInto levels incl repl path ds))) :
    g.drafts ≠ [] := by
  induction n generalizing passed incl repl levels name path ds with
  | zero =>
    obtain rfl := List.mem_singleton.mp hg
    have hds : ds ≠ [] := hsome.resolve_left (Nat.lt_irrefl 0)
    intro hnil
    exact hds (List.nil_perm.mp (hnil ▸ draftsOf_groupInto_perm h levels path ds))
  | succ n ih =>
    cases levels with
    | nil => contradiction
    | cons level rest =>
      obtain ⟨incl', repl', hcarries, hgroups⟩ := groupInto_cons h level rest
      rw [atDepth, items, hgroups, List.flatMap_map] at hg
      obtain ⟨key, hkey, hg⟩ := List.mem_flatMap.mp hg
      -- The key is that of a draft, which is in the subgroup.
      obtain ⟨d, hd, rfl⟩ := List.mem_map.mp (List.mem_eraseDups.mp hkey)
      have hmember : d ∈ ds.filter (keyOn (passed ++ [level]) · = keyOn (passed ++ [level]) d) :=
        List.mem_filter.mpr ⟨hd, decide_eq_true rfl⟩
      exact ih hcarries rest _ _ (.inr (List.ne_nil_of_mem hmember)) (Nat.le_of_succ_le_succ hn) hg

/-- Two drafts are in one group of a level exactly if they have the same keys on the levels passed. -/
theorem exists_atDepth_iff (levels : List GroupLevel) (name path : String) {ds : List Draft} {n : Nat}
    (hn : n ≤ levels.length) {d e : Draft} (hd : d ∈ ds) (he : e ∈ ds) :
    (∃ g ∈ atDepth n (group name path (groupInto levels incl repl path ds)),
        d ∈ g.drafts ∧ e ∈ g.drafts) ↔
      keysOn ((keyedLevels passed levels).take n) d = keysOn ((keyedLevels passed levels).take n) e := by
  constructor
  · rintro ⟨g, hg, hdg, heg⟩
    obtain ⟨keys, hgroup⟩ := exists_isGroupOf h levels name path ds hn hg
    rw [hgroup.leaves.mem_iff, List.mem_filter, decide_eq_true_iff] at hdg heg
    exact hdg.2.trans heg.2.symm
  · intro hkeys
    obtain ⟨g, hg, hdg⟩ : ∃ g ∈ atDepth n (group name path (groupInto levels incl repl path ds)),
        d ∈ g.drafts := by
      rw [← List.mem_flatMap, flatMap_drafts_atDepth h levels name path ds hn]
      exact (draftsOf_groupInto_perm h ..).mem_iff.mpr hd
    obtain ⟨keys, hgroup⟩ := exists_isGroupOf h levels name path ds hn hg
    refine ⟨g, hg, hdg, ?_⟩
    rw [hgroup.leaves.mem_iff, List.mem_filter, decide_eq_true_iff] at hdg ⊢
    exact ⟨he, hkeys.symm.trans hdg.2⟩

end Grouping

/-- Grouping is a partition of the drafts that is refined from level to level, by keys that look at all
that the levels so far look at: two drafts are in one group of a level exactly if they have the same
keys on the levels so far, every draft is in one group of each level, and no group is empty. Subgroups
are named by their keys, in the order in which these first appear, the paths are made of the names,
and the groups of the last level hold their drafts as they came. -/
theorem isPartition_ofDrafts (levels : List GroupLevel) (ds : List Draft) :
    IsPartition (keyedLevels [] levels) ds (ofDrafts levels ds) where
  leaves := draftsOf_groupInto_perm GroupLevel.carries_nil levels "" ds
  top := topOf?_groupInto GroupLevel.carries_nil levels "" ds
  sameGroup n hn d hd e he := by
    rw [length_keyedLevels] at hn
    exact exists_atDepth_iff GroupLevel.carries_nil levels "" "" hn hd he
  once n hn := by
    rw [length_keyedLevels] at hn
    exact flatMap_drafts_atDepth GroupLevel.carries_nil levels "" "" ds hn
  groups n hn g hg := by
    rw [length_keyedLevels] at hn
    exact exists_isGroupOf GroupLevel.carries_nil levels "" "" ds hn hg
  nonempty n hn hpos g hg := by
    rw [length_keyedLevels] at hn
    exact drafts_ne_nil_of_atDepth GroupLevel.carries_nil levels "" "" (.inl hpos) hn hg

end ResultTree

/-- Points of names and numbers on the two axes in either way, the numbers as they are or their mean. -/
def namesAndNumbers : ChartQuery where
  mark := .fixed .point
  encodings := [
    .field {
      channel := .wild (.ofCandidates [.x, .y])
      field := .fixed "N"
      type := .fixed .nominal },
    .field {
      channel := .wild (.ofCandidates [.x, .y])
      field := .fixed "Q"
      type := .fixed .quantitative
      aggregate := .wild { name := none, candidates := some [some .mean, none] } }]

/-- By functions first, one axis taken for the other, then by fields as well, with `x` by its own name. -/
def functionsThenFields : List GroupLevel := [
  { groupBy := .properties [⟨.aggregate, none⟩, ⟨.channel, some [("x", "xy"), ("y", "xy")]⟩] },
  { groupBy := .properties [⟨.field, none⟩, ⟨.channel, some [("x", "x")]⟩] }]

namespace ResultTree

/-- On the second level a key looks at functions still, and `y` is still an axis like another. -/
theorem isPartition_ofDrafts_functionsThenFields : ∃ a b c d : Draft,
    (generate namesAndNumbers ⟨Draft.threeFields, { stylize := false }⟩).outcome = .ok [a, b, c, d] ∧
    [a, b, c, d].map (keysOn (keyedLevels [] functionsThenFields)) = [
      ["xy:...|xy:mean(...)", "x:N|xy:mean(Q)"], ["xy:...|xy:mean(...)", "x:mean(Q)|xy:N"],
      ["xy:...|xy:...", "x:N|xy:Q"], ["xy:...|xy:...", "x:Q|xy:N"]] ∧
    (ofDrafts functionsThenFields [a, b, c, d]).items.map name =
      ["xy:...|xy:mean(...)", "xy:...|xy:..."] ∧
    (∃ g ∈ (ofDrafts functionsThenFields [a, b, c, d]).atDepth 1, a ∈ g.drafts ∧ b ∈ g.drafts) ∧
    ¬∃ g ∈ (ofDrafts functionsThenFields [a, b, c, d]).atDepth 2, a ∈ g.drafts ∧ b ∈ g.drafts := by
  have hkeysOn : keysOn (keyedLevels [] functionsThenFields) = fun d =>
      [GroupLevel.keyOn (functionsThenFields.take 1) d, GroupLevel.keyOn functionsThenFields d] := rfl
  have hgenerated : ((generate namesAndNumbers ⟨Draft.threeFields, { stylize := false }⟩).outcome.map
      (·.map (keysOn (keyedLevels [] functionsThenFields)))).toOption = some [
        ["xy:...|xy:mean(...)", "x:N|xy:mean(Q)"], ["xy:...|xy:mean(...)", "x:mean(Q)|xy:N"],
        ["xy:...|xy:...", "x:N|xy:Q"], ["xy:...|xy:...", "x:Q|xy:N"]] := by
    simp only [hkeysOn, GroupLevel.keyOn, Shorthand.query, Shorthand.sorted_eq_insertionSort]
    decide +kernel
  obtain ⟨drafts, hgenerated, hkeys⟩ := Draft.exists_of_map_toOption hgenerated
  obtain ⟨a, b, c, d, rfl⟩ := List.length_eq_four.mp (by simpa using congrArg List.length hkeys)
  have hpartition := isPartition_ofDrafts functionsThenFields [a, b, c, d]
  simp only [List.map_cons, List.map_nil, List.cons.injEq, and_true] at hkeys
  obtain ⟨ha, hb, hc, hd⟩ := hkeys
  refine ⟨a, b, c, d, hgenerated, ?_, ?_, ?_, ?_⟩
  · simp only [List.map_cons, List.map_nil, ha, hb, hc, hd]
  · have hnames : (ofDrafts functionsThenFields [a, b, c, d]).items.map name =
        ([a, b, c, d].map (GroupLevel.keyOn (functionsThenFields.take 1))).eraseDups :=
      (hpartition.isGroupOf.subgroups _ _ (keyedLevels_cons ..)).names
    simp only [hkeysOn, List.cons.injEq, and_true] at ha hb hc hd
    rw [hnames, List.map_cons, List.map_cons, List.map_cons, List.map_cons, ha.1, hb.1, hc.1, hd.1]
    decide +kernel
  · refine (hpartition.sameGroup 1 (by decide) a (by simp) b (by simp)).mpr ?_
    rw [keysOn_take, keysOn_take, ha, hb]
    rfl
  · rw [hpartition.sameGroup 2 (by decide) a (by simp) b (by simp), keysOn_take, keysOn_take, ha, hb]
    decide

end ResultTree
end ChartAdvisor
