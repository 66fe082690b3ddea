import ChartAdvisor.Proofs.Grouping.Keys
import ChartAdvisor.Proofs.Pointwise
import ChartAdvisor.Proofs.Ranking.Order
import Mathlib.Order.WithBot

/-!
# What an arranged tree looks like

The shape of a tree is said level by level, from the drafts that belong to a group: there is one
subgroup for each key that they have, in the order in which the keys first appear, or sorted by the
first drafts of the subgroups. A group of the last level holds its drafts as they came, or the
best of them alone. Nothing here mentions how the tree is made.
-/
namespace ChartAdvisor

/-! ## Groups in the order of their first members -/

/-- Gathering makes one group for each key, in the order in which keys first appear. -/
theorem gather_eq {α : Type} (l : List (String × α)) :
    ResultTree.gather l = (l.map Prod.fst).eraseDups.map fun key =>
      (key, (l.filter (·.1 = key)).map Prod.snd) := by
  induction l with
  | nil => rfl
  | cons e rest ih =>
    obtain ⟨key, a⟩ := e
    have hmembers : ((ResultTree.gather rest).lookup key).getD [] =
        (rest.filter (·.1 = key)).map Prod.snd := by
      rw [ih, Table.lookup_map_self]
      split
      · rfl
      · next hnot =>
        have hnone : rest.filter (·.1 = key) = [] := by
          refine List.filter_eq_nil_iff.mpr fun x hx hkey => hnot ?_
          rw [List.mem_eraseDups]
          exact List.mem_map.mpr ⟨x, hx, of_decide_eq_true hkey⟩
        rw [hnone]
        rfl
    rw [ResultTree.gather, hmembers, List.map_cons, List.eraseDups_cons, List.map_cons]
    congr 1
    · simp
    · rw [eraseDups_filter, ih, Table.erase, List.filter_map]
      refine (List.map_congr_left fun k hk => ?_).trans (congrArg _ (List.filter_congr fun k _ => rfl))
      have hne : k ≠ key := by
        simpa using (List.mem_filter.mp hk).2
      rw [List.filter_cons_of_neg (by simpa using hne.symm)]

/-- Taking the members of one key after another takes every member once. -/
theorem perm_flatMap_filter {α : Type} (key : α → String) (l : List α) :
    ((l.map key).eraseDups.flatMap fun k => l.filter (key · = k)).Perm l := by
  have hkeys (ks : List String) (hks : ks.Nodup) :
      (ks.flatMap fun k => l.filter (key · = k)).Perm (l.filter (key · ∈ ks)) := by
    induction ks with
    | nil => simp
    | cons k rest ih =>
      obtain ⟨hk, hrest⟩ := List.nodup_cons.mp hks
      have hsplit := List.filter_append_perm (fun a => decide (key a = k))
        (l.filter (key · ∈ k :: rest))
      simp only [List.filter_filter] at hsplit
      refine (List.Perm.append (.of_eq ?_) ((ih hrest).trans (.of_eq ?_))).trans hsplit
      · refine List.filter_congr fun a _ => ?_
        by_cases ha : key a = k <;> simp [ha]
      · refine List.filter_congr fun a _ => ?_
        by_cases ha : key a = k
        · simp [ha, hk]
        · simp [ha]
  refine (hkeys _ (nodup_eraseDups _)).trans (.of_eq (List.filter_eq_self.mpr fun a ha => ?_))
  simpa using ⟨a, ha, rfl⟩

/-! ## The shape of a tree -/

/-- A level of groups: the key of a draft, and the ranking that puts the groups in order. -/
structure KeyedLevel where
  key : Draft → String
  ranking : Option String

/-- The keys of a draft on some levels. -/
def keysOn (levels : List KeyedLevel) (d : Draft) : List String := levels.map (·.key d)

theorem keysOn_take (levels : List KeyedLevel) (n : Nat) (d : Draft) :
    keysOn (levels.take n) d = (keysOn levels d).take n := List.map_take

/-- The drafts with some keys on all levels are those with the first key on the first level that have
the other keys below. -/
theorem filter_keysOn_cons (level : KeyedLevel) (rest : List KeyedLevel) (key : String)
    (keys : List String) (ds : List Draft) :
    ds.filter (keysOn (level :: rest) · = key :: keys) =
      (ds.filter (level.key · = key)).filter (keysOn rest · = keys) := by
  rw [List.filter_filter]
  refine List.filter_congr fun d _ => ?_
  rw [← Bool.decide_and]
  simp [keysOn, and_comm]

/-- Levels below others that have been passed, with the keys that drafts have on them. -/
def keyedLevels (passed levels : List GroupLevel) : List KeyedLevel :=
  levels.mapIdx fun n level => ⟨GroupLevel.keyOn (passed ++ levels.take (n + 1)), level.orderGroupBy⟩

theorem keyedLevels_cons (passed : List GroupLevel) (level : GroupLevel) (rest : List GroupLevel) :
    keyedLevels passed (level :: rest) =
      ⟨GroupLevel.keyOn (passed ++ [level]), level.orderGroupBy⟩ :: keyedLevels (passed ++ [level]) rest := by
  simp [keyedLevels, List.mapIdx_cons]

namespace ResultTree

/-- The exact score of the first draft of a tree; a tree without one is below all others. -/
def topScore (name : String) (t : ResultTree) : WithBot ℚ :=
  match t.top? with
  | some d => (d.exactScore name : ℚ)
  | none => ⊥

/-- What is shown of the drafts that belong to a group of the last level: all of them as they came
or, where there is a ranking to choose by, the earliest of the best alone. -/
def IsShown (chooseBy : Option String) (members shown : List Draft) : Prop :=
  match chooseBy with
  | none => shown = members
  | some name => ∃ d, IsEarliestBest (Draft.exactScore · name) members d ∧ shown = [d]

/-- What the items of a group are, by the levels below it, its path and the drafts that belong to
it. -/
def IsArranged (chooseBy : Option String) :
    List KeyedLevel → (path : String) → (members : List Draft) → List ResultTree → Prop
  | [], _, members, items => ∃ shown, IsShown chooseBy members shown ∧ items = shown.map leaf
  | level :: rest, path, members, items =>
    ∃ appearing : List ResultTree,
      List.Forall₂
        (fun key t => ∃ inner, t = group key (path ++ "/" ++ key) inner ∧
          (∃ d ∈ members, level.key d = key ∧ t.top? = some d) ∧
          IsArranged chooseBy rest (path ++ "/" ++ key) (members.filter (level.key · = key)) inner)
        (members.map level.key).eraseDups appearing ∧
      match level.ranking.or chooseBy with
      | none => items = appearing
      | some name => IsStableSort (topScore name) appearing items

/-- A tree stands somewhere in another. -/
inductive Within (s : ResultTree) : ResultTree → Prop
  | here : Within s s
  | inside {t : ResultTree} {items : List ResultTree} (name path : String) (member : t ∈ items)
    (within : Within s t) : Within s (group name path items)

theorem draftsOf_eq (items : List ResultTree) : draftsOf items = items.flatMap drafts := by
  induction items with
  | nil => rfl
  | cons t rest ih => rw [draftsOf, ih, List.flatMap_cons]

theorem draftsOf_leaves (ds : List Draft) : draftsOf (ds.map leaf) = ds := by
  induction ds with
  | nil => rfl
  | cons d rest ih => rw [List.map_cons, draftsOf, ih]; rfl

/-! ## What follows from the shape -/

section Shape

variable {chooseBy : Option String} {level : KeyedLevel} {levels rest : List KeyedLevel}
  {path : String} {members : List Draft} {items : List ResultTree}

/-- The items of a group that has levels below it are its subgroups, in some order. -/
theorem IsArranged.exists_perm (h : IsArranged chooseBy (level :: rest) path members items) :
    ∃ appearing : List ResultTree, items.Perm appearing ∧ List.Forall₂
        (fun key t => ∃ inner, t = group key (path ++ "/" ++ key) inner ∧
          (∃ d ∈ members, level.key d = key ∧ t.top? = some d) ∧
          IsArranged chooseBy rest (path ++ "/" ++ key) (members.filter (level.key · = key)) inner)
        (members.map level.key).eraseDups appearing := by
  obtain ⟨appearing, hgroups, hsorted⟩ := h
  refine ⟨appearing, ?_, hgroups⟩
  cases hr : level.ranking.or chooseBy with
  | none =>
    simp only [hr] at hsorted
    exact .of_eq hsorted
  | some name =>
    simp only [hr] at hsorted
    exact hsorted.perm

/-- A subgroup, by its key. -/
theorem IsArranged.exists_group (h : IsArranged chooseBy (level :: rest) path members items)
    {t : ResultTree} (ht : t ∈ items) :
    ∃ key inner, t = group key (path ++ "/" ++ key) inner ∧
      (∃ d ∈ members, level.key d = key ∧ t.top? = some d) ∧
      IsArranged chooseBy rest (path ++ "/" ++ key) (members.filter (level.key · = key)) inner := by
  obtain ⟨appearing, hperm, hgroups⟩ := h.exists_perm
  obtain ⟨key, -, inner, hgroup⟩ := exists_of_forall₂ hgroups.flip (hperm.mem_iff.mp ht)
  exact ⟨key, inner, hgroup⟩

/-- A group to which drafts belong shows one of them first. -/
theorem IsArranged.exists_top (h : IsArranged chooseBy levels path members items)
    (hne : members ≠ []) : ∃ d ∈ members, topOf? items = some d := by
  cases levels with
  | nil =>
    obtain ⟨shown, hshown, rfl⟩ := h
    cases chooseBy with
    | none =>
      obtain ⟨d, ds, rfl⟩ := List.exists_cons_of_ne_nil hne
      obtain rfl : shown = d :: ds := hshown
      exact ⟨d, List.mem_cons_self, rfl⟩
    | some name =>
      obtain ⟨d, ⟨before, after, rfl, -⟩, rfl⟩ := hshown
      exact ⟨d, by simp, rfl⟩
  | cons level rest =>
    obtain ⟨appearing, hperm, hgroups⟩ := h.exists_perm
    have hitems : items ≠ [] := by
      intro hnil
      rw [hnil, List.nil_perm] at hperm
      rw [hperm, List.forall₂_nil_right_iff] at hgroups
      obtain ⟨d, ds, rfl⟩ := List.exists_cons_of_ne_nil hne
      rw [List.map_cons, List.eraseDups_cons] at hgroups
      contradiction
    obtain ⟨t, ts, rfl⟩ := List.exists_cons_of_ne_nil hitems
    obtain ⟨key, inner, -, ⟨d, hd, -, htop⟩, -⟩ := h.exists_group List.mem_cons_self
    exact ⟨d, hd, htop⟩

/-- Where no draft is chosen by a ranking, all of them are in the tree. -/
theorem IsArranged.drafts_perm (h : IsArranged none levels path members items) :
    (draftsOf items).Perm members := by
  induction levels generalizing path members items with
  | nil =>
    obtain ⟨shown, hshown, rfl⟩ := h
    rw [draftsOf_leaves, show shown = members from hshown]
  | cons level rest ih =>
    obtain ⟨appearing, hperm, hgroups⟩ := h.exists_perm
    rw [draftsOf_eq]
    refine (hperm.flatMap_right drafts).trans (.trans ?_ (perm_flatMap_filter level.key members))
    generalize (members.map level.key).eraseDups = keys at hgroups
    clear hperm
    induction hgroups with
    | nil => exact .nil
    | cons hgroup _ ihgroups =>
      obtain ⟨inner, rfl, -, harranged⟩ := hgroup
      exact (ih harranged).append ihgroups

/-- On the last level, a ranking to choose by leaves one draft in each group. -/
theorem IsArranged.chosen {name : String}
    (h : IsArranged (some name) [level] path members items) :
    ∃ appearing : List ResultTree,
      List.Forall₂
        (fun key t => ∃ d, IsEarliestBest (Draft.exactScore · name) (members.filter (level.key · = key)) d ∧
          t = group key (path ++ "/" ++ key) [leaf d])
        (members.map level.key).eraseDups appearing ∧
      IsStableSort (topScore (level.ranking.getD name)) appearing items := by
  obtain ⟨appearing, hgroups, hsorted⟩ := h
  refine ⟨appearing, hgroups.imp ?_, ?_⟩
  · rintro key t ⟨inner, rfl, -, shown, ⟨d, hd, rfl⟩, rfl⟩
    exact ⟨d, hd, rfl⟩
  · cases hranking : level.ranking <;> simpa [hranking] using hsorted

theorem leaves_injective : Function.Injective (List.map leaf) :=
  List.map_injective_iff.mpr fun _ _ h => ResultTree.leaf.inj h

/-- An innermost group is about the drafts of one key on each level. -/
theorem IsArranged.innermost (h : IsArranged chooseBy levels path members items) {t : ResultTree}
    (ht : t ∈ items) {name inside : String} {shown : List Draft} (hne : shown ≠ [])
    (hw : Within (group name inside (shown.map leaf)) t) :
    ∃ keys, IsShown chooseBy (members.filter (keysOn levels · = keys)) shown := by
  induction levels generalizing path members items t with
  | nil =>
    obtain ⟨ds, -, rfl⟩ := h
    obtain ⟨d, -, rfl⟩ := List.mem_map.mp ht
    cases hw
  | cons level rest ih =>
    obtain ⟨key, inner, rfl, -, harranged⟩ := h.exists_group ht
    have hfilter (keys : List String) :
        (members.filter (level.key · = key)).filter (keysOn rest · = keys) =
          members.filter (keysOn (level :: rest) · = key :: keys) :=
      (filter_keysOn_cons level rest key keys members).symm
    cases hw with
    | inside _ _ member within =>
      obtain ⟨keys, hshown⟩ := ih harranged member within
      exact ⟨key :: keys, hfilter keys ▸ hshown⟩
    | here =>
      cases rest with
      | nil =>
        obtain ⟨ds, hshown, heq⟩ := harranged
        obtain rfl := leaves_injective heq
        refine ⟨[name], ?_⟩
        rw [← hfilter []]
        simpa [keysOn] using hshown
      | cons level' rest' =>
        -- There are groups below, and the first draft is none.
        obtain ⟨d, ds, rfl⟩ := List.exists_cons_of_ne_nil hne
        obtain ⟨_, _, hgroup, -⟩ := harranged.exists_group List.mem_cons_self
        contradiction

end Shape

/-! ## Arranging makes the shape -/

theorem isStableSort_sortByTop (ranking : String) (items : List ResultTree) :
    IsStableSort (topScore ranking) items (sortByTop ranking items) := by
  refine isStableSort_mergeSort (fun a b => ?_) items
  cases ha : a.top? with
  | none => cases hb : b.top? <;> simp [topScore, ha, hb]
  | some d =>
    cases hb : b.top? with
    | none => simp [topScore, ha, hb]
    | some e =>
      simp only [topScore, ha, hb, WithBot.coe_le_coe]
      rw [Draft.compareBy_ne_gt_iff, Draft.exactScores_cons_le_iff]
      simp [Draft.exactScores, le_iff_lt_or_eq]

section Grouping

open GroupLevel (Carries keyOn)

variable {passed : List GroupLevel} {incl : Include} {repl : Replacers} (h : Carries passed incl repl)
include h

/-- The groups of a level, one for each key. -/
theorem groupInto_cons (level : GroupLevel) (rest : List GroupLevel) :
    ∃ (incl' : Include) (repl' : Replacers), Carries (passed ++ [level]) incl' repl' ∧
      ∀ path members, groupInto (level :: rest) incl repl path members =
        (members.map (keyOn (passed ++ [level]))).eraseDups.map fun key =>
          group key (path ++ "/" ++ key) (groupInto rest incl' repl' (path ++ "/" ++ key)
            (members.filter (keyOn (passed ++ [level]) · = key))) := by
  have hcarries := h.widened level
  refine ⟨_, _, hcarries, fun path members => ?_⟩
  change (gather (members.map fun d : Draft => (Shorthand.query (level.widened incl repl).1
    (level.widened incl repl).2 d.query, d))).map (fun entry => group entry.1 (path ++ "/" ++ entry.1)
      (groupInto rest (level.widened incl repl).1 (level.widened incl repl).2 (path ++ "/" ++ entry.1) entry.2)) = _
  simp only [hcarries.query_eq, gather_eq, List.map_map, List.filter_map, Function.comp_def, List.map_id']

theorem isArranged_arrange (chooseBy : Option String) (levels : List GroupLevel) (path : String)
    (members : List Draft) (hne : levels = [] → members ≠ []) :
    IsArranged chooseBy (keyedLevels passed levels) path members
      (arrange chooseBy levels (groupInto levels incl repl path members)) := by
  induction levels generalizing passed incl repl path members with
  | nil =>
    cases chooseBy with
    | none => exact ⟨members, rfl, rfl⟩
    | some name =>
      have hsort := isStableSort_sortByTop name (members.map leaf)
      have hsorted : sortByTop name (members.map leaf) ≠ [] := by
        intro hnil
        rw [hnil] at hsort
        exact hne rfl (List.map_eq_nil_iff.mp (List.nil_perm.mp hsort.perm))
      obtain ⟨t, ts, hts⟩ := List.exists_cons_of_ne_nil hsorted
      rw [hts] at hsort
      obtain ⟨before, after, hmembers, hbefore, hafter⟩ := hsort.isEarliestBest
      obtain ⟨ds, es, rfl, rfl, hes⟩ := List.map_eq_append_iff.mp hmembers
      obtain ⟨d, es', rfl, rfl, rfl⟩ := List.map_eq_cons_iff.mp hes
      refine ⟨[d], ⟨d, ⟨ds, es', rfl, fun b hb => ?_, fun b hb => ?_⟩, rfl⟩, ?_⟩
      · exact WithBot.coe_lt_coe.mp (hbefore _ (List.mem_map_of_mem hb))
      · exact WithBot.coe_le_coe.mp (hafter _ (List.mem_map_of_mem hb))
      · change (sortByTop name ((ds ++ d :: es').map leaf)).take 1 = [leaf d]
        rw [hts]
        rfl
  | cons level rest ih =>
    obtain ⟨incl', repl', hcarries, hgroups⟩ := groupInto_cons h level rest
    rw [keyedLevels_cons, hgroups]
    refine ⟨(members.map (keyOn (passed ++ [level]))).eraseDups.map fun key => group key (path ++ "/" ++ key)
      (arrange chooseBy rest (groupInto rest incl' repl' (path ++ "/" ++ key)
        (members.filter (keyOn (passed ++ [level]) · = key)))), ?_, ?_⟩
    · rw [List.forall₂_map_right_iff, List.forall₂_same]
      intro key hkey
      obtain ⟨d, hd, rfl⟩ := List.mem_map.mp (List.mem_eraseDups.mp hkey)
      have hmember : d ∈ members.filter (keyOn (passed ++ [level]) · = keyOn (passed ++ [level]) d) :=
        List.mem_filter.mpr ⟨hd, decide_eq_true rfl⟩
      have hsome := List.ne_nil_of_mem hmember
      have harranged := ih hcarries (path ++ "/" ++ keyOn (passed ++ [level]) d) _ fun _ => hsome
      obtain ⟨top, htop, heq⟩ := harranged.exists_top hsome
      obtain ⟨hmem, hkeytop⟩ := List.mem_filter.mp htop
      exact ⟨_, rfl, ⟨top, hmem, of_decide_eq_true hkeytop, heq⟩, harranged⟩
    · simp only [arrange, List.map_map, Function.comp_def]
      cases level.orderGroupBy.or chooseBy with
      | none => rfl
      | some name => exact isStableSort_sortByTop name _

end Grouping

end ResultTree
end ChartAdvisor
