import Mathlib.Algebra.BigOperators.Group.List.Basic
import Mathlib.Algebra.Order.Ring.Rat
import ChartAdvisor.Proofs.Pointwise
import ChartAdvisor.Proofs.Table
import ChartAdvisor.Ranking.Basic

/-!
# The best channel of each definition

Encodings that show one thing, by their definition, count once, by the best of their channels. So what
the channels are worth depends on the definitions only through which of them are the same. A definition
that is on an axis is worth nothing more or less, whatever else it is on.
-/
namespace ChartAdvisor

/-- The exact sum of the numbers of some features. -/
def Feature.exactSum (features : List Feature) : ℚ := (features.map fun f => f.score.toRat).sum

theorem Feature.exactSum_append (fs gs : List Feature) :
    exactSum (fs ++ gs) = exactSum fs + exactSum gs := by
  simp [exactSum]

namespace Effectiveness

/-! ## The best of several -/

/-- The first of those with the highest number. -/
def best : List (Int × String) → Int × String
  | [] => default
  | v :: rest => rest.foldl (fun b v => if v.1 ≤ b.1 then b else v) v

theorem best_singleton (v : Int × String) : best [v] = v := rfl

theorem best_concat {vs : List (Int × String)} (hne : vs ≠ []) (v : Int × String) :
    best (vs ++ [v]) = if v.1 ≤ (best vs).1 then best vs else v := by
  cases vs with
  | nil => contradiction
  | cons u rest => exact List.foldl_append ..

theorem best_mem {vs : List (Int × String)} (hne : vs ≠ []) : best vs ∈ vs := by
  induction vs using List.reverseRecOn with
  | nil => contradiction
  | append_singleton vs v ih =>
    by_cases hvs : vs = []
    · simp [hvs, best_singleton]
    · rw [best_concat hvs]
      split
      · exact List.mem_append_left _ (ih hvs)
      · simp

theorem le_best {vs : List (Int × String)} {v : Int × String} (hv : v ∈ vs) : v.1 ≤ (best vs).1 := by
  induction vs using List.reverseRecOn with
  | nil => contradiction
  | append_singleton vs u ih =>
    by_cases hvs : vs = []
    · subst hvs
      rw [List.mem_singleton.mp hv]
      exact le_rfl
    · rw [best_concat hvs]
      rcases List.mem_append.mp hv with hv | hv
      · split
        · exact ih hv
        · next hlt => exact (ih hv).trans (le_of_lt (not_le.mp hlt))
      · obtain rfl := List.mem_singleton.mp hv
        split
        · assumption
        · exact le_rfl

/-! ## One entry for each key -/

section Keyed

variable {α : Type} (key : α → String) (value : α → Int × String)

/-- The best of what stands under a key. -/
def bestUnder (l : List α) (k : String) : Int × String := best ((l.filter (key · = k)).map value)

/-- One step of the search for the best: what is new under its key, or better, goes into the table. -/
def keepBest (found : List (String × Int × String)) (a : α) : List (String × Int × String) :=
  match found.lookup (key a) with
  | some (other, _) => if (value a).1 ≤ other then found else Table.put (key a) (value a) found
  | none => Table.put (key a) (value a) found

theorem bestUnder_concat_self {l : List α} {a : α} (h : key a ∈ l.map key) :
    bestUnder key value (l ++ [a]) (key a) =
      if (value a).1 ≤ (bestUnder key value l (key a)).1 then bestUnder key value l (key a)
      else value a := by
  have hne : (l.filter (key · = key a)).map value ≠ [] := by
    obtain ⟨b, hb, heq⟩ := List.mem_map.mp h
    refine fun hnil => List.not_mem_nil (a := value b) ?_
    rw [← hnil]
    exact List.mem_map_of_mem (List.mem_filter.mpr ⟨hb, decide_eq_true heq⟩)
  have hsplit : ((l ++ [a]).filter (key · = key a)).map value =
      (l.filter (key · = key a)).map value ++ [value a] := by
    simp [List.filter_append]
  rw [bestUnder, hsplit]
  exact best_concat hne _

theorem bestUnder_concat_new {l : List α} {a : α} (h : key a ∉ l.map key) :
    bestUnder key value (l ++ [a]) (key a) = value a := by
  have hnil : l.filter (key · = key a) = [] := by
    refine List.filter_eq_nil_iff.mpr fun b hb heq => h ?_
    exact List.mem_map.mpr ⟨b, hb, of_decide_eq_true heq⟩
  simp [bestUnder, List.filter_append, hnil, best_singleton]

theorem bestUnder_concat_ne (l : List α) {a : α} {k : String} (h : k ≠ key a) :
    bestUnder key value (l ++ [a]) k = bestUnder key value l k := by
  simp [bestUnder, List.filter_append, h.symm]

/-- The search keeps one entry for each key, in the order in which keys first appear, with the best of
what stands under it. -/
theorem foldl_keepBest (l : List α) : l.foldl (keepBest key value) [] =
    (l.map key).eraseDups.map fun k => (k, bestUnder key value l k) := by
  induction l using List.reverseRecOn with
  | nil => rfl
  | append_singleton l a ih =>
    have hmem : (l.map key).contains (key a) = decide (key a ∈ (l.map key).eraseDups) := by
      rw [Bool.eq_iff_iff]
      simp
    rw [List.foldl_append, List.foldl_cons, List.foldl_nil, ih, List.map_append, List.map_singleton,
      eraseDups_concat, hmem]
    unfold keepBest
    rw [Table.lookup_map_self]
    by_cases hk : key a ∈ (l.map key).eraseDups
    · have hself := bestUnder_concat_self key value (List.mem_eraseDups.mp hk)
      simp only [hk, if_true, decide_true, Table.put_map_self]
      split
      · next hle =>
        refine List.map_congr_left fun k _ => ?_
        by_cases heq : k = key a
        · rw [heq, hself, if_pos hle]
        · rw [bestUnder_concat_ne key value l heq]
      · next hlt =>
        refine List.map_congr_left fun k _ => ?_
        by_cases heq : k = key a
        · rw [heq, if_pos rfl, hself, if_neg hlt]
        · rw [if_neg heq, bestUnder_concat_ne key value l heq]
    · have hself := bestUnder_concat_new key value (fun h => hk (List.mem_eraseDups.mpr h))
      simp only [hk, if_false, decide_false, Bool.false_eq_true, Table.put_map_self]
      refine List.map_congr_left fun k _ => ?_
      by_cases heq : k = key a
      · rw [heq, if_pos rfl, hself]
      · rw [if_neg heq, bestUnder_concat_ne key value l heq]

end Keyed

/-! ## What depends on which keys are the same -/

section Sharing

variable {α β : Type} (key key' : α → String) (value : α → Int × String) {l : List α}

/-- Under two keys that are the same for the same members, as far as the members matter, the best ones
that matter are the same, in one order. -/
theorem filterMap_bestUnder_congr (matters : α → Prop) (read : Int × String → Option β)
    (hshare : ∀ a ∈ l, matters a → ∀ b ∈ l, key a = key b ↔ key' a = key' b)
    (hnone : ∀ a ∈ l, ¬matters a → read (bestUnder key value l (key a)) = none ∧
      read (bestUnder key' value l (key' a)) = none) :
    (l.map key).eraseDups.filterMap (fun k => read (bestUnder key value l k)) =
      (l.map key').eraseDups.filterMap fun k => read (bestUnder key' value l k) := by
  -- By induction on the members up to some point; what stands under a key is told by all of them.
  suffices ∀ p : List α, (∀ a ∈ p, a ∈ l) →
      (p.map key).eraseDups.filterMap (fun k => read (bestUnder key value l k)) =
        (p.map key').eraseDups.filterMap fun k => read (bestUnder key' value l k) from
    this l fun _ h => h
  intro p
  induction p using List.reverseRecOn with
  | nil => exact fun _ => rfl
  | append_singleton p a ih =>
    intro hp
    have ha : a ∈ l := hp a (by simp)
    have hrest : ∀ b ∈ p, b ∈ l := fun b hb => hp b (List.mem_append_left _ hb)
    rw [List.map_append, List.map_append, List.map_singleton, List.map_singleton, eraseDups_concat,
      eraseDups_concat, apply_ite (List.filterMap _), apply_ite (List.filterMap _),
      List.filterMap_append, List.filterMap_append, ih hrest]
    by_cases hm : matters a
    · have hsame : ((p.map key).contains (key a)) = ((p.map key').contains (key' a)) := by
        rw [Bool.eq_iff_iff, List.contains_iff_mem, List.contains_iff_mem, List.mem_map, List.mem_map]
        refine exists_congr fun b => and_congr_right fun hb => ?_
        rw [eq_comm, hshare a ha hm b (hrest b hb), eq_comm]
      have hunder : bestUnder key value l (key a) = bestUnder key' value l (key' a) := by
        unfold bestUnder
        refine congrArg (fun vs => best (vs.map value)) (List.filter_congr fun b hb => ?_)
        rw [decide_eq_decide, eq_comm, hshare a ha hm b hb, eq_comm]
      simp only [hsame, List.filterMap_cons, List.filterMap_nil, hunder]
    · obtain ⟨hk, hk'⟩ := hnone a ha hm
      simp only [List.filterMap_cons, List.filterMap_nil, hk, hk', List.append_nil, ite_self]

/-- What is worth most under a key is worth what it is worth at most. -/
theorem bestUnder_eq_zero (hle : ∀ b ∈ l, (value b).1 ≤ 0) {a : α} (ha : a ∈ l) (hzero : (value a).1 = 0) :
    (bestUnder key value l (key a)).1 = 0 := by
  have hmem : value a ∈ (l.filter (key · = key a)).map value :=
    List.mem_map_of_mem (List.mem_filter.mpr ⟨ha, by simp⟩)
  obtain ⟨b, hb, hbest⟩ := List.mem_map.mp (best_mem (List.ne_nil_of_mem hmem))
  refine le_antisymm ?_ (hzero ▸ le_best hmem)
  rw [bestUnder, ← hbest]
  exact hle b (List.mem_filter.mp hb).1

end Sharing

/-! ## Mappings -/

/-- An encoding that shows data, with their type and its channel. -/
abbrev Mapping := Encoding × ExtendedType × Channel

/-- The text by which it is told whether two encodings show one thing. -/
def definitionOf (m : Mapping) : String := Shorthand.definition Include.all [] m.1 none

/-- What a channel is worth for data of a type, with the reason. -/
def worth (m : Mapping) : Int × String := (m.2.1.channelScore m.2.2, typeAndChannel m.2.1 m.2.2)

/-- One reason for each key, with the best of what stands under it. -/
def bestFeatures {α : Type} (key : α → String) (value : α → Int × String) (l : List α) : List Feature :=
  (l.map key).eraseDups.map fun k =>
    feature "typeChannel" (bestUnder key value l k).2 (bestUnder key value l k).1

/-- Each definition counts once, by the best channel it is on. -/
theorem typeChannel_eq (d : Draft) :
    typeChannel d = bestFeatures definitionOf worth (typedChannels d) := by
  have hfold := foldl_keepBest definitionOf worth (typedChannels d)
  show ((typedChannels d).foldl (keepBest definitionOf worth) []).map
    (fun x => feature "typeChannel" x.2.2 x.2.1) = _
  rw [hfold, List.map_map]
  rfl

theorem bestFeatures_map {α γ : Type} (key : α → String) (value : α → Int × String) (f : γ → α) (l : List γ) :
    bestFeatures key value (l.map f) = bestFeatures (key ∘ f) (value ∘ f) l := by
  have hunder (k : String) : bestUnder key value (l.map f) k = bestUnder (key ∘ f) (value ∘ f) l k := by
    unfold bestUnder
    rw [List.filter_map, List.map_map]
    rfl
  unfold bestFeatures
  simp only [hunder, List.map_map]

theorem bestFeatures_congr {α : Type} (key : α → String) {value value' : α → Int × String} {l : List α}
    (h : ∀ a ∈ l, value a = value' a) : bestFeatures key value l = bestFeatures key value' l := by
  have hunder (k : String) : bestUnder key value l k = bestUnder key value' l k :=
    congrArg best (List.map_congr_left fun a ha => h a (List.mem_filter.mp ha).1)
  unfold bestFeatures
  simp only [hunder]

/-- The reason that something is worth anything. -/
def weighty (v : Int × String) : Option Feature :=
  if v.1 = 0 then none else some (feature "typeChannel" v.2 v.1)

theorem weighty_of_eq_zero {v : Int × String} (h : v.1 = 0) : weighty v = none := if_pos h

/-- What is worth nothing does not change a sum. -/
theorem exactSum_bestFeatures {α : Type} (key : α → String) (value : α → Int × String) (l : List α) :
    Feature.exactSum (bestFeatures key value l) =
      Feature.exactSum ((l.map key).eraseDups.filterMap fun k => weighty (bestUnder key value l k)) := by
  unfold bestFeatures Feature.exactSum
  generalize (l.map key).eraseDups = keys
  induction keys with
  | nil => rfl
  | cons k rest ih =>
    have hzero : (Binary64.ofThousandths 0).toRat = 0 := by decide +kernel
    rw [List.map_cons, List.map_cons, List.sum_cons, ih, List.filterMap_cons]
    by_cases hk : (bestUnder key value l k).1 = 0
    · simp [weighty_of_eq_zero hk, feature, hk, hzero]
    · simp [weighty, hk]

/-- No channel is worth more than an axis. -/
theorem channelScore_nonpos (t : ExtendedType) (c : Channel) : t.channelScore c ≤ 0 := by
  cases t <;> cases c <;> decide

theorem channelScore_axis (t : ExtendedType) {c : Channel} (hc : c.isPositional = true) :
    t.channelScore c = 0 := by
  cases c <;> first | contradiction | (cases t <;> rfl)

theorem worth_nonpos (m : Mapping) : (worth m).1 ≤ 0 := channelScore_nonpos m.2.1 m.2.2

/-! ## Drafts that share alike -/

/-- Each mapping of a draft beside that of another draft, in their order. -/
def sideBySide (d d' : Draft) : List (Mapping × Mapping) := (typedChannels d).zip (typedChannels d')

/-- The mappings of two drafts pair off, with the same types on the same channels. -/
def SameChannels (d d' : Draft) : Prop :=
  List.Forall₂ (fun m m' : Mapping => m.2 = m'.2) (typedChannels d) (typedChannels d')

/-- Off the axes, two mappings of a draft share a definition if and only if they do in another draft. -/
def SharesOffAxes (d d' : Draft) : Prop :=
  ∀ m ∈ sideBySide d d', m.1.2.2.isPositional = false → ∀ n ∈ sideBySide d d',
    definitionOf m.1 = definitionOf n.1 ↔ definitionOf m.2 = definitionOf n.2

/-- Two mappings of a draft share a definition if and only if they do in another draft. -/
def Shares (d d' : Draft) : Prop :=
  ∀ m ∈ sideBySide d d', ∀ n ∈ sideBySide d d',
    definitionOf m.1 = definitionOf n.1 ↔ definitionOf m.2 = definitionOf n.2

instance (d d' : Draft) : Decidable (SharesOffAxes d d') := by unfold SharesOffAxes; infer_instance

instance (d d' : Draft) : Decidable (Shares d d') := by unfold Shares; infer_instance

section SameChannels

variable {d d' : Draft} (h : SameChannels d d')
include h

theorem SameChannels.unzip : typedChannels d = (sideBySide d d').map Prod.fst ∧
    typedChannels d' = (sideBySide d d').map Prod.snd := by
  unfold sideBySide
  have hlen := h.length_eq
  exact ⟨(List.map_fst_zip (le_of_eq hlen)).symm, (List.map_snd_zip (le_of_eq hlen.symm)).symm⟩

theorem SameChannels.worth_eq {m : Mapping × Mapping} (hm : m ∈ sideBySide d d') : worth m.2 = worth m.1 := by
  have hsame := (List.forall₂_iff_zip.mp h).2 hm
  unfold worth
  rw [hsame]

/-- What channels are worth in two drafts, read off side by side. -/
theorem SameChannels.typeChannel_eq :
    typeChannel d = bestFeatures (definitionOf ∘ Prod.fst) (worth ∘ Prod.fst) (sideBySide d d') ∧
    typeChannel d' = bestFeatures (definitionOf ∘ Prod.snd) (worth ∘ Prod.fst) (sideBySide d d') := by
  obtain ⟨hd, hd'⟩ := h.unzip
  constructor
  · rw [Effectiveness.typeChannel_eq, hd, bestFeatures_map]
  · rw [Effectiveness.typeChannel_eq, hd', bestFeatures_map]
    exact bestFeatures_congr _ fun m hm => h.worth_eq hm

/-- Channels are worth the same in drafts that share alike. -/
theorem SameChannels.typeChannel_congr (hs : Shares d d') : typeChannel d = typeChannel d' := by
  obtain ⟨hd, hd'⟩ := h.typeChannel_eq
  have hsame := filterMap_bestUnder_congr (definitionOf ∘ Prod.fst) (definitionOf ∘ Prod.snd)
    (worth ∘ Prod.fst) (fun _ => True) (fun v => some (feature "typeChannel" v.2 v.1))
    (fun m hm _ n hn => hs m hm n hn) (fun _ _ hm => absurd trivial hm)
  rw [hd, hd']
  simpa only [bestFeatures, List.filterMap_eq_map'] using hsame

/-- Channels are worth as much in drafts that share alike off the axes. -/
theorem SameChannels.exactSum_typeChannel (hs : SharesOffAxes d d') :
    Feature.exactSum (typeChannel d) = Feature.exactSum (typeChannel d') := by
  obtain ⟨hd, hd'⟩ := h.typeChannel_eq
  have hle : ∀ m ∈ sideBySide d d', ((worth ∘ Prod.fst) m).1 ≤ 0 := fun m _ => worth_nonpos m.1
  have hsame := filterMap_bestUnder_congr (definitionOf ∘ Prod.fst) (definitionOf ∘ Prod.snd)
    (worth ∘ Prod.fst) (fun m => m.1.2.2.isPositional = false) weighty
    (fun m hm hoff n hn => hs m hm hoff n hn) fun m hm hon => by
      have hzero : ((worth ∘ Prod.fst) m).1 = 0 := channelScore_axis _ (by simpa using hon)
      exact ⟨weighty_of_eq_zero (bestUnder_eq_zero _ _ hle hm hzero),
        weighty_of_eq_zero (bestUnder_eq_zero _ _ hle hm hzero)⟩
  rw [hd, hd', exactSum_bestFeatures, exactSum_bestFeatures, hsame]

end SameChannels

end Effectiveness
end ChartAdvisor
