import ChartAdvisor.Proofs.Sorting
import ChartAdvisor.Ranking.Basic
import Mathlib.Algebra.Order.Ring.Rat
import Mathlib.Data.List.Lex

/-!
# The order of ranked drafts

Scores are stored under the names of their rankings, and drafts are compared by what is stored of them:
by the exact values of the totals, several totals lexicographically.
-/
namespace ChartAdvisor

theorem Ranking.name_injective : Function.Injective Ranking.name := by
  intro r s h
  cases r <;> cases s <;> first | rfl | exact absurd h (by decide)

namespace Draft

/-! ## Comparing by scores -/

/-- The exact value of the total that is stored under a name, zero where none is. -/
def exactScore (d : Draft) (name : String) : ℚ :=
  match d.scores.lookup name with
  | some score => score.total.toRat
  | none => 0

/-- The exact values of the scores under some names. -/
def exactScores (names : List String) (d : Draft) : List ℚ := names.map d.exactScore

theorem toRat_scoreOf (d : Draft) (name : String) : (d.scoreOf name).toRat = d.exactScore name := by
  unfold scoreOf exactScore
  cases d.scores.lookup name with
  | none => decide +kernel
  | some score => rfl

theorem exactScores_cons_le_iff (name : String) (rest : List String) (a b : Draft) :
    a.exactScores (name :: rest) ≤ b.exactScores (name :: rest) ↔
      a.exactScore name < b.exactScore name ∨
        a.exactScore name = b.exactScore name ∧ a.exactScores rest ≤ b.exactScores rest := by
  simp only [exactScores, List.map_cons, le_iff_lt_or_eq, List.cons_lt_cons_iff, List.cons.injEq]
  tauto

theorem exactScores_singleton_le_iff (name : String) (a b : Draft) :
    a.exactScores [name] ≤ b.exactScores [name] ↔ a.exactScore name ≤ b.exactScore name := by
  rw [exactScores_cons_le_iff]
  simp [exactScores, le_iff_lt_or_eq]

/-- Comparing by several rankings is comparing lists of exact scores. -/
theorem compareBy_ne_gt_iff (a b : Draft) (names : List String) :
    (a.compareBy b names != .gt) = true ↔ b.exactScores names ≤ a.exactScores names := by
  induction names with
  | nil => simp [compareBy, exactScores]
  | cons name rest ih =>
    rw [exactScores_cons_le_iff, ← ih]
    simp only [compareBy, Binary64.compare, toRat_scoreOf]
    rcases lt_trichotomy (b.exactScore name) (a.exactScore name) with hlt | heq | hgt
    · simp [hlt]
    · simp [heq]
    · simp [hgt.not_gt, hgt.ne']

/-- Sorting puts the drafts with higher scores first. -/
theorem isStableSort_sortBy (order : List String) (drafts : List Draft) :
    IsStableSort (exactScores order) drafts (sortBy order drafts) :=
  isStableSort_mergeSort (fun a b => a.compareBy_ne_gt_iff b order) drafts

/-! ## Stored scores -/

theorem rankings_cons_of_some {first : String} {r : Ranking}
    (h : Vocabulary.ofName? first = some r) (rest : List String) :
    rankings (first :: rest) = (rankings rest).map (r :: ·) := by
  rw [rankings, List.mapM_cons, h]
  change (rankings rest >>= fun rs => pure (r :: rs)) = _
  cases rankings rest <;> rfl

theorem rankings_cons_of_none {first : String}
    (h : (Vocabulary.ofName? first : Option Ranking) = none) (rest : List String) :
    rankings (first :: rest) = .error (.invalid "orderBy" (.unknownRanking first)) := by
  rw [rankings, List.mapM_cons, h]
  rfl

theorem name_of_rankings {names : List String} {rs : List Ranking} (h : rankings names = .ok rs)
    {name : String} (hname : name ∈ names) : ∃ r ∈ rs, r.name = name := by
  induction names generalizing rs with
  | nil => contradiction
  | cons first rest ih =>
    cases hfirst : (Vocabulary.ofName? first : Option Ranking) with
    | none => rw [rankings_cons_of_none hfirst] at h; contradiction
    | some r =>
      rw [rankings_cons_of_some hfirst] at h
      cases hrest : rankings rest with
      | error e => rw [hrest] at h; contradiction
      | ok rs' =>
        rw [hrest] at h
        obtain rfl : r :: rs' = rs := Except.ok.inj h
        rcases List.mem_cons.mp hname with rfl | hname
        · have hnamed := List.find?_some (p := fun s : Ranking => Vocabulary.name s == name) hfirst
          exact ⟨r, List.mem_cons_self, eq_of_beq hnamed⟩
        · obtain ⟨s, hs, hsname⟩ := ih hrest hname
          exact ⟨s, List.mem_cons_of_mem _ hs, hsname⟩

theorem lookup_withScores (ctx : Context) {rankings : List Ranking} {r : Ranking}
    (h : r ∈ rankings) (d : Draft) :
    (d.withScores ctx rankings).scores.lookup r.name = some (r.score ctx d) := by
  suffices ∀ found : List (String × Score),
      r ∈ rankings ∨ found.lookup r.name = some (r.score ctx d) →
      (rankings.foldl (fun ss s => Table.insert s.name (s.score ctx d) ss) found).lookup r.name =
        some (r.score ctx d) from this d.scores (.inl h)
  clear h
  induction rankings with
  | nil => exact fun found h => h.resolve_left List.not_mem_nil
  | cons s rest ih =>
    intro found h
    refine ih _ ?_
    rw [Table.lookup_insert]
    by_cases hname : r.name = s.name
    · rw [if_pos hname, Ranking.name_injective hname]
      exact .inr rfl
    · rw [if_neg hname]
      refine h.imp_left fun hmem => (List.mem_cons.mp hmem).resolve_left ?_
      rintro rfl
      exact hname rfl

theorem exactScore_of_lookup {d : Draft} {name : String} {score : Score}
    (h : d.scores.lookup name = some score) : d.exactScore name = score.total.toRat := by
  rw [exactScore, h]

/-- After scoring, every draft has a score under each of the names, and its total is what drafts are
compared by. -/
theorem stored_of_scoreAll {ctx : Context} {names : List String} {drafts scored : List Draft}
    (h : scoreAll ctx names drafts = .ok scored) :
    ∃ rs, scored = drafts.map (withScores ctx rs) ∧ ∀ name ∈ names, ∃ r : Ranking, r.name = name ∧
      ∀ d, (withScores ctx rs d).scores.lookup name = some (r.score ctx d) ∧
        (withScores ctx rs d).exactScore name = (r.score ctx d).total.toRat := by
  unfold scoreAll at h
  cases hrs : rankings names with
  | error e => rw [hrs] at h; contradiction
  | ok rs =>
    rw [hrs] at h
    refine ⟨rs, (Except.ok.inj h).symm, fun name hname => ?_⟩
    obtain ⟨r, hr, rfl⟩ := name_of_rankings hrs hname
    have hstored := lookup_withScores ctx hr
    exact ⟨r, rfl, fun d => ⟨hstored d, exactScore_of_lookup (hstored d)⟩⟩

/-- A score that is read from a draft is that of the ranking, not of another with its name. -/
theorem exactScore_of_stored {names : List String} {ctx : Context} {rankings : List Ranking}
    (stored : ∀ name ∈ names, ∃ ranking : Ranking, ranking.name = name ∧ ∀ d,
      (withScores ctx rankings d).scores.lookup name = some (ranking.score ctx d) ∧
      (withScores ctx rankings d).exactScore name = (ranking.score ctx d).total.toRat)
    (ranking : Ranking) (read : ranking.name ∈ names) (d : Draft) :
    (withScores ctx rankings d).exactScore ranking.name = (ranking.score ctx d).total.toRat := by
  obtain ⟨other, hother, hstored⟩ := stored _ read
  rw [(hstored d).2, Ranking.name_injective hother]

end Draft
end ChartAdvisor
