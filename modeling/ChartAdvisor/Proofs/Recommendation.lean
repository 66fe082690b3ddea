import ChartAdvisor.Proofs.Grouping.Partition
import ChartAdvisor.Proofs.Search.Course
import ChartAdvisor.Recommendation

/-!
# What is recommended

A recommendation shows the best of the charts that were generated: scored, put in order, cut off,
grouped, and the groups arranged. Each of these passes has its own description, and the
recommendation is described by all of them together.
-/
namespace ChartAdvisor

/-- The drafts that are left of ranked ones: no more than the results that may be shown. -/
def Config.kept (config : Config) (ranked : List Draft) : List Draft :=
  match config.maxResults with
  | some n => ranked.take n
  | none => ranked

/-- The names that decide in what order charts stand: those that are asked for or, without any, the
overall one. -/
def Request.decidingNames (r : Request) : List String :=
  if r.orderBy = [] then ["overall"] else r.orderBy

theorem Request.order_eq (r : Request) : r.order = r.decidingNames := by
  unfold order decidingNames
  cases r.orderBy <;> rfl

/-- Everything that is ordered, chosen or grouped by is scored. -/
theorem Request.mem_rankingNames {r : Request} {name : String}
    (h : name ∈ r.decidingNames ++ r.chooseBy.toList ++ r.nest.filterMap GroupLevel.orderGroupBy) :
    name ∈ r.rankingNames := by
  suffices ∀ extra names : List String, name ∈ names ++ extra →
      name ∈ extra.foldl (fun names n => if names.contains n then names else names ++ [n]) names by
    rw [← order_eq, List.append_assoc] at h
    exact this _ _ h
  intro extra
  induction extra with
  | nil => exact fun names h => by simpa using h
  | cons n rest ih =>
    intro names h
    refine ih _ ?_
    dsimp only
    split
    · next hn =>
      have hmem : n ∈ names := by simpa using hn
      rcases List.mem_append.mp h with h | h
      · exact List.mem_append_left _ h
      · rcases List.mem_cons.mp h with rfl | h
        · exact List.mem_append_left _ hmem
        · exact List.mem_append_right _ h
    · rwa [List.append_assoc]

/-- Ranking puts drafts in order, whatever it tells. -/
theorem Draft.outcome_rank (order : List String) (drafts : List Draft) :
    (rank order drafts).outcome = .ok (sortBy order drafts) := by
  cases order <;> rfl

namespace ResultTree

/-- How a tree shows the drafts that were kept for a request. -/
structure Shows (r : Request) (kept : List Draft) (t : ResultTree) : Prop where
  flat : r.nest = [] → t.drafts = kept
  complete : r.chooseBy = none → t.drafts.Perm kept
  innermost : r.nest ≠ [] → ∀ name path shown, shown ≠ [] →
    Within (group name path (shown.map leaf)) t → ∃ keys, IsShown r.chooseBy
      (kept.filter (keysOn (keyedLevels [] r.nest) · = keys)) shown
  arranged : r.nest ≠ [] → ∃ items, t = group "" "" items ∧
    IsArranged r.chooseBy (keyedLevels [] r.nest) "" kept items

theorem shows_flat {r : Request} (h : r.nest = []) (kept : List Draft) :
    Shows r kept (ofDrafts r.nest kept) := by
  have hflat : (ofDrafts r.nest kept).drafts = kept := by
    rw [h]
    exact draftsOf_leaves kept
  exact ⟨fun _ => hflat, fun _ => .of_eq hflat, fun hne => absurd h hne, fun hne => absurd h hne⟩

theorem shows_arranged {r : Request} (h : r.nest ≠ []) (kept : List Draft) :
    Shows r kept ((ofDrafts r.nest kept).arranged r.chooseBy r.nest) := by
  have harranged := isArranged_arrange GroupLevel.carries_nil r.chooseBy r.nest "" kept
    fun hnil => absurd hnil h
  refine ⟨fun hnil => absurd hnil h, fun hnone => ?_, fun _ name path shown hne hw => ?_,
    fun _ => ⟨_, rfl, harranged⟩⟩
  · rw [hnone] at harranged ⊢
    exact harranged.drafts_perm
  · generalize harrange : arrange r.chooseBy r.nest (groupInto r.nest .none [] "" kept) = items
      at harranged
    have hroot : (ofDrafts r.nest kept).arranged r.chooseBy r.nest = group "" "" items := by
      rw [← harrange]
      rfl
    rw [hroot] at hw
    cases hw with
    | inside _ _ member within => exact harranged.innermost member hne within
    | here =>
      -- The items of the root are groups.
      obtain ⟨d, ds, rfl⟩ := List.exists_cons_of_ne_nil hne
      obtain ⟨level, rest, hnest⟩ := List.exists_cons_of_ne_nil h
      rw [hnest, keyedLevels_cons] at harranged
      obtain ⟨_, _, hgroup, -⟩ := harranged.exists_group List.mem_cons_self
      contradiction

end ResultTree

/-- What is recommended are the generated charts with the scores of every ranking that is asked for, in
descending order of the totals stored for them and cut off, shown in a tree. Under every name that is
compared by stands the score of the ranking with that name. -/
theorem recommend_shows {r : Request} {schema : Schema} {result : Recommendation}
    (h : (recommend r schema).outcome = .ok result) :
    ∃ (generated : List Draft) (rankings : List Ranking) (ranked : List Draft),
      (generate r.spec ⟨schema, r.config.getD {}⟩).outcome = .ok generated ∧
      IsStableSort (Draft.exactScores r.decidingNames)
        (generated.map (Draft.withScores ⟨schema, r.config.getD {}⟩ rankings)) ranked ∧
      (∀ name ∈ r.decidingNames ++ r.chooseBy.toList ++ r.nest.filterMap GroupLevel.orderGroupBy,
        ∃ ranking : Ranking, ranking.name = name ∧ ∀ d,
          (Draft.withScores ⟨schema, r.config.getD {}⟩ rankings d).scores.lookup name =
            some (ranking.score ⟨schema, r.config.getD {}⟩ d) ∧
          (Draft.withScores ⟨schema, r.config.getD {}⟩ rankings d).exactScore name =
            (ranking.score ⟨schema, r.config.getD {}⟩ d).total.toRat) ∧
      result.result.Shows r ((r.config.getD {}).kept ranked) := by
  unfold recommend at h
  obtain ⟨_, -, h⟩ := Logged.of_outcome_bind h
  obtain ⟨_, -, h⟩ := Logged.of_outcome_bind h
  obtain ⟨generated, hgenerated, h⟩ := Logged.of_outcome_bind h
  obtain ⟨scored, hscored, h⟩ := Logged.of_outcome_bind h
  obtain ⟨ranked, hranked, h⟩ := Logged.of_outcome_bind h
  obtain ⟨_, -, h⟩ := Logged.of_outcome_bind h
  obtain ⟨_, -, h⟩ := Logged.of_outcome_bind h
  obtain rfl := Except.ok.inj h
  obtain ⟨rankings, rfl, hstored⟩ := Draft.stored_of_scoreAll hscored
  refine ⟨generated, rankings, ranked, hgenerated, ?_, fun name hname => hstored name ?_, ?_⟩
  · rw [Draft.outcome_rank, Request.order_eq] at hranked
    obtain rfl := Except.ok.inj hranked
    exact Draft.isStableSort_sortBy _ _
  · exact Request.mem_rankingNames hname
  · by_cases hnest : r.nest = []
    · have hempty : r.nest.isEmpty = true := by rw [hnest]; rfl
      simp only [hempty, if_true]
      exact ResultTree.shows_flat hnest _
    · have hempty : r.nest.isEmpty = false := by simpa using hnest
      simp only [hempty]
      exact ResultTree.shows_arranged hnest _

/-- Charts grouped by their functions, of each group the one that aggregates best, and of those that are
alike in this the most effective. -/
def bestOfFunctions : Request where
  spec := namesAndNumbers
  nest := [{ groupBy := .properties [⟨.aggregate, none⟩] }]
  orderBy := ["effectiveness"]
  chooseBy := some "aggregationQuality"
  config := some { stylize := false }

/-- The charts of names and numbers in the order in which they are found: their texts, the groups to which
they belong, how effective they are and how well they aggregate. -/
def chartsOfNamesAndNumbers : List (String × String × ℚ × ℚ) := [
  ("point|x:N,n|y:mean(Q,q)", "...|mean(...)",
    (Binary64.ofThousandths (-10)).toRat, (Binary64.ofThousandths 900).toRat),
  ("point|x:mean(Q,q)|y:N,n", "...|mean(...)", 0, (Binary64.ofThousandths 900).toRat),
  ("point|x:N,n|y:Q,q", "...|...", (Binary64.ofThousandths (-10)).toRat, 1),
  ("point|x:Q,q|y:N,n", "...|...", 0, 1)]

theorem scored_namesAndNumbers {ctx : Context} {generated : List Draft} {rankings : List Ranking}
    (hctx : ctx = ⟨Draft.threeFields, { stylize := false }⟩)
    (hgenerated : (generate namesAndNumbers ctx).outcome = .ok generated)
    (heffectiveness : ∀ d : Draft, (d.withScores ctx rankings).exactScore "effectiveness" =
      (Ranking.effectiveness.score ctx d).total.toRat)
    (hquality : ∀ d : Draft, (d.withScores ctx rankings).exactScore "aggregationQuality" =
      (Ranking.aggregationQuality.score ctx d).total.toRat) :
    (generated.map (Draft.withScores ctx rankings)).map (fun d =>
      (d.shorthand, GroupLevel.keyOn bestOfFunctions.nest d,
        d.exactScore "effectiveness", d.exactScore "aggregationQuality")) = chartsOfNamesAndNumbers := by
  subst hctx
  have hvalues : ((generate namesAndNumbers ⟨Draft.threeFields, { stylize := false }⟩).outcome.map
      (·.map fun d => (d.shorthand, GroupLevel.keyOn bestOfFunctions.nest d,
        (Ranking.effectiveness.score ⟨Draft.threeFields, { stylize := false }⟩ d).total.toRat,
        (Ranking.aggregationQuality.score ⟨Draft.threeFields, { stylize := false }⟩ d).total.toRat))).toOption =
      some chartsOfNamesAndNumbers := by
    simp only [Draft.shorthand, ChartQuery.shorthand, GroupLevel.keyOn, Shorthand.query,
      Shorthand.sorted_eq_insertionSort]
    decide +kernel
  rw [hgenerated] at hvalues
  rw [List.map_map, ← Option.some.inj hvalues]
  refine List.map_congr_left fun d _ => ?_
  rw [Function.comp_apply, heffectiveness, hquality]
  rfl

/-- With numbers on `x` a chart is more effective, and with raw numbers it aggregates better. So these two
are shown, the raw one first. -/
theorem recommend_shows_bestOfFunctions :
    ∃ (result : Recommendation) (kept : List Draft) (raw mean : Draft),
      (recommend bestOfFunctions Draft.threeFields).outcome = .ok result ∧
      result.result.Shows bestOfFunctions kept ∧
      kept.map Draft.shorthand = ["point|x:mean(Q,q)|y:N,n", "point|x:Q,q|y:N,n",
        "point|x:N,n|y:mean(Q,q)", "point|x:N,n|y:Q,q"] ∧
      result.result = .group "" "" [
        .group "...|..." "/...|..." [.leaf raw], .group "...|mean(...)" "/...|mean(...)" [.leaf mean]] ∧
      raw.shorthand = "point|x:Q,q|y:N,n" ∧ mean.shorthand = "point|x:mean(Q,q)|y:N,n" := by
  obtain ⟨result, hresult⟩ : ∃ result,
    (recommend bestOfFunctions Draft.threeFields).outcome = .ok result := ⟨_, rfl⟩
  obtain ⟨generated, rankings, kept, hgenerated, hsort, hstored, hshows⟩ := recommend_shows hresult
  have hvalues := scored_namesAndNumbers rfl hgenerated
    (Draft.exactScore_of_stored hstored .effectiveness (by decide))
    (Draft.exactScore_of_stored hstored .aggregationQuality (by decide))
  rw [chartsOfNamesAndNumbers] at hvalues
  change IsStableSort _ (generated.map (Draft.withScores ⟨Draft.threeFields, { stylize := false }⟩ _)) _
    at hsort
  generalize generated.map (Draft.withScores ⟨Draft.threeFields, { stylize := false }⟩ rankings) = scored
    at hsort hvalues
  obtain ⟨a, b, c, d, rfl⟩ := List.length_eq_four.mp (by simpa using congrArg List.length hvalues)
  simp only [List.map_cons, List.map_nil, List.cons.injEq, Prod.mk.injEq, and_true] at hvalues
  obtain ⟨⟨hatext, hakey, haeff, haq⟩, ⟨hbtext, hbkey, hbeff, hbq⟩, ⟨hctext, hckey, hceff, hcq⟩,
    hdtext, hdkey, hdeff, hdq⟩ := hvalues
  have hlower : (Binary64.ofThousandths (-10)).toRat < 0 := by decide +kernel
  have hkept : kept = [b, d, a, c] := by
    rw [hsort.eq_insertionSort]
    change [a, b, c, d].insertionSort
      (fun x y => y.exactScores ["effectiveness"] ≤ x.exactScores ["effectiveness"]) = _
    simp [List.orderedInsert, Draft.exactScores_singleton_le_iff, haeff, hbeff, hceff, hdeff, hlower.not_ge]
  obtain ⟨items, hitems, harranged⟩ := hshows.arranged (List.cons_ne_nil _ _)
  change ResultTree.IsArranged _ [⟨GroupLevel.keyOn bestOfFunctions.nest, none⟩] "" kept items at harranged
  rw [hkept] at harranged
  obtain ⟨appearing, hgroups, hsorted⟩ := harranged.chosen
  simp only [List.map_cons, List.map_nil, hakey, hbkey, hckey, hdkey] at hgroups
  rw [show ["...|mean(...)", "...|...", "...|mean(...)", "...|..."].eraseDups = ["...|mean(...)", "...|..."]
    by decide +kernel] at hgroups
  obtain _ | ⟨⟨mean, hmean, rfl⟩, _ | ⟨⟨raw, hraw, rfl⟩, _ | _⟩⟩ := hgroups
  -- In each group they are alike in how well they aggregate, so that the earlier one is chosen.
  have hmeans : [b, d, a, c].filter (GroupLevel.keyOn bestOfFunctions.nest · = "...|mean(...)") = [b, a] := by
    simp [hakey, hbkey, hckey, hdkey]
  have hraws : [b, d, a, c].filter (GroupLevel.keyOn bestOfFunctions.nest · = "...|...") = [d, c] := by
    simp [hakey, hbkey, hckey, hdkey]
  obtain rfl : mean = b := hmean.unique ⟨[], [a], hmeans, by simp, by simp [haq, hbq]⟩
  obtain rfl : raw = d := hraw.unique ⟨[], [c], hraws, by simp, by simp [hcq, hdq]⟩
  have htop (d : Draft) (name path : String) : ResultTree.topScore "aggregationQuality"
      (.group name path [.leaf d]) = (d.exactScore "aggregationQuality" : ℚ) := rfl
  have hworse : (Binary64.ofThousandths 900).toRat < 1 := by decide +kernel
  have hsorted := hsorted.eq_insertionSort
  simp only [Option.getD_none, List.insertionSort_cons, List.insertionSort_nil, List.orderedInsert, htop, hbq,
    hdq, WithBot.coe_le_coe, hworse.not_ge, if_false] at hsorted
  refine ⟨result, kept, raw, mean, hresult, hshows, ?_, ?_, hdtext, hbtext⟩
  · rw [hkept, List.map_cons, List.map_cons, List.map_cons, List.map_singleton, hbtext, hdtext, hatext, hctext]
  · rw [hitems, hsorted]
    rfl

end ChartAdvisor
