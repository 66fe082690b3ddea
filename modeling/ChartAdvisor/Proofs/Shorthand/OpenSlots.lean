import ChartAdvisor.Proofs.Shorthand.RoundTrip

/-!
# Open slots that read back

An open slot is written in one of four ways: as a mark with a list behind it in place of a word, in an
object before the parentheses of a function, behind the key of a parameter, or inside the JSON of a
parameter. From each of them it is read with its candidates in their order, and a switch that is open
keeps the settings it has.

Two ways lose something. A list of two candidates in place of a field or a type is cut at its comma, and
a switch without candidates is not written beside settings, so that it is read as switched on.
-/
namespace ChartAdvisor

open Shorthand

namespace ChartQuery

/-- The shorthand of a transparent query reads back as the query with all its open slots, up to the
order of its encodings and its auto counts. -/
theorem ofShorthand_shorthand_open {q : ChartQuery} (h : q.IsTransparent) (data : q.data = none)
    (config : q.config = none) :
    ∃ encodings, ofShorthand q.shorthand = .ok { q with encodings } ∧
      encodings.Perm (q.active.map Encoding.reread) ∧
      ((∀ c b, .autoCount c b ∉ q.encodings) → encodings.Perm q.encodings) := by
  refine ⟨q.reread.encodings, ?_, q.perm_reread, fun hcount => ?_⟩
  · have hreread : q.reread = { q with encodings := q.reread.encodings } := by
      rw [data, config]
      rfl
    rw [h.ofShorthand_eq, ← hreread]
  · have hactive : q.active = q.encodings := by
      refine List.filter_eq_self.mpr fun e he => ?_
      cases e with
      | field | value => rfl
      | autoCount c b => exact absurd he (hcount c b)
    have hsame : q.encodings.map Encoding.reread = q.encodings := by
      refine (List.map_congr_left fun e he => ?_).trans (List.map_id _)
      cases e with
      | field | value => rfl
      | autoCount c b => exact absurd he (hcount c b)
    have hperm := q.perm_reread
    rwa [hactive, hsame] at hperm

/-- A query in which nearly everything is open, written in all four ways. -/
def manyWays : ChartQuery where
  mark := .wild (.ofCandidates [.point, .bar])
  encodings := [
    .field {
      channel := .wild (.ofCandidates [.x, .y])
      aggregate := .wild (.ofCandidates [none, some .mean])
      hasFunction := true
      bin := some (.wild .short { maxbins := some (.wild (.ofCandidates [5, 10])) })
      scale := some (.wild (.ofCandidates [false, true]) { zero := some (.wild .short) })
      sort := some (.wild (.ofCandidates [.order .ascending, .order .descending]))
      field := .wild .short
      type := .wild (.ofCandidates [.quantitative]) },
    .value (.fixed .color) (.wild (.ofCandidates [.text "red", .text "blue"]))]

theorem isTransparent_manyWays : manyWays.IsTransparent where
  mark w hw := by
    obtain rfl := Slot.wild.inj hw
    rfl
  transform _ h := absurd h (Option.not_mem_none _)
  encodings e he := by
    have he := (List.mem_filter.mp he).1
    simp only [manyWays, List.mem_cons, List.not_mem_nil, or_false] at he
    rcases he with rfl | rfl
    · refine {
        channel := fun w hw => by cases hw; rfl
        field := fun _ hn => by cases hn
        fields := fun w hw => ?_
        type := fun w hw => ?_
        hasFunction := fun _ => rfl
        aggregate := fun w hw => by cases hw; rfl
        aggregateName := by decide
        timeUnit := Slot.isNameless_of_closed rfl
        bin := fun t ht => ?_
        single := by decide
        scale := fun t ht => ?_
        sort := fun s hs w hw => ?_
        axis := fun _ h => absurd h (Option.not_mem_none _)
        legend := fun _ h => absurd h (Option.not_mem_none _) }
      · cases hw
        exact ⟨⟨rfl, fun _ h => absurd h (Option.not_mem_none _)⟩,
          fun _ h => absurd h (Option.not_mem_none _)⟩
      · cases hw
        exact ⟨rfl, fun vs hvs => by cases hvs; decide⟩
      · cases ht
        refine .inr ⟨_, _, rfl, rfl, fun s hs w hw => ?_, fun p v hv => ?_⟩
        · cases hs
          cases hw
          rfl
        · cases p with
          | maxbins =>
            cases hv
            refine ⟨.object (List.pairwise_singleton _ _) fun m hm => ?_,
              fun _ h => absurd h Json.noConfusion⟩
            obtain rfl := List.mem_singleton.mp hm
            refine .list fun n hn => ?_
            obtain ⟨count, -, rfl⟩ := List.mem_map.mp hn
            exact legible_encode count _
          | _ => contradiction
      · cases ht
        refine ⟨rfl, fun p v hv => ?_, fun _ => rfl⟩
        cases p with
        | zero =>
          cases hv
          exact ⟨.text _, fun _ h => by cases h⟩
        | _ => contradiction
      · cases hs
        cases hw
        rfl
    · refine ⟨Slot.isNameless_of_closed rfl, rfl, fun vs hvs v hv => ?_⟩
      cases hvs
      simp only [List.mem_cons, List.not_mem_nil, or_false] at hv
      rcases hv with rfl | rfl <;> exact .text _

theorem ofShorthand_shorthand_open_manyWays :
    ∃ encodings, ofShorthand manyWays.shorthand = .ok { manyWays with encodings } ∧
      encodings.Perm manyWays.encodings := by
  obtain ⟨encodings, hread, -, hperm⟩ := ofShorthand_shorthand_open isTransparent_manyWays rfl rfl
  exact ⟨encodings, hread, hperm fun c b h => by simp [manyWays] at h⟩

/-! ## What does not read back -/

/-- A quantity of either name on one axis. -/
def eitherField : ChartQuery where
  mark := .fixed .point
  encodings := [.field {
    channel := .fixed .x
    field := .wild (.ofCandidates ["Q", "R"])
    type := .fixed .quantitative }]

/-- A quantity on one axis whose scale does not start at zero if it has one. -/
def withScale (scale : Scale → Toggle Scale) : ChartQuery where
  mark := .fixed .point
  encodings := [.field {
    channel := .fixed .x
    scale := some (scale { zero := some (.fixed false) })
    field := .fixed "Q"
    type := .fixed .quantitative }]

theorem isTransparent_withScale_on : (withScale .on).IsTransparent where
  mark := Slot.isNameless_of_closed rfl
  transform _ h := absurd h (Option.not_mem_none _)
  encodings e he := by
    obtain rfl := List.mem_singleton.mp (List.mem_filter.mp he).1
    refine {
      channel := Slot.isNameless_of_closed rfl
      field := fun n hn => ?_
      fields := fun _ hw => by cases hw
      type := fun _ hw => by cases hw
      hasFunction := id
      aggregate := Slot.isNameless_of_closed rfl
      aggregateName := by decide
      timeUnit := Slot.isNameless_of_closed rfl
      bin := fun _ h => absurd h (Option.not_mem_none _)
      single := by decide
      scale := fun t ht => ?_
      sort := fun _ h => absurd h (Option.not_mem_none _)
      axis := fun _ h => absurd h (Option.not_mem_none _)
      legend := fun _ h => absurd h (Option.not_mem_none _) }
    · cases hn
      simp [IsPlainName]
    · cases ht
      refine ⟨fun p v hv => ?_, fun h => ?_⟩
      · cases p with
        | zero =>
          cases hv
          exact ⟨.bool false, fun x hx => by cases hx; exact ⟨id, Json.noConfusion⟩⟩
        | _ => contradiction
      · exact absurd h (by decide)

/-- The second candidate for a field is cut off, and an open switch is read as on. -/
theorem ofShorthand_shorthand_open_limits :
    ofShorthand eitherField.shorthand = .error (.badJson "[\"Q\"" .malformed) ∧
      ofShorthand (withScale (.wild .short)).shorthand = .ok (withScale .on) ∧
      withScale (.wild .short) ≠ withScale .on := by
  refine ⟨?_, ?_, by decide⟩
  · have hone : eitherField.shorthand = "point|x:?[\"Q\",\"R\"],q" := by
      have hencodings : (Shorthand.encodings Include.all [] eitherField).filter (!·.isEmpty) =
          ["x:?[\"Q\",\"R\"],q"] := by decide +kernel
      unfold shorthand query
      rw [hencodings, List.mergeSort_singleton]
      decide +kernel
    rw [hone]
    decide +kernel
  · have hsame : (withScale (.wild .short)).shorthand = (withScale .on).shorthand := rfl
    have hordered : (withScale .on).writtenInOrder = (withScale .on).written :=
      List.mergeSort_of_pairwise (List.pairwise_singleton _ _)
    have hreread : (withScale .on).reread = withScale .on := by
      rw [reread, hordered]
      rfl
    rw [hsame, isTransparent_withScale_on.ofShorthand_eq, hreread]

end ChartQuery
end ChartAdvisor
