import ChartAdvisor.Number.Decimal

/-!
# Scores

A score is the sum of its features, each a reason with a number. Sums are rounded after each
addition, in the order of the features.
-/
namespace ChartAdvisor

/-- One reason for a score. -/
structure Feature where
  kind : String
  text : String
  score : Binary64
deriving DecidableEq

/-- A sum with the reasons that add up to it. -/
structure Score where
  total : Binary64
  features : List Feature
deriving DecidableEq

namespace Score

/-- The score without features, a positive zero. -/
def empty : Score := ⟨.zero false, []⟩

/-- Sums up features. The sum starts from the negative zero, the neutral element of addition. -/
def ofFeatures (features : List Feature) : Score where
  total := features.foldl (fun sum f => sum.add f.score) (.zero true)
  features := features

end Score

/-- The number nearest to a count of thousandths. -/
def Binary64.ofThousandths (n : Int) : Binary64 := .ofRat false (mkRat n 1000)

end ChartAdvisor
