import Mathlib.Algebra.Order.Group.Int
import Mathlib.Algebra.Order.Ring.Cast
import Mathlib.Algebra.Order.Ring.Rat
import Mathlib.Data.Int.CharZero
import Mathlib.Data.Rat.Lemmas
import ChartAdvisor.Number.Binary64

/-!
# Integers among the numbers of the format

An integer of at most 53 bits needs no rounding. So products and sums are exact as long as they are such
integers.
-/
namespace ChartAdvisor
namespace Binary64

/-- How many bits a natural number below `2 ^ 53` has less than 53. -/
def headroom (m : Nat) : Nat := 52 - m.log2

theorem headroom_spec {m : Nat} (hpos : 0 < m) (hlt : m < twoTo 53) :
    twoTo 52 ≤ m * twoTo (headroom m) ∧ m * twoTo (headroom m) < twoTo 53 := by
  have hlog : m.log2 ≤ 52 := Nat.le_of_lt_succ ((Nat.log2_lt hpos.ne').mpr hlt)
  have hsum : m.log2 + headroom m = 52 := Nat.add_sub_cancel' hlog
  have hupper : m.log2 + 1 + headroom m = 53 := by omega
  constructor
  · calc twoTo 52 = twoTo m.log2 * twoTo (headroom m) := by rw [← hsum]; exact pow_add ..
      _ ≤ m * twoTo (headroom m) := Nat.mul_le_mul_right _ (Nat.log2_self_le hpos.ne')
  · calc m * twoTo (headroom m) < twoTo (m.log2 + 1) * twoTo (headroom m) :=
          Nat.mul_lt_mul_of_pos_right Nat.lt_log2_self (Nat.pow_pos (by decide))
      _ = twoTo 53 := by rw [← hupper]; exact (pow_add ..).symm

theorem scale_neg (m s : Nat) : scale m 1 (-(s : Int)) = (m * twoTo s, 1) := by
  unfold scale
  cases s with
  | zero => simp
  | succ s =>
    rw [if_neg (by omega)]
    simp

theorem exponentOf_nat {m : Nat} (hpos : 0 < m) (hlt : m < twoTo 53) :
    exponentOf m 1 = -(headroom m : Int) := by
  have hlog : m.log2 ≤ 52 := Nat.le_of_lt_succ ((Nat.log2_lt hpos.ne').mpr hlt)
  have hguess : (m.log2 : Int) - (Nat.log2 1 : Nat) - 52 = -(headroom m : Int) := by
    rw [show Nat.log2 1 = 0 by decide, headroom]
    omega
  have hbits := (headroom_spec hpos hlt).1
  unfold exponentOf
  simp only [hguess, scale_neg, Nat.mul_one, if_neg (Nat.not_lt.mpr hbits)]
  have : headroom m ≤ 52 := Nat.sub_le ..
  omega

theorem roundHalfEven_one (n : Nat) : roundHalfEven n 1 = n := by
  simp [roundHalfEven, Nat.mod_one]

theorem ratio_of_exponent {x : Binary64} {s : Nat} (h : x.exponent = -(s : Int)) :
    x.ratio = (x.mantissa, twoTo s) := by
  unfold ratio
  rw [h]
  cases s with
  | zero => simp
  | succ s =>
    rw [if_neg (by omega)]
    simp

/-- A natural number of at most 53 bits is a number of the format. -/
theorem ofRatio?_bits (negative : Bool) {m : Nat} (hpos : 0 < m) (hlt : m < twoTo 53) :
    ∃ x, ofRatio? negative m 1 = some x ∧ x.toRat = if negative then -(m : ℚ) else m := by
  obtain ⟨hlow, hhigh⟩ := headroom_spec hpos hlt
  have hhead : headroom m ≤ 52 := Nat.sub_le ..
  have hcanonical : Canonical (m * twoTo (headroom m)) (-(headroom m : Int)) :=
    .inl ⟨hlow, hhigh, by omega, by omega⟩
  refine ⟨⟨negative, _, _, hcanonical⟩, ?_, ?_⟩
  · unfold ofRatio?
    simp only [exponentOf_nat hpos hlt, scale_neg, roundHalfEven_one, dif_pos hcanonical, if_neg hpos.ne']
  · have hne : (twoTo (headroom m) : ℚ) ≠ 0 := Nat.cast_ne_zero.mpr (Nat.pow_pos (by decide)).ne'
    have hmagnitude : mkRat ((m * twoTo (headroom m) : Nat) : Int) (twoTo (headroom m)) = (m : ℚ) := by
      rw [Rat.mkRat_eq_div, Int.cast_natCast, Nat.cast_mul, mul_div_cancel_right₀ _ hne]
    unfold toRat
    rw [ratio_of_exponent rfl]
    simp only [hmagnitude]

theorem ofRatio?_nat (negative : Bool) {m : Nat} (hpos : 0 < m) (hle : m ≤ twoTo 53) :
    ∃ x, ofRatio? negative m 1 = some x ∧ x.toRat = if negative then -(m : ℚ) else m := by
  rcases Nat.lt_or_eq_of_le hle with hlt | rfl
  · exact ofRatio?_bits negative hpos hlt
  · refine ⟨⟨negative, twoTo 52, 1, by decide⟩, ?_, ?_⟩ <;> cases negative <;> decide +kernel

/-- Integers up to `2 ^ 53` are not rounded. -/
theorem toRat_ofRat_int (negativeZero : Bool) {z : Int} (h : z.natAbs ≤ twoTo 53) :
    (ofRat negativeZero (z : ℚ)).toRat = z := by
  unfold ofRat
  by_cases hz : z = 0
  · subst hz
    cases negativeZero <;> decide +kernel
  · obtain ⟨x, hx, hvalue⟩ := ofRatio?_nat (z < 0) (Int.natAbs_pos.mpr hz) h
    rw [if_neg (Int.cast_ne_zero.mpr hz), Rat.num_intCast, Rat.den_intCast, hx, Option.getD_some, hvalue]
    rcases lt_or_gt_of_ne hz with hneg | hpos
    · rw [if_pos (decide_eq_true hneg), Nat.cast_natAbs, abs_of_neg hneg, Int.cast_neg, neg_neg]
    · rw [if_neg (by simpa using hpos.le), Nat.cast_natAbs, abs_of_pos hpos]

theorem toRat_neg (x : Binary64) : x.neg.toRat = -x.toRat := by
  unfold neg toRat ratio
  cases x.negative <;> simp

section Operations

variable {x y : Binary64} {a b : Int}

theorem toRat_neg_int (hx : x.toRat = a) : x.neg.toRat = (-a : Int) := by
  rw [toRat_neg, hx, Int.cast_neg]

theorem toRat_add_int (hx : x.toRat = a) (hy : y.toRat = b) (h : (a + b).natAbs ≤ twoTo 53) :
    (x.add y).toRat = (a + b : Int) := by
  rw [add, hx, hy, ← Int.cast_add, toRat_ofRat_int _ h]

theorem toRat_mul_int (hx : x.toRat = a) (hy : y.toRat = b) (h : (a * b).natAbs ≤ twoTo 53) :
    (x.mul y).toRat = (a * b : Int) := by
  rw [mul, hx, hy, ← Int.cast_mul, toRat_ofRat_int _ h]

end Operations

end Binary64
end ChartAdvisor
