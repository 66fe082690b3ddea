import Mathlib.Algebra.Order.Field.Power
import Mathlib.Algebra.Order.Field.Rat
import Mathlib.Tactic.Linarith
import Mathlib.Tactic.Positivity
import Mathlib.Tactic.Ring
import ChartAdvisor.Proofs.Number.Exactness

/-!
# What rounding costs

A rational is rounded by no more than half of what the last of 53 bits is worth. So within the range of the
format a number is rounded by a fixed part of a power of two that bounds it, and the sum of a list by as many
of these parts as the list has numbers.
-/
namespace ChartAdvisor
namespace Binary64

/-! ## Quotients of naturals -/

section Quotients

variable {n d : Nat} (hd : 0 < d)

theorem scale_div (n d : Nat) (e : Int) :
    ((scale n d e).1 : ℚ) / (scale n d e).2 = (n : ℚ) / d / (2 : ℚ) ^ e := by
  unfold scale
  split
  · next he =>
    obtain ⟨m, rfl⟩ := Int.eq_ofNat_of_zero_le he
    simp [div_div]
  · next he =>
    obtain ⟨m, rfl⟩ : ∃ m : Nat, e = -(m : Int) := ⟨(-e).toNat, by omega⟩
    simp [mul_div_right_comm]

include hd

theorem scale_pos (n : Nat) (e : Int) : 0 < (scale n d e).2 := by
  unfold scale
  split
  · exact Nat.mul_pos hd (Nat.pow_pos (by decide))
  · exact hd

/-- A quotient is rounded by no more than a half. -/
theorem abs_roundHalfEven_sub_le (n : Nat) : |(roundHalfEven n d : ℚ) - n / d| ≤ 1 / 2 := by
  have hpos : (0 : ℚ) < d := Nat.cast_pos.mpr hd
  have hdivide : (d : ℚ) * (n / d : Nat) + (n % d : Nat) = n := mod_cast Nat.div_add_mod n d
  have hsplit : (n : ℚ) / d = (n / d : Nat) + (n % d : Nat) / d := by
    rw [div_eq_iff hpos.ne', add_mul, div_mul_cancel₀ _ hpos.ne', mul_comm, hdivide]
  have hdown (h : 2 * (n % d) ≤ d) : |((n / d : Nat) : ℚ) - n / d| ≤ 1 / 2 := by
    have hrest : ((n % d : Nat) : ℚ) / d ≤ 1 / 2 := by
      rw [div_le_div_iff₀ hpos two_pos, mul_comm, one_mul]
      exact_mod_cast h
    rw [hsplit, sub_add_cancel_left, abs_neg, abs_of_nonneg (by positivity)]
    exact hrest
  have hup (h : d ≤ 2 * (n % d)) : |((n / d + 1 : Nat) : ℚ) - n / d| ≤ 1 / 2 := by
    have hrest : 1 / 2 ≤ ((n % d : Nat) : ℚ) / d := by
      rw [div_le_div_iff₀ two_pos hpos, mul_comm _ (2 : ℚ), one_mul]
      exact_mod_cast h
    have hone : ((n % d : Nat) : ℚ) / d ≤ 1 := by
      rw [div_le_one hpos]
      exact_mod_cast (Nat.mod_lt n hd).le
    rw [hsplit, Nat.cast_succ, add_sub_add_left_eq_sub, abs_of_nonneg (sub_nonneg.mpr hone)]
    linarith
  unfold roundHalfEven
  dsimp only
  split
  · next h => exact hdown (Nat.le_of_lt h)
  · next h =>
    split
    · next h' => exact hup (Nat.le_of_lt h')
    · next h' =>
      split
      · exact hdown (Nat.le_of_not_lt h')
      · exact hup (Nat.le_of_not_lt h)

/-- Rounding stays on its side of a natural number. -/
theorem roundHalfEven_le {m : Nat} (h : (n : ℚ) / d ≤ m) : roundHalfEven n d ≤ m := by
  have herror := (abs_le.mp (abs_roundHalfEven_sub_le hd n)).2
  have : (roundHalfEven n d : ℚ) < (m + 1 : Nat) := by push_cast; linarith
  exact Nat.le_of_lt_succ (Nat.cast_lt.mp this)

theorem le_roundHalfEven {m : Nat} (h : (m : ℚ) ≤ n / d) : m ≤ roundHalfEven n d := by
  have herror := (abs_le.mp (abs_roundHalfEven_sub_le hd n)).1
  have : (m : ℚ) < (roundHalfEven n d + 1 : Nat) := by push_cast; linarith
  exact Nat.le_of_lt_succ (Nat.cast_lt.mp this)

end Quotients

/-- The bits of a natural number bound it. -/
theorem log2_bounds {n : Nat} (hn : 0 < n) :
    (2 : ℚ) ^ (n.log2 : Int) ≤ n ∧ (n : ℚ) < 2 ^ (n.log2 + 1 : Int) := by
  constructor
  · exact_mod_cast Nat.log2_self_le hn.ne'
  · exact_mod_cast Nat.lt_log2_self

/-- The exponent leaves 53 bits before the point, fewer only if it is the least. -/
theorem exponentOf_spec {n d : Nat} (hn : 0 < n) (hd : 0 < d) :
    -1074 ≤ exponentOf n d ∧ (n : ℚ) / d < 2 ^ (exponentOf n d + 53) ∧
      (exponentOf n d ≠ -1074 → (2 : ℚ) ^ (exponentOf n d + 52) ≤ n / d) := by
  have hposn : (0 : ℚ) < n := Nat.cast_pos.mpr hn
  have hposd : (0 : ℚ) < d := Nat.cast_pos.mpr hd
  obtain ⟨hnlow, hnhigh⟩ := log2_bounds hn
  obtain ⟨hdlow, hdhigh⟩ := log2_bounds hd
  obtain ⟨guess, hguess⟩ : ∃ guess : Int, guess = n.log2 - d.log2 - 52 := ⟨_, rfl⟩
  have hhigh : (n : ℚ) / d < 2 ^ (guess + 53) := by
    have hexponent : guess + 53 = n.log2 + 1 - d.log2 := by omega
    rw [hexponent, zpow_sub₀ two_ne_zero]
    exact div_lt_div₀ hnhigh hdlow (by positivity) (by positivity)
  have hlow : (2 : ℚ) ^ (guess + 51) < n / d := by
    have hexponent : guess + 51 = n.log2 - (d.log2 + 1) := by omega
    rw [hexponent, zpow_sub₀ two_ne_zero]
    exact div_lt_div₀' hnlow hdhigh (by positivity) (by positivity)
  have hcompare : (scale n d guess).1 < twoTo 52 * (scale n d guess).2 ↔ (n : ℚ) / d < 2 ^ (guess + 52) := by
    have hpos : (0 : ℚ) < (scale n d guess).2 := Nat.cast_pos.mpr (scale_pos hd n guess)
    rw [add_comm, zpow_add₀ two_ne_zero, ← div_lt_iff₀ (by positivity), ← scale_div, div_lt_iff₀ hpos]
    exact_mod_cast Iff.rfl
  have hunfold : exponentOf n d =
      max (-1074) (if (n : ℚ) / d < 2 ^ (guess + 52) then guess - 1 else guess) := by
    unfold exponentOf
    simp only [← hguess, ← hcompare]
  have hchosen : ∃ e, exponentOf n d = max (-1074) e ∧ (n : ℚ) / d < 2 ^ (e + 53) ∧
      (2 : ℚ) ^ (e + 52) ≤ n / d := by
    refine ⟨_, hunfold, ?_⟩
    split
    · next h =>
      rw [show guess - 1 + 53 = guess + 52 by omega, show guess - 1 + 52 = guess + 51 by omega]
      exact ⟨h, hlow.le⟩
    · next h => exact ⟨hhigh, not_lt.mp h⟩
  obtain ⟨e, he, hless, hmore⟩ := hchosen
  rw [he]
  refine ⟨le_max_left _ _, hless.trans_le ?_, fun hne => ?_⟩
  · exact zpow_le_zpow_right₀ one_le_two (Int.add_le_add_right (le_max_right _ _) _)
  · rwa [max_eq_right (le_of_not_ge fun hle => hne (max_eq_left hle))]

/-! ## The nearest number -/

/-- A quotient is rounded by no more than half of what the last bit is worth. -/
theorem abs_round_mul_sub_le {n d : Nat} (hd : 0 < d) (e : Int) :
    |(roundHalfEven (scale n d e).1 (scale n d e).2 : ℚ) * 2 ^ e - n / d| ≤ 2 ^ e / 2 := by
  have hpower : (0 : ℚ) < 2 ^ e := by positivity
  have herror := abs_roundHalfEven_sub_le (scale_pos hd n e) (scale n d e).1
  rw [scale_div] at herror
  have hmul := mul_le_mul_of_nonneg_right herror hpower.le
  rwa [← abs_of_pos hpower, ← abs_mul, abs_of_pos hpower, sub_mul, div_mul_cancel₀ _ hpower.ne', one_div_mul_eq_div]
    at hmul

/-- What is at most a power of two is rounded to at most that power. -/
theorem round_mul_le {n d : Nat} (hd : 0 < d) {e k : Int} (hle : e ≤ k) (h : (n : ℚ) / d ≤ 2 ^ k) :
    (roundHalfEven (scale n d e).1 (scale n d e).2 : ℚ) * 2 ^ e ≤ 2 ^ k := by
  obtain ⟨m, hm⟩ := Int.eq_ofNat_of_zero_le (sub_nonneg.mpr hle)
  have hsplit : (2 : ℚ) ^ k = (2 ^ m : Nat) * 2 ^ e := by
    rw [Nat.cast_pow, Nat.cast_ofNat, ← zpow_natCast, ← zpow_add₀ two_ne_zero]
    congr 1
    omega
  have hround : roundHalfEven (scale n d e).1 (scale n d e).2 ≤ 2 ^ m := by
    refine roundHalfEven_le (scale_pos hd n e) ?_
    rw [scale_div, div_le_iff₀ (by positivity), ← hsplit]
    exact h
  rw [hsplit]
  exact mul_le_mul_of_nonneg_right (Nat.cast_le.mpr hround) (by positivity)

/-- A rounded mantissa has 53 bits, or its last carry makes one bit more. -/
theorem canonical_or_carry {m : Nat} {e k : Int} (hm : m ≤ twoTo 53) (hfull : e ≠ -1074 → twoTo 52 ≤ m)
    (hleast : -1074 ≤ e) (hexponent : e ≤ k - 52) (hk : k ≤ 1023) (hbelow : (m : ℚ) * 2 ^ e ≤ 2 ^ k) :
    Canonical m e ∨ ¬Canonical m e ∧ m = twoTo 53 ∧ Canonical (twoTo 52) (e + 1) := by
  by_cases hcarry : m = twoTo 53
  · have hsum : (2 : ℚ) ^ (e + 53) ≤ 2 ^ k := by
      rw [hcarry] at hbelow
      rw [add_comm, zpow_add₀ two_ne_zero]
      exact_mod_cast hbelow
    have hlow := (zpow_le_zpow_iff_right₀ one_lt_two).mp hsum
    have hbits : twoTo 53 = 2 * twoTo 52 := by decide
    refine .inr ⟨?_, hcarry, .inl ⟨le_rfl, by decide, by omega, by omega⟩⟩
    unfold Canonical
    omega
  · refine .inl ?_
    unfold Canonical
    by_cases hne : e = -1074
    · omega
    · have := hfull hne
      omega

/-- What lies below a power of two in the range of the format has a nearest number, which lies below as well
and is as near as a part of the power. -/
theorem ofRatio?_near (negative : Bool) {n d k : Nat} (hn : 0 < n) (hd : 0 < d) (hk : k ≤ 1023)
    (h : (n : ℚ) / d ≤ 2 ^ (k : Int)) :
    ∃ x, ofRatio? negative n d = some x ∧ x.negative = negative ∧
      |x.mantissa * (2 : ℚ) ^ x.exponent - n / d| ≤ 2 ^ (k - 53 : Int) ∧
      x.mantissa * (2 : ℚ) ^ x.exponent ≤ 2 ^ (k : Int) := by
  obtain ⟨hleast, hless, hmore⟩ := exponentOf_spec hn hd
  have herror := abs_round_mul_sub_le (n := n) hd (exponentOf n d)
  have hexponent : exponentOf n d ≤ k - 52 := by
    by_cases hne : exponentOf n d = -1074
    · omega
    · have := (zpow_le_zpow_iff_right₀ (one_lt_two (α := ℚ))).mp ((hmore hne).trans h)
      omega
  have hbelow := round_mul_le hd (by omega : exponentOf n d ≤ k) h
  have hbits : roundHalfEven (scale n d (exponentOf n d)).1 (scale n d (exponentOf n d)).2 ≤ twoTo 53 := by
    refine roundHalfEven_le (scale_pos hd ..) ?_
    rw [scale_div, div_le_iff₀ (by positivity)]
    rw [add_comm, zpow_add₀ two_ne_zero] at hless
    exact_mod_cast hless.le
  have hfull (hne : exponentOf n d ≠ -1074) :
      twoTo 52 ≤ roundHalfEven (scale n d (exponentOf n d)).1 (scale n d (exponentOf n d)).2 := by
    refine le_roundHalfEven (scale_pos hd ..) ?_
    have hmore := hmore hne
    rw [add_comm, zpow_add₀ two_ne_zero] at hmore
    rw [scale_div, le_div_iff₀ (by positivity)]
    exact_mod_cast hmore
  have hnear : (2 : ℚ) ^ exponentOf n d / 2 ≤ 2 ^ (k - 53 : Int) := by
    rw [div_eq_mul_inv, ← zpow_sub_one₀ two_ne_zero]
    exact zpow_le_zpow_right₀ one_le_two (by omega)
  unfold ofRatio?
  simp only [if_neg hn.ne']
  rcases canonical_or_carry hbits hfull hleast hexponent (by omega) hbelow with
    hcanonical | ⟨hnot, hcarry, hcanonical⟩
  · rw [dif_pos hcanonical]
    exact ⟨_, rfl, rfl, herror.trans hnear, hbelow⟩
  · rw [dif_neg hnot, dif_pos hcanonical]
    have hvalue : (twoTo 52 : ℚ) * 2 ^ (exponentOf n d + 1) = twoTo 53 * 2 ^ exponentOf n d := by
      rw [zpow_add_one₀ two_ne_zero, mul_comm _ (2 : ℚ), ← mul_assoc]
      norm_num
    rw [hcarry] at herror hbelow
    refine ⟨_, rfl, rfl, ?_, ?_⟩
    · simp only [hvalue]
      exact herror.trans hnear
    · exact hvalue.trans_le hbelow

theorem toRat_eq (x : Binary64) :
    x.toRat = if x.negative then -(x.mantissa * (2 : ℚ) ^ x.exponent) else x.mantissa * (2 : ℚ) ^ x.exponent := by
  have hvalue : mkRat x.ratio.1 x.ratio.2 = x.mantissa * (2 : ℚ) ^ x.exponent := by
    unfold ratio
    split
    · next he =>
      obtain ⟨m, hm⟩ := Int.eq_ofNat_of_zero_le he
      simp [hm, Rat.mkRat_eq_div]
    · next he =>
      obtain ⟨m, hm⟩ : ∃ m : Nat, x.exponent = -(m : Int) := ⟨(-x.exponent).toNat, by omega⟩
      simp [hm, Rat.mkRat_eq_div, div_eq_mul_inv]
  unfold toRat
  simp only [hvalue]

/-- Within the range of the format a rational has a nearest number: none is replaced by the largest. -/
theorem ofRat_near (negativeZero : Bool) {r : ℚ} {k : Nat} (hk : k ≤ 1023) (h : |r| ≤ 2 ^ k) :
    (r ≠ 0 → ofRatio? (r.num < 0) r.num.natAbs r.den = some (ofRat negativeZero r)) ∧
      |(ofRat negativeZero r).toRat - r| ≤ 2 ^ k / 2 ^ 53 ∧ |(ofRat negativeZero r).toRat| ≤ 2 ^ k := by
  by_cases hr : r = 0
  · subst hr
    have hzero : (ofRat negativeZero 0).toRat = 0 := by cases negativeZero <;> decide +kernel
    rw [hzero, sub_zero, abs_zero]
    exact ⟨fun hne => absurd rfl hne, by positivity, by positivity⟩
  · have hquotient : (r.num.natAbs : ℚ) / r.den = |r| := by
      rw [Rat.abs_def, Rat.divInt_eq_div]
      rfl
    have hpower : (2 : ℚ) ^ (k - 53 : Int) = 2 ^ k / 2 ^ 53 := by
      rw [zpow_sub₀ two_ne_zero, zpow_natCast]
      rfl
    rw [← zpow_natCast, ← hquotient] at h
    obtain ⟨x, hx, hsign, hnear, hbelow⟩ := ofRatio?_near (r.num < 0)
      (Int.natAbs_pos.mpr (Rat.num_ne_zero.mpr hr)) r.den_pos hk h
    rw [hquotient, hpower] at hnear
    rw [zpow_natCast] at hbelow
    have hofRat : ofRat negativeZero r = x := by
      rw [ofRat, if_neg hr, hx, Option.getD_some]
    rw [hofRat, toRat_eq, hsign]
    have hvalue : (0 : ℚ) ≤ x.mantissa * 2 ^ x.exponent := by positivity
    refine ⟨fun _ => hx, ?_⟩
    rcases lt_or_gt_of_ne hr with hneg | hpos
    · rw [if_pos (decide_eq_true (Rat.num_neg.mpr hneg)), abs_neg, abs_of_nonneg hvalue]
      rw [abs_of_neg hneg, ← abs_neg, neg_sub', neg_neg] at hnear
      exact ⟨hnear, hbelow⟩
    · rw [if_neg (by simpa using (Rat.num_pos.mpr hpos).le), abs_of_nonneg hvalue]
      rw [abs_of_pos hpos] at hnear
      exact ⟨hnear, hbelow⟩

/-! ## Products and sums -/

theorem abs_mul_le {x y : Binary64} {i j : Nat} (hx : |x.toRat| ≤ 2 ^ i) (hy : |y.toRat| ≤ 2 ^ j)
    (hk : i + j ≤ 1023) : |(x.mul y).toRat| ≤ 2 ^ (i + j) := by
  refine (ofRat_near _ hk ?_).2.2
  rw [abs_mul, pow_add]
  exact mul_le_mul hx hy (abs_nonneg _) (by positivity)

/-- Adding numbers one after another, each addition costs a part of a power of two that bounds all sums. -/
theorem foldl_add_near {k : Nat} (hk : k ≤ 1022) (xs : List Binary64) {sum : Binary64} {exact : ℚ} {steps : Nat}
    (hsteps : steps + xs.length ≤ 2 ^ 52) (hbound : |exact| + (xs.map (|·.toRat|)).sum ≤ 2 ^ k)
    (hsum : |sum.toRat - exact| ≤ steps * (2 ^ k / 2 ^ 52)) :
    |(xs.foldl add sum).toRat - (exact + (xs.map toRat).sum)| ≤ (steps + xs.length : Nat) * (2 ^ k / 2 ^ 52) := by
  induction xs generalizing sum exact steps with
  | nil => simpa using hsum
  | cons x rest ih =>
    rw [List.map_cons, List.sum_cons, ← add_assoc] at hbound ⊢
    rw [List.length_cons] at hsteps ⊢
    have hrest : 0 ≤ (rest.map (|·.toRat|)).sum := List.sum_nonneg (by simp)
    have hcost : (steps : ℚ) * (2 ^ k / 2 ^ 52) ≤ 2 ^ k := by
      have hless : (steps : ℚ) ≤ 2 ^ 52 := mod_cast (Nat.le_add_right ..).trans hsteps
      calc (steps : ℚ) * (2 ^ k / 2 ^ 52) ≤ 2 ^ 52 * (2 ^ k / 2 ^ 52) :=
            mul_le_mul_of_nonneg_right hless (by positivity)
        _ = 2 ^ k := mul_div_cancel₀ _ (by positivity)
    have hargument : |sum.toRat + x.toRat| ≤ 2 ^ (k + 1) := by
      calc |sum.toRat + x.toRat| = |(exact + x.toRat) + (sum.toRat - exact)| := by congr 1; ring
        _ ≤ |exact| + |x.toRat| + |sum.toRat - exact| :=
            (abs_add_le _ _).trans (add_le_add_left (abs_add_le _ _) _)
        _ ≤ 2 ^ k + 2 ^ k := add_le_add (by linarith) (hsum.trans hcost)
        _ = 2 ^ (k + 1) := by rw [pow_succ, mul_two]
    have herror : |(sum.add x).toRat - (sum.toRat + x.toRat)| ≤ 2 ^ k / 2 ^ 52 := by
      refine (ofRat_near _ (by omega) hargument).2.1.trans_eq ?_
      rw [pow_succ, pow_succ 2 52, mul_div_mul_right _ _ two_ne_zero]
    have hnext : |(sum.add x).toRat - (exact + x.toRat)| ≤ (steps + 1 : Nat) * (2 ^ k / 2 ^ 52) := by
      calc |(sum.add x).toRat - (exact + x.toRat)|
          = |((sum.add x).toRat - (sum.toRat + x.toRat)) + (sum.toRat - exact)| := by congr 1; ring
        _ ≤ 2 ^ k / 2 ^ 52 + steps * (2 ^ k / 2 ^ 52) := (abs_add_le _ _).trans (add_le_add herror hsum)
        _ = (steps + 1 : Nat) * (2 ^ k / 2 ^ 52) := by push_cast; ring
    have hfound := ih (by omega) ((add_le_add_left (abs_add_le _ _) _).trans hbound) hnext
    rw [List.foldl_cons, Nat.add_comm rest.length, ← Nat.add_assoc]
    exact hfound

end Binary64
end ChartAdvisor
