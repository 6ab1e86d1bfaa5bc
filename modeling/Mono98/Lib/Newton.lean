import Mathlib.Algebra.Order.Field.Basic
import Mathlib.Tactic.FieldSimp
import Mathlib.Tactic.Linarith
import Mathlib.Tactic.Positivity
import Mathlib.Tactic.Ring

/-!
Newton's method for square roots, over an ordered field.

A step takes the ratio `u` of the square of the guess to the number to `(u + 1)² / 4u`, which is
never below 1 and the closer to it the closer `u` has been.
-/

namespace Mono98.Lib.Newton

variable {K : Type*} [Field K] [LinearOrder K] [IsStrictOrderedRing K] {n g u c : K}

/-- The step from the guess `g` towards the root of `n`. -/
def step (n g : K) : K := g - (g * g - n) / (g + g)

/-- What a step makes of the ratio of the square to the number. -/
def ratio (u : K) : K := (u + 1) * (u + 1) / (4 * u)

lemma step_eq (hg : 0 < g) : step n g = (g * g + n) / (2 * g) := by
  rw [step, ← two_mul]
  field_simp
  ring

lemma step_pos (hn : 0 < n) (hg : 0 < g) : 0 < step n g := by
  rw [step_eq hg]
  positivity

/-- The guess is never below the root again. -/
lemma le_step_sq (hg : 0 < g) : n ≤ step n g * step n g := by
  have hsq : step n g * step n g - n = ((g * g - n) / (2 * g)) * ((g * g - n) / (2 * g)) := by
    rw [step_eq hg]
    field_simp
    ring
  have := mul_self_nonneg ((g * g - n) / (2 * g))
  linarith

lemma step_sq (hn : 0 < n) (hg : 0 < g) : step n g * step n g = ratio (g * g / n) * n := by
  rw [step_eq hg, ratio]
  field_simp
  ring

/-- A ratio on the same side of 1, but farther from it. -/
lemma ratio_le (hu : 0 < u) (hc : 0 < c) (h : 0 ≤ (c - u) * (u * c - 1)) : ratio u ≤ ratio c := by
  rw [ratio, ratio, div_le_div_iff₀ (by positivity) (by positivity)]
  have hdiff : (c + 1) * (c + 1) * (4 * u) - (u + 1) * (u + 1) * (4 * c) =
      4 * ((c - u) * (u * c - 1)) := by ring
  linarith

/-- A guess above the root gets closer to it. -/
lemma step_sq_le_of_ge (hn : 0 < n) (hg : 0 < g) (h1 : n ≤ g * g) (hc : g * g ≤ c * n) :
    step n g * step n g ≤ ratio c * n := by
  have hu : 1 ≤ g * g / n := (one_le_div hn).mpr h1
  have huc : g * g / n ≤ c := (div_le_iff₀ hn).mpr hc
  have hmul : 1 ≤ g * g / n * c := one_le_mul_of_one_le_of_one_le hu (hu.trans huc)
  rw [step_sq hn hg]
  refine mul_le_mul_of_nonneg_right (ratio_le ?_ ?_ ?_) hn.le
  · linarith
  · linarith
  · exact mul_nonneg (by linarith) (by linarith)

/-- A guess below the root is not far above it after a step. -/
lemma step_sq_le_of_le (hn : 0 < n) (hg : 0 < g) (h1 : g * g ≤ n) (h0 : 0 < c)
    (hc : c * n ≤ g * g) : step n g * step n g ≤ ratio c * n := by
  have hu : g * g / n ≤ 1 := (div_le_one hn).mpr h1
  have huc : c ≤ g * g / n := (le_div_iff₀ hn).mpr hc
  have hmul : g * g / n * c ≤ 1 := mul_le_one₀ hu h0.le (huc.trans hu)
  rw [step_sq hn hg]
  refine mul_le_mul_of_nonneg_right (ratio_le ?_ h0 ?_) hn.le
  · linarith
  · exact mul_nonneg_of_nonpos_of_nonpos (by linarith) (by linarith)

end Mono98.Lib.Newton
