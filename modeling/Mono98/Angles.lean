import Mathlib.Analysis.SpecialFunctions.Trigonometric.Basic
import Mono98.Math

/-!
The angles that `sin` and `cos` hand to their series.

`3/2` is a division of integers, so that the third range is empty and everything above π is
moved by π. In the second range both routines call themselves where they had to call the other.
-/

namespace Mono98.Angles

open Mono98.Math

variable {K : Type*} [Field K]

/-! ### The chain of calls -/

lemma threeHalves_eq : (threeHalves : K) = 1 := Nat.cast_one

variable [LinearOrder K] {pi x : K} {q : Signs}

/-- The sign and the angle that the series is called with at the end of at most `n` calls. -/
def handed (pi : K) (q : Signs) : ℕ → K → Option (ℤ × K)
  | 0, _ => none
  | n + 1, x =>
    match call pi x q with
    | some (s, y) => (handed pi q n y).map fun r => (s * r.1, r.2)
    | none => some (1, x)

/-- The result of a routine is that of its series, with the sign. -/
theorem trig_handed (pi : K) (q : Signs) (f : K → K) (n : ℕ) (x : K) :
    trig pi q f n x = (handed pi q n x).map fun r => (r.1 : K) * f r.2 := by
  induction n generalizing x with
  | zero => rfl
  | succ n ih =>
    rw [trig, handed]
    cases call pi x q with
    | none => simp
    | some c => simp [ih, Option.map_map, Function.comp_def, mul_assoc]

lemma call_second (h : pi / 2 < x) (h' : x ≤ pi) : call pi x q = some (q.second, x - pi / 2) := by
  rw [call, if_pos ⟨h, h'⟩]

/-- The range of the third sign is empty. -/
lemma call_above (h : pi < x) (h' : x ≤ 2 * pi) : call pi x q = some (q.fourth, x - pi) := by
  rw [call, threeHalves_eq, one_mul, if_neg fun hr => absurd hr.2 (not_le.mpr h),
    if_neg fun hr => absurd hr.2 (not_le.mpr h), if_pos ⟨h, h'⟩]

variable [IsStrictOrderedRing K]

lemma call_low (hpi : 0 < pi) (h : x ≤ pi / 2) : call pi x q = none := by
  rw [call, threeHalves_eq, one_mul, if_neg fun hr => absurd hr.1 (not_lt.mpr h),
    if_neg fun hr => absurd hr.1 (not_lt.mpr (by linarith)),
    if_neg fun hr => absurd hr.1 (not_lt.mpr (by linarith))]

lemma call_beyond (hpi : 0 < pi) (h : 2 * pi < x) : call pi x q = none := by
  rw [call, threeHalves_eq, one_mul, if_neg fun hr => absurd hr.2 (not_le.mpr (by linarith)),
    if_neg fun hr => absurd hr.2 (not_le.mpr (by linarith)),
    if_neg fun hr => absurd hr.2 (not_le.mpr h)]

variable {n : ℕ}

lemma handed_low (hpi : 0 < pi) (h : x ≤ pi / 2) : handed pi q (n + 1) x = some (1, x) := by
  rw [handed, call_low hpi h]

lemma handed_second (h : pi / 2 < x) (h' : x ≤ pi) :
    handed pi q (n + 2) x = some (q.second, x - pi / 2) := by
  rw [handed, call_second h h']
  simp only [handed_low (show 0 < pi by linarith) (show x - pi / 2 ≤ pi / 2 by linarith),
    Option.map_some, mul_one]

lemma handed_third (hpi : 0 < pi) (h : pi < x) (h' : x ≤ 3 * pi / 2) :
    handed pi q (n + 2) x = some (q.fourth, x - pi) := by
  rw [handed, call_above h (by linarith)]
  simp only [handed_low hpi (show x - pi ≤ pi / 2 by linarith), Option.map_some, mul_one]

lemma handed_fourth (hpi : 0 < pi) (h : 3 * pi / 2 < x) (h' : x ≤ 2 * pi) :
    handed pi q (n + 3) x = some (q.fourth * q.second, x - pi - pi / 2) := by
  rw [handed, call_above (by linarith) h']
  simp only [handed_second (show pi / 2 < x - pi by linarith) (show x - pi ≤ pi by linarith),
    Option.map_some]

/-- Three calls are enough for every angle. -/
theorem handed_three (hpi : 0 < pi) (q : Signs) (x : K) : ∃ r, handed pi q 3 x = some r := by
  rcases le_or_gt x (pi / 2) with h | h
  · exact ⟨_, handed_low hpi h⟩
  rcases le_or_gt x pi with h' | h'
  · exact ⟨_, handed_second h h'⟩
  rcases le_or_gt x (3 * pi / 2) with h'' | h''
  · exact ⟨_, handed_third hpi h' h''⟩
  rcases le_or_gt x (2 * pi) with h₂ | h₂
  · exact ⟨_, handed_fourth hpi h'' h₂⟩
  · exact ⟨_, by rw [handed, call_beyond hpi h₂]⟩

/-! ### The true functions -/

open scoped Real

variable {x : ℝ} {q : Signs} {s : ℤ} {y : ℝ} {f : ℝ → ℝ}

/-- A rotation by an eighth takes the sum to the sine. -/
lemma sin_sub_three_quarters (x : ℝ) :
    Real.sin (x - 3 * π / 4) = -(√2 / 2) * (Real.sin x + Real.cos x) := by
  rw [show x - 3 * π / 4 = x + π / 4 - π by ring, Real.sin_sub_pi, Real.sin_add,
    Real.cos_pi_div_four, Real.sin_pi_div_four]
  ring

/-- In the second range sine and cosine are opposite in the middle only. -/
lemma sin_add_cos_eq_zero (h : π / 2 < x) (h' : x ≤ π) :
    Real.sin x + Real.cos x = 0 ↔ x = 3 * π / 4 := by
  have hroot : -(√2 / 2) ≠ 0 := by simp
  have hzero := Real.sin_eq_zero_iff_of_lt_of_lt (x := x - 3 * π / 4) (by linarith) (by linarith)
  rw [sin_sub_three_quarters, mul_eq_zero, or_iff_right hroot] at hzero
  rw [hzero, sub_eq_zero]

/-- Behind the third range the cosine is above the sine. -/
lemma sin_lt_cos (h : 3 * π / 2 < x) (h' : x ≤ 2 * π) : Real.sin x < Real.cos x := by
  rw [← Real.sin_sub_two_pi, ← Real.cos_sub_two_pi]
  have hcos := Real.cos_pos_of_mem_Ioo (x := x - 2 * π) ⟨by linarith, by linarith [Real.pi_pos]⟩
  have hsin := Real.sin_nonpos_of_nonpos_of_neg_pi_le (x := x - 2 * π) (by linarith)
    (by linarith [Real.pi_pos])
  exact lt_of_le_of_lt hsin hcos

/-- The cosine is zero at the end of the third range only. -/
lemma cos_eq_zero (h : π < x) (h' : x ≤ 3 * π / 2) : Real.cos x = 0 ↔ x = 3 * π / 2 := by
  constructor
  · intro h0
    refine le_antisymm h' (not_lt.mp fun hlt => ?_)
    have hneg := Real.cos_neg_of_pi_div_two_lt_of_lt (x := x) (by linarith [Real.pi_pos])
      (by linarith)
    exact absurd h0 hneg.ne
  · rintro rfl
    rw [show 3 * π / 2 = π / 2 + π by ring, Real.cos_add_pi, Real.cos_pi_div_two, neg_zero]

/-! ### The reduction -/

/-- The calls end with a sign and an angle for which the function has the value that it has at
`x`. -/
def Kept (q : Signs) (f : ℝ → ℝ) (x : ℝ) : Prop :=
  ∃ s y, handed π q 3 x = some (s, y) ∧ f x = s * f y

lemma kept_iff (h : handed π q 3 x = some (s, y)) : Kept q f x ↔ f x = s * f y := by
  constructor
  · rintro ⟨s', y', h', hf⟩
    obtain ⟨rfl, rfl⟩ := Prod.mk.inj (Option.some.inj (h.symm.trans h'))
    exact hf
  · exact fun hf => ⟨s, y, h, hf⟩

lemma kept_low (h : x ≤ π / 2) : Kept q f x :=
  (kept_iff (handed_low Real.pi_pos h)).mpr (by simp)

lemma sin_second (h : π / 2 < x) (h' : x ≤ π) : Kept sinSigns Real.sin x ↔ x = 3 * π / 4 := by
  rw [kept_iff (handed_second h h'), ← sin_add_cos_eq_zero h h', Real.sin_sub_pi_div_two]
  simp [sinSigns, eq_neg_iff_add_eq_zero]

lemma cos_second (h : π / 2 < x) (h' : x ≤ π) : Kept cosSigns Real.cos x ↔ x = 3 * π / 4 := by
  rw [kept_iff (handed_second h h'), ← sin_add_cos_eq_zero h h', Real.cos_sub_pi_div_two, add_comm]
  simp [cosSigns, eq_neg_iff_add_eq_zero]

lemma sin_third (h : π < x) (h' : x ≤ 3 * π / 2) : Kept sinSigns Real.sin x := by
  refine (kept_iff (handed_third Real.pi_pos h h')).mpr ?_
  simp [sinSigns, Real.sin_sub_pi]

/-- The sign of the cosine is that of the fourth range. -/
lemma cos_third (h : π < x) (h' : x ≤ 3 * π / 2) :
    Kept cosSigns Real.cos x ↔ x = 3 * π / 2 := by
  rw [kept_iff (handed_third Real.pi_pos h h'), ← cos_eq_zero h h', Real.cos_sub_pi]
  simp [cosSigns, self_eq_neg]

lemma sin_fourth (h : 3 * π / 2 < x) (h' : x ≤ 2 * π) :
    Kept sinSigns Real.sin x ↔ x = 7 * π / 4 := by
  have hzero := sin_add_cos_eq_zero (x := x - π) (by linarith) (by linarith)
  rw [Real.sin_sub_pi, Real.cos_sub_pi, ← neg_add, neg_eq_zero] at hzero
  have hsign : ((sinSigns.fourth * sinSigns.second : ℤ) : ℝ) = -1 := by simp [sinSigns]
  have hshift : x = 7 * π / 4 ↔ x - π = 3 * π / 4 := by constructor <;> intro hx <;> linarith
  rw [kept_iff (handed_fourth Real.pi_pos h h'), Real.sin_sub_pi_div_two, Real.cos_sub_pi, hsign,
    neg_neg, neg_one_mul, eq_neg_iff_add_eq_zero, hzero, hshift]

lemma cos_fourth (h : 3 * π / 2 < x) (h' : x ≤ 2 * π) : ¬ Kept cosSigns Real.cos x := by
  have hsign : ((cosSigns.fourth * cosSigns.second : ℤ) : ℝ) = -1 := by simp [cosSigns]
  rw [kept_iff (handed_fourth Real.pi_pos h h'), Real.cos_sub_pi_div_two, Real.sin_sub_pi, hsign,
    neg_one_mul, neg_neg]
  exact (sin_lt_cos h h').ne'

/-- **The reduction of an angle** keeps both functions up to π/2, and at two angles above it. -/
theorem angles_kept (h2 : x ≤ 2 * π) :
    (Kept sinSigns Real.sin x ∧ Kept cosSigns Real.cos x) ↔
      x ≤ π / 2 ∨ x = 3 * π / 4 ∨ x = 3 * π / 2 := by
  have hpi := Real.pi_pos
  rcases le_or_gt x (π / 2) with h | h
  · exact iff_of_true ⟨kept_low h, kept_low h⟩ (Or.inl h)
  rw [or_iff_right (not_le.mpr h)]
  rcases le_or_gt x π with h' | h'
  · rw [sin_second h h', cos_second h h', and_self, or_iff_left (by linarith)]
  rw [or_iff_right (show x ≠ 3 * π / 4 by linarith)]
  rcases le_or_gt x (3 * π / 2) with h'' | h''
  · rw [cos_third h' h'', and_iff_right (sin_third h' h'')]
  · exact iff_of_false (fun hk => cos_fourth h'' h2 hk.2) h''.ne'

/-- The right angle. -/
theorem angles_kept_right : Kept sinSigns Real.sin (π / 2) ∧ Kept cosSigns Real.cos (π / 2) :=
  (angles_kept (by linarith [Real.pi_pos])).mpr (Or.inl le_rfl)

/-- The sine of π comes out as that of π/2. -/
theorem halfTurn_lost : ¬ (Kept sinSigns Real.sin π ∧ Kept cosSigns Real.cos π) := by
  have hpi := Real.pi_pos
  rintro ⟨hs, -⟩
  have hx := (sin_second (by linarith) le_rfl).mp hs
  linarith

end Mono98.Angles
