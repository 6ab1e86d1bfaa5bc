import Mathlib.Algebra.Order.Ring.Rat
import Mathlib.Order.Bounds.Defs
import Mathlib.Tactic.NormNum
import Mono98.Lib.Newton
import Mono98.Math

/-!
What `isqrt` and `sqrt` compute.

The square of the counter goes round from 65536 on, where it is 0, so that the loop of `isqrt`
does not stop there. `sqrt` divides by the integer root, which is 0 below 1.
-/

namespace Mono98.Roots

open Mono98.Math Mono98.Lib.Word Mono98.Lib.Newton

variable {K : Type*} [Field K] [LinearOrder K] {number g c : K} {r m : ℕ}

/-! ### The integer root -/

/-- The counter `m` is the first whose square, in 32 bits, is above the number. -/
structure Stops (number : K) (m : ℕ) : Prop where
  below : ∀ k < m, ((k * k % 2 ^ 32 : ℕ) : K) ≤ number
  above : ¬ ((m * m % 2 ^ 32 : ℕ) : K) ≤ number

lemma isqrtLoop_of_stops (h : Stops number m) (h32 : m < 2 ^ 32) (n i : ℕ) (hi : i ≤ m)
    (hn : m < n + i) : isqrtLoop number n i = some (dec 32 m) := by
  induction n generalizing i with
  | zero => omega
  | succ n ih =>
    rw [isqrtLoop]
    rcases Nat.lt_or_eq_of_le hi with hlt | rfl
    · rw [if_pos (h.below i hlt), inc_of_lt (by omega)]
      exact ih (i + 1) hlt (by omega)
    · rw [if_neg h.above]

/-- A result is the predecessor of a counter at which the loop has stopped. -/
lemma above_of_isqrtLoop {n i : ℕ} (hi : i < 2 ^ 32) (h : isqrtLoop number n i = some r) :
    ∃ m < 2 ^ 32, ¬ ((m * m % 2 ^ 32 : ℕ) : K) ≤ number ∧ r = dec 32 m := by
  induction n generalizing i with
  | zero => cases h
  | succ n ih =>
    rw [isqrtLoop] at h
    split_ifs at h with hle
    · exact ih (Nat.mod_lt _ (by decide)) h
    · exact ⟨i, hi, hle, (Option.some.inj h).symm⟩

lemma isqrtLoop_succ {n i : ℕ} (h : isqrtLoop number n i = some r) :
    isqrtLoop number (n + 1) i = some r := by
  induction n generalizing i with
  | zero => cases h
  | succ n ih =>
    rw [isqrtLoop] at h ⊢
    split_ifs at h ⊢ with hle
    · exact ih h
    · exact h

/-- The rounds that `isqrt` allows for are no restriction. -/
theorem isqrt_rounds : isqrt number = some r ↔ ∃ n, isqrtLoop number n 0 = some r := by
  constructor
  · exact fun h => ⟨2 ^ 32, h⟩
  · rintro ⟨n, h⟩
    have hmore : ∀ k, isqrtLoop number (n + k) 0 = some r := fun k => by
      induction k with
      | zero => exact h
      | succ k ih => exact isqrtLoop_succ ih
    have hex : ∃ m : ℕ, m < 2 ^ 32 ∧ ¬ ((m * m % 2 ^ 32 : ℕ) : K) ≤ number := by
      obtain ⟨m, hm, habove, -⟩ := above_of_isqrtLoop (by decide) h
      exact ⟨m, hm, habove⟩
    classical
    obtain ⟨h32, habove⟩ := Nat.find_spec hex
    have hstops : Stops number (Nat.find hex) := by
      refine ⟨fun k hk => ?_, habove⟩
      by_contra hno
      exact Nat.find_min hex hk ⟨by omega, hno⟩
    -- with enough rounds both have stopped there
    have hn := isqrtLoop_of_stops hstops h32 (n + 2 ^ 32) 0 (Nat.zero_le _) (by omega)
    rw [isqrt, isqrtLoop_of_stops hstops h32 (2 ^ 32) 0 (Nat.zero_le _) (by omega), ← hn]
    exact hmore _

/-- The largest `r` with `r * r ≤ number`. -/
def IsRoot (number : K) (r : ℕ) : Prop := IsGreatest {r : ℕ | (r : K) * r ≤ number} r

/-- `isqrt` ends after some rounds, with the integer root. -/
def Finds (number : K) : Prop := ∃ n r, isqrtLoop number n 0 = some r ∧ IsRoot number r

variable [IsStrictOrderedRing K]

/-- Below 65535² the loop stops behind the root. -/
lemma exists_stops (h0 : 0 ≤ number) (h : number < 65535 ^ 2) :
    ∃ r, r < 65535 ∧ IsRoot number r ∧ Stops number (r + 1) := by
  have hex : ∃ m : ℕ, number < (m : K) * m := ⟨65535, by rwa [← pow_two, Nat.cast_ofNat]⟩
  classical
  have hle : Nat.find hex ≤ 65535 := Nat.find_min' hex (by rwa [← pow_two, Nat.cast_ofNat])
  have hpos : Nat.find hex ≠ 0 := fun hz => by
    have hlt := Nat.find_spec hex
    rw [hz, Nat.cast_zero, mul_zero] at hlt
    exact absurd h0 (not_le.mpr hlt)
  obtain ⟨r, hr⟩ := Nat.exists_eq_succ_of_ne_zero hpos
  have hbelow : ∀ k < r + 1, (k : K) * k ≤ number := fun k hk =>
    not_lt.mp (Nat.find_min hex (by omega))
  have habove : number < ((r + 1 : ℕ) : K) * (r + 1 : ℕ) := by
    have hlt := Nat.find_spec hex
    rwa [hr] at hlt
  -- no square has gone round so far
  have hsq : ∀ k ≤ r + 1, ((k * k % 2 ^ 32 : ℕ) : K) = (k : K) * k := fun k hk => by
    have hkk : k * k ≤ 65535 * 65535 := Nat.mul_le_mul (by omega) (by omega)
    rw [Nat.mod_eq_of_lt (by omega), Nat.cast_mul]
  refine ⟨r, by omega, ⟨hbelow r (Nat.lt_succ_self r), fun k hk => ?_⟩, fun k hk => ?_, ?_⟩
  · by_contra hgt
    have hmono : ((r + 1 : ℕ) : K) * (r + 1 : ℕ) ≤ (k : K) * k := by
      rw [← Nat.cast_mul, ← Nat.cast_mul, Nat.cast_le]
      exact Nat.mul_le_mul (by omega) (by omega)
    exact absurd hk (not_le.mpr (lt_of_lt_of_le habove hmono))
  · rw [hsq k (Nat.le_of_lt hk)]
    exact hbelow k hk
  · rw [hsq _ (Nat.le_refl _)]
    exact not_le.mpr habove

/-- The integer root of a number below 65535². -/
lemma isqrt_eq (h0 : 0 ≤ number) (h : number < 65535 ^ 2) :
    ∃ r, isqrt number = some r ∧ IsRoot number r := by
  obtain ⟨r, hr, hroot, hstops⟩ := exists_stops h0 h
  refine ⟨r, ?_, hroot⟩
  rw [isqrt, isqrtLoop_of_stops hstops (by omega) _ 0 (Nat.zero_le _) (by omega),
    dec_of_pos (Nat.succ_pos r)]
  rfl

/-- From 65535² on the root is 65535, and the loop does not stop behind it. -/
lemma not_finds (h : 65535 ^ 2 ≤ number) (h32 : number < 2 ^ 32) : ¬ Finds number := by
  rintro ⟨n, r, hr, hle, hmax⟩
  have hin : ((65535 : ℕ) : K) * (65535 : ℕ) ≤ number := by rwa [Nat.cast_ofNat, ← pow_two]
  have hge : 65535 ≤ r := hmax hin
  have hlt : r < 65536 := by
    by_contra hno
    have hmono : ((65536 * 65536 : ℕ) : K) ≤ (r : K) * r := by
      rw [← Nat.cast_mul, Nat.cast_le]
      exact Nat.mul_le_mul (by omega) (by omega)
    have hbig := lt_of_le_of_lt (hmono.trans hle) h32
    norm_num at hbig
  obtain ⟨m, -, habove, rfl⟩ := above_of_isqrtLoop (by decide) hr
  have hm : m = 65536 := by
    unfold dec at hge hlt
    split_ifs at hge hlt <;> omega
  subst hm
  refine habove ?_
  rw [show 65536 * 65536 % 2 ^ 32 = 0 from rfl, Nat.cast_zero]
  exact le_trans (by norm_num) h

/-- **The integer root** is found exactly below 65535². -/
theorem isqrt_finds {number : ℚ} (h0 : 0 ≤ number) (h : number < 2 ^ 32) :
    Finds number ↔ number < 65535 ^ 2 := by
  constructor
  · exact fun hf => lt_of_not_ge fun hge => not_finds hge h hf
  · intro hlt
    obtain ⟨r, hr, hroot⟩ := isqrt_eq h0 hlt
    exact ⟨2 ^ 32, r, hr, hroot⟩

/-- The root of ten. -/
theorem isqrt_finds_ten : Finds (10 : ℚ) :=
  (isqrt_finds (by norm_num) (by norm_num)).mpr (by norm_num)

/-- The root of 65535² is not found. -/
theorem largeSquare_lost : ¬ Finds (4294836225 : ℚ) :=
  not_finds (by norm_num) (by norm_num)

/-! ### The root -/

lemma newton_eq (hg : 0 < g) : newton number g = some (step number g) := by
  rw [newton, if_neg (by positivity), step, two_mul]

/-- The loop keeps its guess above the root, and each round takes it closer. -/
lemma sqrtLoop_spec (hn : 0 < number) (i : ℕ) (hg : 0 < g) (h1 : number ≤ g * g)
    (hc : g * g ≤ c * number) : ∃ r, sqrtLoop number i g = some r ∧ number ≤ r * r ∧
      r * r ≤ ratio^[i] c * number := by
  induction i generalizing g c with
  | zero => exact ⟨g, rfl, h1, hc⟩
  | succ i ih =>
    obtain ⟨r, hr, hlow, hhigh⟩ :=
      ih (step_pos hn hg) (le_step_sq hg) (step_sq_le_of_ge hn hg h1 hc)
    refine ⟨r, ?_, hlow, hhigh⟩
    rw [sqrtLoop, newton_eq hg]
    exact hr

/-- `sqrt` divides by zero in none of its steps, and its result is not below the root and at
most a thousandth above it, in the squares. -/
def Accurate (number : K) : Prop :=
  ∃ r, sqrt number = some r ∧ number ≤ r * r ∧ r * r ≤ 1001 / 1000 * number

/-- From 1 on the integer root is at least half of the root. -/
lemma IsRoot.half (h : IsRoot number r) (h1 : 1 ≤ number) :
    1 ≤ r ∧ (r : K) * r ≤ number ∧ 1 / 4 * number ≤ (r : K) * r := by
  have hr : 1 ≤ r := h.2 (show ((1 : ℕ) : K) * (1 : ℕ) ≤ number by simpa using h1)
  have hlt : number < ((r + 1 : ℕ) : K) * (r + 1 : ℕ) := by
    by_contra hno
    exact absurd (h.2 (not_lt.mp hno)) (by omega)
  have hle : ((r + 1 : ℕ) : K) * (r + 1 : ℕ) ≤ 4 * ((r : K) * r) := by
    have hnat : (r + 1) * (r + 1) ≤ 4 * (r * r) := by
      calc (r + 1) * (r + 1) ≤ (2 * r) * (2 * r) := Nat.mul_le_mul (by omega) (by omega)
        _ = 4 * (r * r) := by ring
    exact_mod_cast hnat
  exact ⟨hr, h.1, by linarith⟩

lemma accurate_of_ge (h1 : 1 ≤ number) (h : number < 65535 ^ 2) : Accurate number := by
  obtain ⟨r, hr, hroot⟩ := isqrt_eq (by linarith) h
  obtain ⟨hpos, hlow, hhalf⟩ := hroot.half h1
  have hn : 0 < number := by linarith
  have hg : 0 < (r : K) := Nat.cast_pos.mpr hpos
  -- the first step starts below the root, and the other two above it
  have hfirst := step_sq_le_of_le hn hg hlow (by norm_num) hhalf
  obtain ⟨s, hs, hsn, hsc⟩ := sqrtLoop_spec hn 2 (step_pos hn hg) (le_step_sq hg) hfirst
  have hratio : ratio^[2] (ratio (1 / 4)) ≤ (1001 / 1000 : K) := by
    simp only [ratio, Function.iterate_succ, Function.iterate_zero, Function.comp_apply, id_eq]
    norm_num
  refine ⟨s, ?_, hsn, hsc.trans (mul_le_mul_of_nonneg_right hratio hn.le)⟩
  rw [sqrt, hr, Option.bind_some, sqrtIterations, sqrtLoop, newton_eq hg]
  exact hs

/-- Below 1 the first step divides by zero. -/
lemma sqrt_eq_none (h0 : 0 ≤ number) (h1 : number < 1) : sqrt number = none := by
  obtain ⟨r, hr, hroot⟩ := isqrt_eq h0 (lt_of_lt_of_le h1 (by norm_num))
  have hz : r = 0 := by
    by_contra hne
    have hle : ((1 : ℕ) : K) ≤ (r : K) * r := by
      rw [← Nat.cast_mul, Nat.cast_le]
      exact Nat.mul_pos (Nat.pos_of_ne_zero hne) (Nat.pos_of_ne_zero hne)
    rw [Nat.cast_one] at hle
    exact absurd (hle.trans hroot.1) (not_le.mpr h1)
  rw [sqrt, hr, Option.bind_some, hz, sqrtIterations, sqrtLoop, newton, if_pos (by simp)]
  rfl

/-- **The root** is found to a thousandth of the number exactly when this is not below 1. -/
theorem sqrt_accurate {number : ℚ} (h0 : 0 < number) (h : number < 4000000000) :
    Accurate number ↔ 1 ≤ number := by
  constructor
  · rintro ⟨r, hr, -⟩
    by_contra hlt
    rw [sqrt_eq_none h0.le (not_le.mp hlt)] at hr
    cases hr
  · exact fun h1 => accurate_of_ge h1 (lt_trans h (by norm_num))

/-- The root of two. -/
theorem sqrt_accurate_two : Accurate (2 : ℚ) :=
  (sqrt_accurate (by norm_num) (by norm_num)).mpr (by norm_num)

/-- The root of a half is a division by zero. -/
theorem half_undefined : ¬ Accurate (1 / 2 : ℚ) := by
  rintro ⟨r, hr, -⟩
  rw [sqrt_eq_none (by norm_num) (by norm_num)] at hr
  cases hr

end Mono98.Roots
