import Mathlib.Dynamics.PeriodicPts.Defs

/-!
The periods of a map with few values.
-/

namespace Mono98.Lib.Period

open Function

variable {α : Type*} {f : α → α} {g : α → ℕ} {N : ℕ}

/-- A map with at most `N` values has no period above `N`. -/
theorem minimalPeriod_le (hg : Injective g) (h : ∀ x, g (f x) < N) (x : α) :
    minimalPeriod f x ≤ N := by
  cases hp : minimalPeriod f x with
  | zero => exact Nat.zero_le N
  | succ p =>
    -- every point of the orbit is a value of the map
    have hlt : ∀ n, g (f^[n] x) < N := fun n => by
      have hround : f^[n + minimalPeriod f x] x = f^[n] x := iterate_add_minimalPeriod_eq
      rw [← hround, hp, ← Nat.add_assoc, iterate_succ_apply']
      exact h _
    have hcard : (Finset.range (p + 1)).card ≤ (Finset.range N).card :=
      Finset.card_le_card_of_injOn (fun n => g (f^[n] x)) (fun n _ => by simpa using hlt n) <|
        fun n hn n' hn' heq => iterate_injOn_Iio_minimalPeriod (f := f) (x := x)
          (by simpa [hp] using hn) (by simpa [hp] using hn') (hg heq)
    simpa using hcard

/-- Such a map has no point that comes back only after more than `N` steps. -/
theorem exists_return (hg : Injective g) (h : ∀ x, g (f x) < N) {x : α} {n : ℕ} (hn : N < n)
    (hx : f^[n] x = x) : ∃ m, 0 < m ∧ m < n ∧ f^[m] x = x :=
  ⟨minimalPeriod f x, IsPeriodicPt.minimalPeriod_pos (Nat.zero_lt_of_lt hn) hx,
    Nat.lt_of_le_of_lt (minimalPeriod_le hg h x) hn, iterate_minimalPeriod⟩

end Mono98.Lib.Period
