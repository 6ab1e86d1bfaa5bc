import Mathlib.Data.List.Basic
import Mathlib.Order.Lattice

/-!
The scan for the first minimum, from a value that stands for none found yet.

A place may have no value. It is then never taken, as a number that compares false with
everything.
-/

namespace Mono98.Lib.Argmin

variable {α : Type*} [LinearOrder α] (d : ℕ → Option α) (top : α) (i₀ : ℕ)

/-- The place `j` is taken when its value is below the best so far. -/
def step (best : α × ℕ) (j : ℕ) : α × ℕ :=
  match d j with
  | some x => if x < best.1 then (x, j) else best
  | none => best

/-- The value and the place found among the first `n`. -/
def scan (n : ℕ) : α × ℕ := (List.range n).foldl (step d) (top, i₀)

lemma scan_succ (n : ℕ) : scan d top i₀ (n + 1) = step d (scan d top i₀ n) n := by
  simp [scan, List.range_succ]

/-- Among the first `n` places `best` is the first with the least value, or nothing has been
found below `top`. -/
structure Scanned (n : ℕ) (best : α × ℕ) : Prop where
  least : ∀ j < n, ∀ y, d j = some y → best.1 ≤ y
  found : best = (top, i₀) ∨ best.1 < top ∧ best.2 < n ∧ d best.2 = some best.1 ∧
    ∀ j < best.2, ∀ y, d j = some y → best.1 < y

variable {d top i₀} {best : α × ℕ}

/-- What a step can do. -/
lemma step_cases (d : ℕ → Option α) (best : α × ℕ) (j : ℕ) :
    (∃ z, d j = some z ∧ z < best.1 ∧ step d best j = (z, j)) ∨
      (∀ y, d j = some y → best.1 ≤ y) ∧ step d best j = best := by
  rw [step]
  cases hj : d j with
  | none => exact Or.inr ⟨by simp, rfl⟩
  | some z =>
    by_cases hz : z < best.1
    · exact Or.inl ⟨z, rfl, hz, if_pos hz⟩
    · exact Or.inr ⟨by simpa using not_lt.mp hz, if_neg hz⟩

lemma Scanned.step {n : ℕ} (h : Scanned d top i₀ n best) :
    Scanned d top i₀ (n + 1) (step d best n) := by
  rcases step_cases d best n with ⟨z, hz, hlt, heq⟩ | ⟨hge, heq⟩
  · rw [heq]
    refine ⟨fun j hj y hy => ?_, Or.inr ⟨?_, Nat.lt_succ_self n, hz, fun j hj y hy => ?_⟩⟩
    · rcases Nat.lt_succ_iff_lt_or_eq.mp hj with hj | rfl
      · exact hlt.le.trans (h.least j hj y hy)
      · exact (Option.some.inj (hz.symm.trans hy)).le
    · rcases h.found with rfl | ⟨htop, -⟩
      · exact hlt
      · exact hlt.trans htop
    · exact lt_of_lt_of_le hlt (h.least j hj y hy)
  · rw [heq]
    refine ⟨fun j hj y hy => ?_, h.found.imp_right fun ⟨htop, hn, hrest⟩ =>
      ⟨htop, Nat.lt_succ_of_lt hn, hrest⟩⟩
    rcases Nat.lt_succ_iff_lt_or_eq.mp hj with hj | rfl
    · exact h.least j hj y hy
    · exact hge y hy

theorem scanned_scan (n : ℕ) : Scanned d top i₀ n (scan d top i₀ n) := by
  induction n with
  | zero => exact ⟨fun j hj => absurd hj (Nat.not_lt_zero j), Or.inl rfl⟩
  | succ n ih =>
    rw [scan_succ]
    exact ih.step

/-- The first place with the least value of the first `n`. -/
structure IsFirstMin (d : ℕ → Option α) (n i : ℕ) (x : α) : Prop where
  lt : i < n
  value : d i = some x
  least : ∀ j < n, ∀ y, d j = some y → x ≤ y
  first : ∀ j < i, ∀ y, d j = some y → x < y

/-- A value below `top` makes the scan find the first minimum. -/
theorem isFirstMin_scan {n j : ℕ} {y : α} (hj : j < n) (hy : d j = some y) (htop : y < top) :
    IsFirstMin d n (scan d top i₀ n).2 (scan d top i₀ n).1 := by
  have h : Scanned d top i₀ n (scan d top i₀ n) := scanned_scan n
  rcases h.found with heq | ⟨-, hlt, hval, hfirst⟩
  · have hle := h.least j hj y hy
    rw [heq] at hle
    exact absurd htop (not_lt.mpr hle)
  · exact ⟨hlt, hval, h.least, hfirst⟩

/-- Without values it stays where it began. -/
lemma scan_none {n : ℕ} (h : ∀ j < n, d j = none) : scan d top i₀ n = (top, i₀) := by
  induction n with
  | zero => rfl
  | succ n ih =>
    rw [scan_succ, ih fun j hj => h j (Nat.lt_succ_of_lt hj), Argmin.step, h n (Nat.lt_succ_self n)]

end Mono98.Lib.Argmin
