import Mathlib.Data.List.Basic
import Mathlib.Logic.Function.Basic

/-!
Rings of `n` slots whose indices are positions of an unbounded log, modulo `n`.

The log is everything that was ever written; a slot holds the newest entry of the log that
falls on it. Two positions less than `n` apart fall on different slots, and so a reader that
is never `n` entries behind finds the entry it is at, and can tell from the indices alone
whether it has caught up.
-/

namespace Mono98.Lib.Ring

variable {α : Type*} {n : ℕ} {slot : ℕ → α} {log : List α}

/-- The slots hold the last `n` entries of the log. -/
def Holds (n : ℕ) (slot : ℕ → α) (log : List α) : Prop :=
  ∀ j, log.length ≤ j + n → ∀ h : j < log.length, slot (j % n) = log[j]

lemma holds_nil (n : ℕ) (slot : ℕ → α) : Holds n slot [] :=
  fun _ _ h => absurd h (Nat.not_lt_zero _)

/-- Positions less than `n` apart are the same if they fall on the same slot. -/
lemma eq_of_mod_eq {a b : ℕ} (hab : a ≤ b) (hlt : b < a + n) (h : a % n = b % n) : a = b := by
  have hd : (b - a) % n = 0 := Nat.sub_mod_eq_zero_of_mod_eq h.symm
  rw [Nat.mod_eq_of_lt (by omega)] at hd
  omega

/-- Writing an entry at its position. -/
lemma Holds.push (h : Holds n slot log) (a : α) :
    Holds n (Function.update slot (log.length % n) a) (log ++ [a]) := by
  intro j hn hj
  simp only [List.length_append, List.length_singleton] at hn hj
  rcases Nat.lt_or_ge j log.length with hlt | hge
  · have hne : j % n ≠ log.length % n := fun he => by
      have := eq_of_mod_eq (by omega) (by omega) he
      omega
    rw [Function.update_of_ne hne, List.getElem_append_left hlt]
    exact h j (by omega) hlt
  · obtain rfl : j = log.length := by omega
    simp

lemma Holds.read (h : Holds n slot log) {j : ℕ} (hj : j < log.length) (hn : log.length ≤ j + n) :
    log[j]? = some (slot (j % n)) := by
  rw [List.getElem?_eq_getElem hj, h j hn hj]

/-! ### Readers that fall behind -/

/-- The slot of a position holds the newest entry that falls on it, whole rounds behind. -/
lemma Holds.newest (h : Holds n slot log) (hn : 0 < n) {b : ℕ} (hb : b < log.length) :
    ∃ p, b ≤ p ∧ n ∣ p - b ∧ log[p]? = some (slot (b % n)) := by
  have hm := Nat.mod_lt (log.length - 1 - b) hn
  have hd := Nat.mod_add_div (log.length - 1 - b) n
  have hp : (b + n * ((log.length - 1 - b) / n)) % n = b % n := Nat.add_mul_mod_self_left b n _
  refine ⟨b + n * ((log.length - 1 - b) / n), Nat.le_add_right b _, ?_, ?_⟩
  · rw [Nat.add_sub_cancel_left]
    exact Nat.dvd_mul_right n _
  · rw [← hp]
    exact h.read (by omega) (by omega)

/-- What is kept of a log when whole rounds of `n` entries in a row are left out of it. -/
inductive Skips (n : ℕ) : List α → List α → Prop
  | nil : Skips n [] []
  | keep {log kept : List α} (h : Skips n log kept) (a : α) : Skips n (log ++ [a]) (kept ++ [a])
  | skip {log kept lost : List α} (h : Skips n log kept) (hn : n ∣ lost.length) :
      Skips n (log ++ lost) kept

variable {kept : List α}

/-- What is kept stays in order. -/
lemma Skips.sublist (h : Skips n log kept) : kept.Sublist log := by
  induction h with
  | nil => exact List.Sublist.slnil
  | keep _ a ih => exact ih.append (List.Sublist.refl [a])
  | skip _ _ ih => exact ih.trans (List.sublist_append_left _ _)

/-- The number of entries left out is a multiple of `n`. -/
lemma Skips.length_mod (h : Skips n log kept) : log.length % n = kept.length % n := by
  induction h with
  | nil => rfl
  | keep _ a ih => rw [List.length_append, List.length_append, Nat.add_mod, ih, ← Nat.add_mod]
  | skip _ hn ih =>
    obtain ⟨k, hk⟩ := hn
    rw [List.length_append, hk, Nat.add_mul_mod_self_left, ih]

/-- A reader at position `b` takes the newest entry of its slot. -/
lemma Skips.take {b p : ℕ} {a : α} (h : Skips n (log.take b) kept) (hbp : b ≤ p) (hn : n ∣ p - b)
    (ha : log[p]? = some a) : Skips n (log.take (p + 1)) (kept ++ [a]) := by
  have hp : p < log.length := (List.getElem?_eq_some_iff.mp ha).1
  have hsplit : log.take p = log.take b ++ (log.drop b).take (p - b) := by
    rw [← List.take_add, Nat.add_sub_cancel' hbp]
  have hlost : ((log.drop b).take (p - b)).length = p - b := by
    rw [List.length_take, List.length_drop]
    omega
  rw [List.take_add_one, ha, hsplit]
  exact (h.skip (by rw [hlost]; exact hn)).keep a

end Mono98.Lib.Ring
