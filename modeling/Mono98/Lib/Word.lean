import Mathlib.Algebra.Group.Nat.Defs
import Mathlib.Tactic.Lemma
import Mathlib.Tactic.SplitIfs

/-!
Increments and decrements of unsigned machine words, kept as natural numbers.
-/

namespace Mono98.Lib.Word

/-- `n + 1` in `w` bits. -/
def inc (w n : ℕ) : ℕ := (n + 1) % 2 ^ w

/-- `n - 1` in `w` bits. -/
def dec (w n : ℕ) : ℕ := if n = 0 then 2 ^ w - 1 else n - 1

lemma inc_of_lt {w n : ℕ} (h : n + 1 < 2 ^ w) : inc w n = n + 1 := Nat.mod_eq_of_lt h

/-- The largest word overflows. -/
lemma inc_max {w n : ℕ} (h : n + 1 = 2 ^ w) : inc w n = 0 := by simp [inc, h]

lemma inc_le (w n : ℕ) : inc w n ≤ n + 1 := Nat.mod_le _ _

lemma dec_of_pos {w n : ℕ} (h : 0 < n) : dec w n = n - 1 := if_neg (by omega)

/-- A property of bytes can be checked on all 256 of them. -/
lemma byte_forall (P : UInt8 → Prop) (h : ∀ n : Fin 256, P (UInt8.ofNat n.val)) (c : UInt8) :
    P c := by
  simpa using h ⟨c.toNat, c.toNat_lt⟩

end Mono98.Lib.Word
