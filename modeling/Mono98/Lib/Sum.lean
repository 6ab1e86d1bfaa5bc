import Mathlib.Algebra.BigOperators.Group.List.Basic
import Mathlib.Algebra.GroupWithZero.Nat
import Mathlib.Data.List.Basic

/-!
Sums of machine words, reduced at every step.
-/

namespace Mono98.Lib.Sum

/-- The reductions on the way make no difference. -/
lemma foldl_add_mod {α : Type*} (M : ℕ) (f : α → ℕ) (l : List α) (r : ℕ) :
    l.foldl (fun r a => (r + f a) % M) r % M = (r + (l.map f).sum) % M := by
  induction l generalizing r with
  | nil => simp
  | cons a l ih =>
    rw [List.foldl_cons, ih, List.map_cons, List.sum_cons, Nat.mod_add_mod, Nat.add_assoc]

/-- One of the summands is replaced, if it is one. -/
lemma sum_update (f : ℕ → ℕ) (x n i : ℕ) :
    ((List.range n).map (Function.update f i x)).sum + (if i < n then f i else 0) =
      ((List.range n).map f).sum + (if i < n then x else 0) := by
  induction n with
  | zero => simp
  | succ n ih =>
    simp only [List.range_succ, List.map_append, List.sum_append, List.map_cons, List.map_nil,
      List.sum_singleton]
    rcases Nat.lt_trichotomy i n with hlt | rfl | hgt
    · rw [if_pos hlt, if_pos hlt] at ih
      rw [Function.update_of_ne (by omega), if_pos (by omega), if_pos (by omega)]
      omega
    · rw [if_neg (Nat.lt_irrefl i), if_neg (Nat.lt_irrefl i)] at ih
      rw [Function.update_self, if_pos (Nat.lt_succ_self i), if_pos (Nat.lt_succ_self i)]
      omega
    · rw [if_neg (by omega), if_neg (by omega)] at ih
      rw [Function.update_of_ne (by omega), if_neg (by omega), if_neg (by omega)]
      omega

end Mono98.Lib.Sum
