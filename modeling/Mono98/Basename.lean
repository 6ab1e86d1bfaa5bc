import Mono98.Packer

/-!
The base name of a path.

The search for the next separator begins at the one just found. It finds that one again, so
that only a path with a single separator has a base name: without one the search goes on from a
null pointer, and with two it never ends.
-/

namespace Mono98.Basename

open Mono98.Packer

variable {c : UInt8} {path r : List UInt8}

/-- What stands behind the last `c`, or everything if there is none. -/
def afterLast (c : UInt8) (path : List UInt8) : List UInt8 :=
  (path.reverse.takeWhile (· ≠ c)).reverse

lemma afterLast_append (dir : List UInt8) {base : List UInt8} (hb : c ∉ base) :
    afterLast c (dir ++ c :: base) = base := by
  have hall : ∀ d ∈ base.reverse, decide (d ≠ c) = true := fun d hd => by
    simpa using fun h : d = c => hb (h ▸ List.mem_reverse.mp hd)
  rw [afterLast, List.reverse_append, List.reverse_cons, List.append_assoc,
    List.takeWhile_append_of_pos hall]
  simp

/-- A search that begins at a separator never gets on. -/
lemma basenameLoop_stuck (n : ℕ) (s : List UInt8) : basenameLoop c n (c :: s) = none := by
  induction n with
  | zero => rfl
  | succ n ih =>
    rw [basenameLoop, show strchr c (c :: s) = some (c :: s) from if_pos rfl]
    exact ih

/-- With another separator the loop never ends. -/
lemma basenameLoop_again (n : ℕ) {s : List UInt8} (h : c ∈ s) : basenameLoop c n s = none := by
  obtain ⟨l, t, rfl, hl⟩ := List.eq_append_cons_of_mem h
  cases n with
  | zero => rfl
  | succ n =>
    rw [basenameLoop, strchr_append hl]
    exact basenameLoop_stuck n t

/-- Without one it ends in the first round. -/
lemma basenameLoop_last {n : ℕ} (hn : 0 < n) {s : List UInt8} (h : c ∉ s) :
    basenameLoop c n s = some s := by
  obtain ⟨n, rfl⟩ := Nat.exists_eq_add_of_lt hn
  rw [basenameLoop, strchr_none h]

/-- The rounds that `basename` allows for are no restriction. -/
lemma basename_rounds (path r : List UInt8) (c : UInt8) :
    basename path c = some r ↔
      ∃ n s, strchr c path = some s ∧ basenameLoop c n s.tail = some r := by
  rw [basename]
  cases hs : strchr c path with
  | none => simp
  | some s =>
    rw [Option.bind_some]
    by_cases h : c ∈ s.tail
    · simp [basenameLoop_again _ h]
    · constructor
      · exact fun hr => ⟨_, s, rfl, hr⟩
      · rintro ⟨n, s', hs', hr⟩
        obtain rfl := Option.some.inj hs'
        cases n with
        | zero => exact absurd hr (by simp [basenameLoop])
        | succ n =>
          rw [basenameLoop_last (Nat.succ_pos n) h] at hr
          rw [basenameLoop_last (Nat.succ_pos _) h, hr]

/-- The call ends after some rounds, every one of its searches begins inside the path, and it
returns what stands behind the last separator. -/
def Works (path : List UInt8) : Prop :=
  ∃ n s, strchr 47 path = some s ∧ basenameLoop 47 n s.tail = some (afterLast 47 path)

/-- **A base name** is found exactly for a path with one separator. -/
theorem basename_works (path : List UInt8) : Works path ↔ path.count 47 = 1 := by
  rw [Works, ← basename_rounds]
  by_cases h : 47 ∈ path
  · obtain ⟨dir, base, rfl, hd⟩ := List.eq_append_cons_of_mem h
    rw [List.count_append, List.count_cons_self, List.count_eq_zero_of_not_mem hd]
    by_cases hb : 47 ∈ base
    · have hcount := List.count_pos_iff.mpr hb
      have hnone : basename (dir ++ 47 :: base) 47 = none := by
        rw [basename, strchr_append hd]
        exact basenameLoop_again _ hb
      rw [hnone]
      constructor
      · intro h'; cases h'
      · omega
    · rw [basename_eq hd hb, afterLast_append dir hb, List.count_eq_zero_of_not_mem hb]
      simp
  · rw [basename, strchr_none h, List.count_eq_zero_of_not_mem h]
    simp

/-- The path `a/b/C` has no base name. -/
theorem twoSeparators_stuck : ¬ Works [97, 47, 98, 47, 67] := by
  rintro ⟨n, s, hs, h⟩
  obtain rfl := Option.some.inj (hs.symm.trans (strchr_append (s := [97]) (by simp) [98, 47, 67]))
  rw [List.tail_cons, basenameLoop_again n (by simp)] at h
  cases h

end Mono98.Basename
