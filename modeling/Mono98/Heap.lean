import Mathlib.Algebra.BigOperators.Group.List.Basic
import Mathlib.Data.List.Induction
import Mono98.Process

/-!
The heap of a program.

`SYS_MALLOC` hands out a 32-bit pointer and moves it up by what was asked for. There is no
test against the end of memory: the blocks of a run are sound exactly as long as the requests
stay below it.
-/

namespace Mono98.Heap

open Mono98.Process

/-- The `len` bytes from `start` on. -/
structure Block where
  start : ℕ
  len : ℕ

def Block.Mem (b : Block) (a : ℕ) : Prop := b.start ≤ a ∧ a < b.start + b.len

/-- The kernel after a sequence of requests. -/
def after (k : Kernel) (lens : List ℕ) : Kernel := lens.foldl (fun k len => (sysMalloc k len).2) k

/-- The block that a request is answered with. -/
def block (k : Kernel) (len : ℕ) : Block := ⟨(sysMalloc k len).1, len⟩

/-- The blocks of a sequence of requests. -/
def blocks : Kernel → List ℕ → List Block
  | _, [] => []
  | k, len :: lens => block k len :: blocks (sysMalloc k len).2 lens

/-- A block in the heap, below the end of memory, that shares no byte with an earlier one. -/
structure Good (earlier : List Block) (b : Block) : Prop where
  above : defaultMallocLocation ≤ b.start
  below : b.start + b.len ≤ 2 ^ 32
  disjoint : ∀ e ∈ earlier, ∀ a, ¬ (e.Mem a ∧ b.Mem a)

/-- Every request of the run that reports success is answered with a good block. -/
def AllGood (k : Kernel) (lens : List ℕ) : Prop :=
  ∀ pre len post, lens = pre ++ len :: post → (sysMalloc (after k pre) len).2.errno = eokay →
    Good (blocks k pre) (block (after k pre) len)

/-- No request passes the end of memory, and none is made when all of it has been used. -/
def Room (lens : List ℕ) : Prop :=
  ∀ pre len post, lens = pre ++ len :: post →
    defaultMallocLocation + pre.sum < 2 ^ 32 ∧ defaultMallocLocation + pre.sum + len ≤ 2 ^ 32

variable {k : Kernel} {lens : List ℕ}

lemma after_snoc (k : Kernel) (pre : List ℕ) (len : ℕ) :
    after k (pre ++ [len]) = (sysMalloc (after k pre) len).2 := by
  simp [after]

lemma blocks_snoc (k : Kernel) (pre : List ℕ) (len : ℕ) :
    blocks k (pre ++ [len]) = blocks k pre ++ [block (after k pre) len] := by
  induction pre generalizing k with
  | nil => rfl
  | cons l pre ih => exact congrArg (block k l :: ·) (ih (sysMalloc k l).2)

/-- Where the next block starts. -/
lemma after_start (hk : k.mallocStart < 2 ^ 32) (pre : List ℕ) :
    (after k pre).mallocStart = (k.mallocStart + pre.sum) % 2 ^ 32 := by
  induction pre using List.reverseRecOn with
  | nil => exact (Nat.mod_eq_of_lt hk).symm
  | append_singleton pre len ih =>
    rw [after_snoc, List.sum_append, List.sum_singleton]
    show ((after k pre).mallocStart + len) % 2 ^ 32 = _
    rw [ih, Nat.mod_add_mod, Nat.add_assoc]

lemma block_start (hk : k.mallocStart = defaultMallocLocation) {pre : List ℕ} (len : ℕ)
    (h : defaultMallocLocation + pre.sum < 2 ^ 32) :
    block (after k pre) len = ⟨defaultMallocLocation + pre.sum, len⟩ := by
  have hs := after_start (k := k) (by rw [hk]; decide) pre
  rw [hk, Nat.mod_eq_of_lt h] at hs
  simp only [block, sysMalloc, hs]

lemma Room.left {pre : List ℕ} (post : List ℕ) (h : Room (pre ++ post)) : Room pre :=
  fun pre' len post' heq => h pre' len (post' ++ post) (by rw [heq]; simp)

/-- The blocks handed out lie below the next one. -/
lemma blocks_below (hk : k.mallocStart = defaultMallocLocation) {pre : List ℕ} (h : Room pre) :
    ∀ e ∈ blocks k pre, e.start + e.len ≤ defaultMallocLocation + pre.sum := by
  induction pre using List.reverseRecOn with
  | nil => intro e he; cases he
  | append_singleton pre len ih =>
    intro e he
    rw [blocks_snoc, block_start hk len (h pre len [] rfl).1] at he
    rw [List.sum_append, List.sum_singleton]
    rcases List.mem_append.mp he with he | he
    · have := ih (h.left _) e he
      omega
    · rw [List.mem_singleton.mp he]
      show defaultMallocLocation + pre.sum + len ≤ _
      omega

/-- **Heap blocks**: the blocks of a run lie in the heap and never overlap exactly when its
requests find room below the end of memory. -/
theorem allGood_iff (hk : k.mallocStart = defaultMallocLocation) (lens : List ℕ) :
    AllGood k lens ↔ Room lens := by
  constructor
  · intro hg pre
    -- the earlier requests have not used up the memory
    have key : ∀ pre len post, lens = pre ++ len :: post →
        defaultMallocLocation + pre.sum < 2 ^ 32 := by
      intro pre
      induction pre using List.reverseRecOn with
      | nil => intro _ _ _; decide
      | append_singleton pre l ih =>
        intro len post heq
        have hlt := ih l (len :: post) (by simp [heq])
        have hb := (hg pre l (len :: post) (by simp [heq]) rfl).below
        have ha := (hg (pre ++ [l]) len post heq rfl).above
        rw [block_start hk l hlt] at hb
        have hs := after_start (k := k) (by rw [hk]; decide) (pre ++ [l])
        rw [hk, List.sum_append, List.sum_singleton] at hs
        rw [List.sum_append, List.sum_singleton]
        refine Nat.lt_of_le_of_ne (by simp only at hb; omega) fun hfull => ?_
        have h0 : (block (after k (pre ++ [l])) len).start = 0 := by
          show (after k (pre ++ [l])).mallocStart = 0
          rw [hs, hfull, Nat.mod_self]
        rw [h0] at ha
        exact absurd ha (by decide)
    intro len post heq
    have hlt := key pre len post heq
    have hb := (hg pre len post heq rfl).below
    rw [block_start hk len hlt] at hb
    exact ⟨hlt, hb⟩
  · rintro hroom pre len post heq -
    obtain ⟨hlt, hle⟩ := hroom pre len post heq
    rw [block_start hk len hlt]
    refine ⟨Nat.le_add_right _ _, hle, fun e he a ⟨h1, h2⟩ => ?_⟩
    have hpre : Room pre := Room.left (len :: post) (heq ▸ hroom)
    have := blocks_below hk hpre e he
    have h1' := h1.2
    have h2' : defaultMallocLocation + pre.sum ≤ a := h2.1
    omega

/-- Two requests that find room. -/
theorem allGood_two : AllGood (.boot (fun _ => 0) fun _ => 0) [16, 4096] ↔ Room [16, 4096] :=
  allGood_iff rfl [16, 4096]

/-- The block of a request of nearly 4 GiB ends behind the last address. -/
theorem block_past_end : ¬ AllGood (.boot (fun _ => 0) fun _ => 0) [2 ^ 32 - 1] := by
  intro h
  have hb := (h [] (2 ^ 32 - 1) [] rfl rfl).below
  exact absurd hb (by decide)

end Mono98.Heap
