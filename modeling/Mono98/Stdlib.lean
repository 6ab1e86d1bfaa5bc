import Mono98.Heap
import Mono98.Lib.Footprint
import Mono98.Lib.Period
import Mono98.Syscall

/-!
The library of the programs.

`calloc` multiplies in 32 bits before it asks for memory, and `rand` reduces its seed by one less
than the modulus that it is meant to have.
-/

namespace Mono98.Stdlib

open Mono98.Process Mono98.Syscall Mono98.Heap Mono98.Lib.Footprint

/-! ### Allocating -/

/-- The address that `SYS_MALLOC` answers with. -/
def malloc (k : Kernel) (len : UInt32) : ℕ × Kernel := sysMalloc k len.toNat

/-- The addresses that `calloc` writes zeros to, in order. -/
def clears (result : ℕ) (len : UInt32) : List ℕ :=
  (List.range len.toNat).map fun i => (result + i) % 2 ^ 32

/-- The address, the kernel, and the memory afterwards. -/
def calloc (k : Kernel) (mem : ℕ → UInt8) (num size : UInt32) : ℕ × Kernel × (ℕ → UInt8) :=
  let (result, k) := malloc k (num * size)
  (result, k, (clears result (num * size)).foldl (fun mem a => Function.update mem a 0) mem)

variable {around : ℤ → ℕ} {k : Kernel} {mem : ℕ → UInt8} {num size : UInt32}

/-- The call of the kernel behind `malloc`. -/
theorem malloc_syscall {c : Call} (hc : c.kind = some .malloc) :
    ∃ a, syscall around k c = some a ∧ (a.result, a.kernel) = malloc k c.arg1 :=
  ⟨⟨_, _, c.buf⟩, by simp only [syscall, hc]; rfl, rfl⟩

/-- A block that does not go round the end of the memory is cleared from end to end. -/
lemma mem_clears {start a : ℕ} {len : UInt32} (h : start + len.toNat ≤ 2 ^ 32) :
    a ∈ clears start len ↔ start ≤ a ∧ a < start + len.toNat := by
  simp only [clears, List.mem_map, List.mem_range]
  constructor
  · rintro ⟨i, hi, rfl⟩
    rw [Nat.mod_eq_of_lt (by omega)]
    omega
  · rintro ⟨h₁, h₂⟩
    exact ⟨a - start, by omega, by rw [Nat.mod_eq_of_lt (by omega)]; omega⟩

/-- What the caller may rely on when the address is not null: a block of `num * size` bytes has
been reserved there, they are zero, and nothing has been written outside of the block. -/
structure Allocates (k : Kernel) (mem : ℕ → UInt8) (num size : UInt32) : Prop where
  start : (calloc k mem num size).1 = (block k (num * size).toNat).start
  reserved : num.toNat * size.toNat ≤ (block k (num * size).toNat).len ∧
    (block k (num * size).toNat).start + (block k (num * size).toNat).len ≤ 2 ^ 32
  zero : ∀ i < num.toNat * size.toNat,
    (calloc k mem num size).2.2 ((calloc k mem num size).1 + i) = 0
  inside : ∀ a ∈ clears (calloc k mem num size).1 (num * size),
    (block k (num * size).toNat).Mem a

/-- **Clear memory** is handed out when the product itself fits behind the start of the heap, or
the address is null. -/
theorem calloc_allocates (k : Kernel) (mem : ℕ → UInt8) (num size : UInt32) :
    ((calloc k mem num size).1 ≠ 0 → Allocates k mem num size) ↔
      k.mallocStart = 0 ∨ k.mallocStart + num.toNat * size.toNat ≤ 2 ^ 32 := by
  have hres : (calloc k mem num size).1 = k.mallocStart := rfl
  have hmul : (num * size).toNat = num.toNat * size.toNat % 2 ^ 32 := UInt32.toNat_mul num size
  have hblock : block k (num * size).toNat = ⟨k.mallocStart, (num * size).toNat⟩ := rfl
  rw [hres]
  constructor
  · intro h
    by_cases h0 : k.mallocStart = 0
    · exact Or.inl h0
    · obtain ⟨hle, hend⟩ := (h h0).reserved
      rw [hblock] at hle hend
      exact Or.inr (by simp only at hle hend; omega)
  · intro h h0
    have hend := h.resolve_left h0
    have hlen : (num * size).toNat = num.toNat * size.toNat := by
      rw [hmul, Nat.mod_eq_of_lt (by omega)]
    have hmem : ∀ a, a ∈ clears k.mallocStart (num * size) ↔
        k.mallocStart ≤ a ∧ a < k.mallocStart + (num * size).toNat :=
      fun a => mem_clears (by rw [hlen]; exact hend)
    refine ⟨rfl, ?_, fun i hi => ?_, fun a ha => ?_⟩
    · rw [hblock, hlen]
      exact ⟨Nat.le_refl _, hend⟩
    · show (clears k.mallocStart (num * size)).foldl _ mem (k.mallocStart + i) = 0
      rw [foldl_update_apply, if_pos ((hmem _).mpr (by omega))]
    · exact (hmem a).mp ha

/-- 65536 elements of 65536 bytes: a block without a byte. -/
theorem calloc_wraps : ¬ ((calloc (.boot (fun _ => 0) fun _ => 0) (fun _ => 0) 65536 65536).1 ≠ 0 →
    Allocates (.boot (fun _ => 0) fun _ => 0) (fun _ => 0) 65536 65536) := by
  intro h
  have hle := (h (by decide)).reserved.1
  revert hle
  decide

/-! ### Random numbers -/

def randA : UInt32 := 1664525
def randC : UInt32 := 1013904223
def randM : UInt32 := 0xFFFFFFFF -- 2^32

/-- The seed that is set. -/
def srand (seed : UInt32) : UInt32 := seed

/-- The number returned, and the next seed. -/
def rand (seed : UInt32) : UInt32 × UInt32 :=
  let seed := (randA * seed + randC) % randM
  (seed &&& 0x7FFFFFFF, seed)

/-- The seed after `n` calls. -/
def seedAfter (seed : UInt32) (n : ℕ) : UInt32 := (fun s => (rand s).2)^[n] (srand seed)

/-- The seeds come back to the start after 2³² calls, and not before. -/
def FullPeriod (seed : UInt32) : Prop :=
  seedAfter seed (2 ^ 32) = srand seed ∧
    ∀ n, 0 < n → n < 2 ^ 32 → seedAfter seed n ≠ srand seed

/-- The largest word is never a seed again. -/
lemma rand_lt (s : UInt32) : (rand s).2.toNat < 2 ^ 32 - 1 := by
  show ((randA * s + randC) % randM).toNat < 2 ^ 32 - 1
  rw [UInt32.toNat_mod]
  exact Nat.mod_lt _ (by decide)

/-- The seeds that the sums 0 and 2³² - 1 come from have the same next one. -/
lemma next_eq : (rand 0x25D60FE5).2 = (rand 0x26F5B720).2 := by decide

/-- **No seed has the full period**, and two seeds are followed by the same one. -/
theorem rand_short (seed : UInt32) :
    ¬ Function.Injective (fun s => (rand s).2) ∧ ¬ FullPeriod seed := by
  constructor
  · exact fun h => absurd (h next_eq) (by decide)
  · rintro ⟨hback, hfirst⟩
    obtain ⟨m, hpos, hlt, hm⟩ := Lib.Period.exists_return (fun _ _ => UInt32.toNat_inj.mp) rand_lt
      (show 2 ^ 32 - 1 < 2 ^ 32 by simp) hback
    exact hfirst m hpos hlt hm

/-- Two seeds are followed by the same one. -/
theorem rand_collides : ¬ Function.Injective fun s => (rand s).2 := fun h =>
  absurd (h next_eq) (by decide)

end Mono98.Stdlib
