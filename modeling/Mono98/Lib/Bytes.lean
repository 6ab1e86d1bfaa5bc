import Mathlib.Data.List.Basic
import Mathlib.Algebra.Order.Group.Nat
import Mathlib.Tactic.Ring

/-!
Bytes in memory: lists of bytes that stand at an offset, little-endian numbers, and strings
that end with a zero byte.

Memory is seen from a pointer, as a function of the offset.
-/

namespace Mono98.Lib.Bytes

variable {f : ℕ → UInt8} {i : ℕ} {bs cs : List UInt8}

/-- The bytes `bs` stand at offset `i`. -/
def Stands (f : ℕ → UInt8) (i : ℕ) (bs : List UInt8) : Prop :=
  ∀ k (h : k < bs.length), f (i + k) = bs[k]

lemma stands_nil (f : ℕ → UInt8) (i : ℕ) : Stands f i [] := fun _ h => absurd h (Nat.not_lt_zero _)

lemma stands_append : Stands f i (bs ++ cs) ↔ Stands f i bs ∧ Stands f (i + bs.length) cs := by
  constructor
  · refine fun h => ⟨fun k hk => ?_, fun k hk => ?_⟩
    · rw [h k (by simp; omega), List.getElem_append_left hk]
    · rw [Nat.add_assoc, h (bs.length + k) (by simp; omega)]
      simp
  · rintro ⟨h₁, h₂⟩ k hk
    rcases Nat.lt_or_ge k bs.length with hlt | hge
    · rw [List.getElem_append_left hlt]
      exact h₁ k hlt
    · obtain ⟨j, rfl⟩ := Nat.exists_eq_add_of_le hge
      simp only [List.length_append] at hk
      rw [← Nat.add_assoc, h₂ j (by omega)]
      simp

/-- The same bytes, seen from where they start. -/
lemma Stands.from_start (h : Stands f i bs) : Stands (fun n => f (i + n)) 0 bs := by
  intro k hk
  rw [Nat.zero_add]
  exact h k hk

/-- A list as memory. -/
lemma stands_getD (bs : List UInt8) : Stands (fun n => bs.getD n 0) 0 bs := by
  intro k hk
  show bs.getD (0 + k) 0 = bs[k]
  rw [Nat.zero_add, List.getD_eq_getElem?_getD, List.getElem?_eq_getElem hk]
  rfl

/-! ### Little-endian numbers -/

/-- The `w` bytes of `n`, the lowest one first. -/
def le : ℕ → ℕ → List UInt8
  | 0, _ => []
  | w + 1, n => UInt8.ofNat n :: le w (n / 256)

/-- The number whose `w` bytes stand at offset `i`. -/
def load (f : ℕ → UInt8) : ℕ → ℕ → ℕ
  | 0, _ => 0
  | w + 1, i => (f i).toNat + 256 * load f w (i + 1)

@[simp] lemma le_length (w n : ℕ) : (le w n).length = w := by
  induction w generalizing n with
  | zero => rfl
  | succ w ih => simp [le, ih]

/-- Reading a number back, as far as its bytes go. -/
lemma load_le {w n : ℕ} (h : Stands f i (le w n)) : load f w i = n % 256 ^ w := by
  induction w generalizing n i with
  | zero => simp [load, Nat.mod_one]
  | succ w ih =>
    have h0 : f i = UInt8.ofNat n := h 0 (by simp [le])
    have hrest : Stands f (i + 1) (le w (n / 256)) := fun k hk => by
      have := h (k + 1) (by simpa [le] using hk)
      rw [Nat.add_assoc, Nat.add_comm 1 k, this]
      rfl
    rw [load, ih hrest, h0, pow_succ', Nat.mod_mul]
    simp only [UInt8.toNat_ofNat', Nat.reducePow]

/-- Reading back a number that its bytes hold. -/
lemma load_of_stands {w n : ℕ} (h : Stands f i (le w n)) (hn : n < 256 ^ w) :
    load f w i = n := by
  rw [load_le h, Nat.mod_eq_of_lt hn]

/-! ### Strings -/

/-- A string without its terminator stands at offset `i`, and the terminator behind it. -/
structure IsString (f : ℕ → UInt8) (i : ℕ) (s : List UInt8) : Prop where
  stands : Stands f i s
  nonzero : ∀ c ∈ s, c ≠ 0
  ends : f (i + s.length) = 0

lemma isString_getD {s : List UInt8} (h : ∀ c ∈ s, c ≠ 0) : IsString (fun n => s.getD n 0) 0 s :=
  ⟨stands_getD s, h, by simp⟩

/-- Memory with a zero byte holds a string. -/
lemma exists_isString (h : ∃ k, f k = 0) : ∃ s, IsString f 0 s := by
  classical
  refine ⟨(List.range (Nat.find h)).map f, fun k hk => ?_, fun c hc => ?_, ?_⟩
  · rw [Nat.zero_add, List.getElem_map, List.getElem_range]
  · obtain ⟨k, hk, rfl⟩ := List.mem_map.mp hc
    exact Nat.find_min h (List.mem_range.mp hk)
  · rw [Nat.zero_add, List.length_map, List.length_range]
    exact Nat.find_spec h

lemma IsString.ne_zero {s : List UInt8} (h : IsString f i s) {k : ℕ} (hk : k < s.length) :
    f (i + k) ≠ 0 := by
  rw [h.stands k hk]
  exact h.nonzero _ (List.getElem_mem hk)

/-- The same string, seen from where it starts. -/
lemma IsString.from_start {s : List UInt8} (h : IsString f i s) :
    IsString (fun n => f (i + n)) 0 s :=
  ⟨h.stands.from_start, h.nonzero, by rw [Nat.zero_add]; exact h.ends⟩

section Start

variable {s : List UInt8} (h : IsString f 0 s)
include h

lemma IsString.byte_at {k : ℕ} (hk : k < s.length) : f k = s[k] := by
  have hc := h.stands k hk
  rwa [Nat.zero_add] at hc

lemma IsString.ne_zero_at {k : ℕ} (hk : k < s.length) : f k ≠ 0 := by
  have hc := h.ne_zero hk
  rwa [Nat.zero_add] at hc

lemma IsString.at_end : f s.length = 0 := by
  have hend := h.ends
  rwa [Nat.zero_add] at hend

/-- Walking a string: each position holds a byte of it, or is its end. -/
lemma IsString.cases_at {j : ℕ} (hj : j ≤ s.length) :
    (∃ hlt : j < s.length, f j ≠ 0 ∧ f j = s[j]) ∨ j = s.length ∧ f j = 0 := by
  rcases Nat.lt_or_eq_of_le hj with hlt | rfl
  · exact Or.inl ⟨hlt, h.ne_zero_at hlt, h.byte_at hlt⟩
  · exact Or.inr ⟨rfl, h.at_end⟩

end Start

/-- There is only one string at a place. -/
lemma IsString.unique {s t : List UInt8} (hs : IsString f i s) (ht : IsString f i t) : s = t := by
  have key : ∀ {s t : List UInt8}, IsString f i s → IsString f i t → s.length ≤ t.length :=
    fun {s t} hs ht => Nat.le_of_not_lt fun hlt => hs.ne_zero hlt ht.ends
  refine List.ext_getElem (Nat.le_antisymm (key hs ht) (key ht hs)) fun k h₁ h₂ => ?_
  rw [← hs.stands k h₁, ht.stands k h₂]

/-- Two strings are equal when they agree up to the end of the first. -/
lemma IsString.eq_iff {g : ℕ → UInt8} {s t : List UInt8} (hs : IsString f 0 s)
    (ht : IsString g 0 t) : s = t ↔ ∀ k ≤ s.length, f k = g k := by
  constructor
  · rintro rfl k hk
    rcases Nat.lt_or_eq_of_le hk with hlt | rfl
    · rw [hs.byte_at hlt, ht.byte_at hlt]
    · rw [hs.at_end, ht.at_end]
  · intro h
    have hgs : IsString g 0 s := by
      refine ⟨fun k hk => ?_, hs.nonzero, ?_⟩
      · rw [Nat.zero_add, ← h k (Nat.le_of_lt hk), hs.byte_at hk]
      · rw [Nat.zero_add, ← h _ (Nat.le_refl _), hs.at_end]
    exact hgs.unique ht

/-- A field that a string is padded in with zeros. -/
lemma isString_of_padded {s : List UInt8} {n : ℕ} (h : Stands f i (s ++ List.replicate n 0))
    (hn : 0 < n) (h0 : ∀ c ∈ s, c ≠ 0) : IsString f i s := by
  obtain ⟨h₁, h₂⟩ := stands_append.mp h
  have hz := h₂ 0 (by simpa using hn)
  rw [List.getElem_replicate, Nat.add_zero] at hz
  exact ⟨h₁, h0, hz⟩

end Mono98.Lib.Bytes
