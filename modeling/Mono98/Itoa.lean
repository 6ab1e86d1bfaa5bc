import Mono98.Lib.Decimal
import Mono98.Lib.Footprint
import Mono98.Strings

/-!
Printing a number.

`itoa` writes the digits from the lowest one on and turns them around in place, with indices
of 8 bits. Zero has no digit: the index of its last one is 255, so that 256 bytes are turned
around and the string is empty.
-/

namespace Mono98.Itoa

open Mono98.Strings Mono98.Lib.Bytes Mono98.Lib.Word Mono98.Lib.Decimal Mono98.Lib.Footprint

/-! ### The places it works on -/

/-- The indices that the loop of the digits writes to. -/
def digitsTouched (number : ℤ) (length : ℕ) : List ℕ :=
  if number = 0 then [] else length :: digitsTouched (number.tdiv 10) (inc 8 length)
termination_by number.natAbs
decreasing_by
  rw [Int.natAbs_tdiv]
  exact Nat.div_lt_self (Int.natAbs_pos.mpr ‹_›) (by decide)

/-- The indices at which the second loop reads and writes. -/
def reverseTouched (left right : ℕ) : List ℕ :=
  if left < right then right :: left :: reverseTouched (left + 1) (right - 1) else []
termination_by right - left

/-- What the digits have been counted to. -/
def lengthOf (number : ℤ) : ℕ := (itoaDigits number 0 fun _ => 0).1

/-- Every index of `output` that `itoa` reads or writes. -/
def itoaTouched (number : ℤ) : List ℕ :=
  digitsTouched number 0 ++ reverseTouched 0 (dec 8 (lengthOf number)) ++ [lengthOf number]

lemma itoaDigits_within (number : ℤ) (length : ℕ) {S : Set ℕ}
    (h : ∀ i ∈ digitsTouched number length, i ∈ S) :
    (∀ o o', (itoaDigits number length o).1 = (itoaDigits number length o').1) ∧
      Within S fun o => (itoaDigits number length o).2 := by
  induction number, length using digitsTouched.induct with
  | case1 length =>
    have hstep : ∀ o, itoaDigits 0 length o = (length, o) := fun o => by
      rw [itoaDigits, if_pos rfl]
    simp only [hstep]
    exact ⟨fun _ _ => trivial, within_id S⟩
  | case2 number length h0 ih =>
    rw [digitsTouched, if_neg h0, List.forall_mem_cons] at h
    obtain ⟨hlen, hw⟩ := ih h.2
    have hstep : ∀ o, itoaDigits number length o = itoaDigits (number.tdiv 10) (inc 8 length)
        (Function.update o length (UInt8.ofInt (48 + number.tmod 10))) := fun o => by
      rw [itoaDigits, if_neg h0]
    simp only [hstep]
    exact ⟨fun o o' => hlen _ _, hw.comp (within_update h.1 _)⟩

lemma itoaReverse_within (left right : ℕ) {S : Set ℕ}
    (h : ∀ i ∈ reverseTouched left right, i ∈ S) : Within S (itoaReverse left right) := by
  induction left, right using reverseTouched.induct with
  | case1 left right hlt ih =>
    rw [reverseTouched, if_pos hlt, List.forall_mem_cons, List.forall_mem_cons] at h
    have hstep : itoaReverse left right = fun o => itoaReverse (left + 1) (right - 1)
        (Function.update (Function.update o right (o left)) left (o right)) := by
      funext o
      rw [itoaReverse, if_pos hlt]
    rw [hstep]
    exact (ih h.2.2).comp (within_swap h.2.1 h.1)
  | case2 left right hge =>
    have hstep : itoaReverse left right = fun o => o := by
      funext o
      rw [itoaReverse, if_neg hge]
    rw [hstep]
    exact within_id S

/-- **The listed indices** are all that a call depends on, and all that it changes. -/
theorem itoa_within (number : ℤ) : Within {i | i ∈ itoaTouched number} (itoa number) := by
  have hmem : ∀ i, i ∈ itoaTouched number ↔ i ∈ digitsTouched number 0 ∨
      i ∈ reverseTouched 0 (dec 8 (lengthOf number)) ∨ i = lengthOf number := by
    simp [itoaTouched]
  obtain ⟨hlen, hd⟩ := itoaDigits_within number 0
    (S := {i | i ∈ itoaTouched number}) fun i hi => (hmem i).mpr (Or.inl hi)
  have hr := itoaReverse_within 0 (dec 8 (lengthOf number))
    (S := {i | i ∈ itoaTouched number}) fun i hi => (hmem i).mpr (Or.inr (Or.inl hi))
  have hstep : itoa number = fun o => Function.update
      (itoaReverse 0 (dec 8 (lengthOf number)) (itoaDigits number 0 o).2) (lengthOf number) 0 := by
    funext o
    rw [lengthOf, hlen (fun _ => 0) o]
    rfl
  rw [hstep]
  exact (within_update (show lengthOf number ∈ {i | i ∈ itoaTouched number} from
    (hmem _).mpr (Or.inr (Or.inr rfl))) 0).comp (hr.comp hd)

/-! ### What it writes -/

/-- The loop of the digits writes them one behind the other, and counts them. -/
lemma itoaDigits_eq (n length : ℕ) (output : ℕ → UInt8)
    (hl : length + (Nat.digits 10 n).length < 256) :
    ∃ out, itoaDigits n length output = (length + (Nat.digits 10 n).length, out) ∧
      Stands out length ((Nat.digits 10 n).map digit) ∧ (∀ i < length, out i = output i) ∧
      digitsTouched n length = List.range' length (Nat.digits 10 n).length := by
  induction n using Nat.strongRecOn generalizing length output with
  | ind n ih =>
    rw [itoaDigits, digitsTouched]
    by_cases h0 : n = 0
    · subst h0
      exact ⟨output, by simp, by simpa using stands_nil _ _, fun _ _ => rfl, by simp⟩
    have hdig : Nat.digits 10 n = n % 10 :: Nat.digits 10 (n / 10) :=
      Nat.digits_def' (by decide) (Nat.pos_of_ne_zero h0)
    rw [hdig, List.length_cons] at hl
    have hdiv : (n : ℤ).tdiv 10 = ((n / 10 : ℕ) : ℤ) := rfl
    have hmod : UInt8.ofInt (48 + (n : ℤ).tmod 10) = digit (n % 10) := by
      rw [show (n : ℤ).tmod 10 = ((n % 10 : ℕ) : ℤ) from rfl, UInt8.ofInt, digit]
      congr 1
      omega
    rw [if_neg (by omega), if_neg (by omega), hdig, hdiv, hmod,
      inc_of_lt (show length + 1 < 2 ^ 8 by omega)]
    obtain ⟨out, heq, hst, hkeep, htouch⟩ := ih (n / 10) (by omega) (length + 1)
      (Function.update output length (digit (n % 10))) (by omega)
    refine ⟨out, ?_, fun k hk => ?_, fun i hi => ?_, ?_⟩
    · rw [heq, List.length_cons]
      congr 1
      omega
    · cases k with
      | zero =>
        rw [Nat.add_zero, hkeep length (by omega), Function.update_self]
        rfl
      | succ k =>
        rw [show length + (k + 1) = length + 1 + k by omega]
        exact hst k (by simpa using hk)
    · rw [hkeep i (by omega), Function.update_of_ne (by omega)]
    · rw [htouch, List.length_cons, List.range'_succ]

/-- The second loop reads every byte from the other end. -/
lemma itoaReverse_apply (left right i : ℕ) (out : ℕ → UInt8) :
    itoaReverse left right out i =
      if left ≤ i ∧ i ≤ right then out (left + right - i) else out i := by
  induction left, right, out using itoaReverse.induct with
  | case1 left right out hlt ih =>
    rw [itoaReverse, if_pos hlt, ih, show left + 1 + (right - 1) - i = left + right - i by omega]
    simp only [Function.update_apply]
    split_ifs <;> first | omega | rfl | (congr 1; omega)
  | case2 left right out hge =>
    rw [itoaReverse, if_neg hge]
    split_ifs with h
    · congr 1
      omega
    · rfl

lemma reverseTouched_le {left right i : ℕ} (h : i ∈ reverseTouched left right) : i ≤ right := by
  induction left, right using reverseTouched.induct with
  | case1 left right hlt ih =>
    rw [reverseTouched, if_pos hlt, List.mem_cons, List.mem_cons] at h
    rcases h with rfl | rfl | h
    · exact Nat.le_refl _
    · exact Nat.le_of_lt hlt
    · exact Nat.le_trans (ih h) (Nat.sub_le _ _)
  | case2 left right hge =>
    rw [reverseTouched, if_neg hge] at h
    exact absurd h List.not_mem_nil

/-- A number with digits is printed, and the places are those of the digits and one more. -/
lemma itoa_eq {n : ℕ} (h0 : n ≠ 0) (hl : (Nat.digits 10 n).length < 256) (output : ℕ → UInt8) :
    IsString (itoa n output) 0 (numeral n) ∧
      ∀ i ∈ itoaTouched n, i ≤ (Nat.digits 10 n).length := by
  set L := (Nat.digits 10 n).length with hL
  have hpos : 0 < L := List.length_pos_iff.mpr (Nat.digits_ne_nil_iff_ne_zero.mpr h0)
  have hnum : (numeral n).length = L := by
    rw [numeral_of_pos h0, List.length_reverse, List.length_map]
  obtain ⟨out, heq, hst, -, -⟩ := itoaDigits_eq n 0 output (by omega)
  obtain ⟨out', heq', -, -, htouch⟩ := itoaDigits_eq n 0 (fun _ => 0) (by omega)
  rw [Nat.zero_add] at heq heq'
  have hitoa : itoa n output = Function.update (itoaReverse 0 (L - 1) out) L 0 := by
    rw [itoa, heq]
    simp only [← hL, dec_of_pos hpos]
  constructor
  · refine ⟨fun k hk => ?_, (isNumeral_numeral n).ne_zero, ?_⟩
    · have hk' : k < L := hnum ▸ hk
      have hd := hst (L - 1 - k) (by rw [List.length_map]; omega)
      rw [hitoa, Nat.zero_add, Function.update_of_ne (by omega), itoaReverse_apply,
        if_pos ⟨Nat.zero_le _, by omega⟩, show 0 + (L - 1) - k = 0 + (L - 1 - k) by omega, hd]
      simp only [numeral_of_pos h0, List.getElem_reverse, List.length_map, ← hL]
    · rw [hnum, hitoa, Nat.zero_add, Function.update_self]
  · intro i hi
    have hlen : lengthOf n = L := by rw [lengthOf, heq']
    rw [itoaTouched, htouch, hlen, dec_of_pos hpos] at hi
    simp only [List.mem_append, List.mem_range'_1, List.mem_singleton] at hi
    rcases hi with (hi | hi) | hi
    · omega
    · have := reverseTouched_le hi
      omega
    · omega

/-! ### When it prints the number -/

/-- A call works on the first 11 bytes and leaves the numeral of its number there. -/
structure Prints (n : ℤ) (output : ℕ → UInt8) : Prop where
  inside : ∀ i ∈ itoaTouched n, i ≤ 10
  within : Within {i | i ≤ 10} (itoa n)
  text : ∃ s, IsString (itoa n output) 0 s ∧ IsNumeral s ∧ (value s : ℤ) = n

/-- The places of zero: the second loop begins at the index 255. -/
lemma itoaTouched_zero : 255 ∈ itoaTouched 0 := by
  have hlen : lengthOf 0 = 0 := by rw [lengthOf, itoaDigits, if_pos rfl]
  rw [itoaTouched, hlen, reverseTouched, if_pos (by decide)]
  simp [dec]

/-- **Every number but zero** is printed. -/
theorem itoa_prints {n : ℤ} (h0 : 0 ≤ n) (hn : n ≤ 2 ^ 31 - 1) (output : ℕ → UInt8) :
    Prints n output ↔ n ≠ 0 := by
  constructor
  · rintro h rfl
    exact absurd (h.inside 255 itoaTouched_zero) (by decide)
  · intro hne
    obtain ⟨n, rfl⟩ := Int.eq_ofNat_of_zero_le h0
    have hl : (Nat.digits 10 n).length ≤ 10 :=
      (Nat.digits_length_le_iff (by decide) n).mpr (by omega)
    obtain ⟨hs, htouch⟩ := itoa_eq (by omega) (Nat.lt_of_le_of_lt hl (by decide)) output
    have hin : ∀ i ∈ itoaTouched n, i ≤ 10 := fun i hi => Nat.le_trans (htouch i hi) hl
    refine ⟨hin, (itoa_within n).mono hin, numeral n, hs, isNumeral_numeral n, ?_⟩
    rw [value_numeral]

/-- The largest number. -/
theorem itoa_prints_largest : Prints (2 ^ 31 - 1) fun _ => 0 :=
  (itoa_prints (by decide) (Int.le_refl _) _).mpr (by decide)

/-- Zero is not printed. -/
theorem itoa_zero : ¬ Prints 0 fun _ => 0 := fun h =>
  absurd (h.inside 255 itoaTouched_zero) (by decide)

end Mono98.Itoa
