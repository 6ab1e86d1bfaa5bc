import Mathlib.Data.Nat.Digits.Lemmas

/-!
Decimal numerals as strings of bytes.
-/

namespace Mono98.Lib.Decimal

/-- The character of a digit. -/
def digit (d : ℕ) : UInt8 := UInt8.ofNat (48 + d)

/-- The number that a string of digits denotes. -/
def value (s : List UInt8) : ℕ := s.foldl (fun v c => 10 * v + (c.toNat - 48)) 0

/-- A numeral as it should be written: digits, at least one, and no zero in front of others. -/
structure IsNumeral (s : List UInt8) : Prop where
  digits : ∀ c ∈ s, 48 ≤ c.toNat ∧ c.toNat ≤ 57
  ne_nil : s ≠ []
  leading : 1 < s.length → s.head? ≠ some 48

/-- The numeral of `n`. -/
def numeral (n : ℕ) : List UInt8 :=
  if n = 0 then [48] else ((Nat.digits 10 n).map digit).reverse

lemma numeral_of_pos {n : ℕ} (h : n ≠ 0) :
    numeral n = ((Nat.digits 10 n).map digit).reverse := if_neg h

lemma digit_toNat {d : ℕ} (h : d < 10) : (digit d).toNat = 48 + d := by
  simp only [digit, UInt8.toNat_ofNat', Nat.reducePow]
  omega

/-- Reading digits back, the lowest one first. -/
lemma value_reverse {ds : List ℕ} (h : ∀ d ∈ ds, d < 10) :
    value ((ds.map digit).reverse) = Nat.ofDigits 10 ds := by
  rw [value, List.foldl_reverse]
  induction ds with
  | nil => rfl
  | cons d ds ih =>
    rw [List.map_cons, List.foldr_cons, ih fun e he => h e (by simp [he]),
      digit_toNat (h d (by simp)), Nat.ofDigits_cons]
    omega

/-- **The numeral of a number** denotes it. -/
theorem value_numeral (n : ℕ) : value (numeral n) = n := by
  by_cases h : n = 0
  · subst h; rfl
  · rw [numeral_of_pos h, value_reverse fun d hd => Nat.digits_lt_base (by decide) hd,
      Nat.ofDigits_digits]

lemma isNumeral_numeral (n : ℕ) : IsNumeral (numeral n) := by
  by_cases h : n = 0
  · subst h
    exact ⟨by simp [numeral], by simp [numeral], by simp [numeral]⟩
  have hlt : ∀ d ∈ Nat.digits 10 n, d < 10 := fun d hd => Nat.digits_lt_base (by decide) hd
  have hne : Nat.digits 10 n ≠ [] := Nat.digits_ne_nil_iff_ne_zero.mpr h
  rw [numeral_of_pos h]
  refine ⟨fun c hc => ?_, by simpa using hne, fun _ hz => ?_⟩
  · simp only [List.mem_reverse, List.mem_map] at hc
    obtain ⟨d, hd, rfl⟩ := hc
    have := hlt d hd
    rw [digit_toNat this]
    omega
  · -- the highest digit is not zero
    rw [List.head?_reverse, List.getLast?_map, List.getLast?_eq_some_getLast hne] at hz
    have hlast := Nat.getLast_digit_ne_zero 10 h
    have hd := digit_toNat (hlt _ (List.getLast_mem hne))
    simp only [Option.map_some, Option.some.injEq] at hz
    rw [hz] at hd
    have : (48 : UInt8).toNat = 48 := rfl
    omega

lemma IsNumeral.ne_zero {s : List UInt8} (h : IsNumeral s) : ∀ c ∈ s, c ≠ 0 := by
  rintro c hc rfl
  exact absurd (h.digits 0 hc).1 (by decide)

lemma numeral_length_le {n k : ℕ} (hk : 0 < k) (h : n < 10 ^ k) : (numeral n).length ≤ k := by
  by_cases h0 : n = 0
  · subst h0
    exact hk
  · rw [numeral_of_pos h0, List.length_reverse, List.length_map]
    exact (Nat.digits_length_le_iff (by decide) n).mpr h

end Mono98.Lib.Decimal
