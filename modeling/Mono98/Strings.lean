import Mono98.Lib.Bytes
import Mono98.Lib.Word

/-!
The string routines of the kernel.

A pointer is the memory from it on, a function of the offset. The scans of `strcmp` and
`strlen` count with 32-bit indices; one that has gone through the whole address space without
an end never ends, and is `none`.
-/

namespace Mono98.Strings

open Mono98.Lib.Bytes Mono98.Lib.Word

/-- The difference of two bytes as `uint8_t`. -/
def memcmpLoop (data1 data2 : ℕ → UInt8) : List ℕ → ℤ
  | [] => 0
  | i :: is =>
    if data1 i ≠ data2 i then (data1 i).toNat - (data2 i).toNat else memcmpLoop data1 data2 is

def memcmp (data1 data2 : ℕ → UInt8) (len : ℕ) : ℤ := memcmpLoop data1 data2 (List.range len)

/-- The difference of two bytes as signed `char`. -/
def charDiff (a b : UInt8) : ℤ := a.toInt8.toInt - b.toInt8.toInt

/-- The scan from index `i`, at most `n` rounds of it. -/
def strcmpLoop (str1 str2 : ℕ → UInt8) : ℕ → ℕ → Option ℤ
  | 0, _ => none
  | n + 1, i =>
    if str1 i = 0 then some (if str2 i ≠ 0 then charDiff (str1 i) (str2 i) else 0)
    else if str1 i ≠ str2 i then some (charDiff (str1 i) (str2 i))
    else strcmpLoop str1 str2 n (inc 32 i)

def strcmp (str1 str2 : ℕ → UInt8) : Option ℤ := strcmpLoop str1 str2 (2 ^ 32) 0

/-- `while (ptr[++result])`, at most `n` rounds of it. -/
def strlenLoop (ptr : ℕ → UInt8) : ℕ → ℕ → Option ℕ
  | 0, _ => none
  | n + 1, result =>
    if ptr (inc 32 result) = 0 then some (inc 32 result) else strlenLoop ptr n (inc 32 result)

def strlen (ptr : ℕ → UInt8) : Option ℕ := strlenLoop ptr (2 ^ 32) 0

def memset (ptr : ℕ → UInt8) (c : UInt8) (len : ℕ) : ℕ → UInt8 :=
  (List.range len).foldl (fun ptr i => Function.update ptr i c) ptr

def memcpy (ptr1 ptr2 : ℕ → UInt8) (len : ℕ) : ℕ → UInt8 :=
  (List.range len).foldl (fun ptr1 i => Function.update ptr1 i (ptr2 i)) ptr1

/-- The digits of `itoa`, from the lowest one; the length is a `uint8_t`. -/
def itoaDigits (number : ℤ) (length : ℕ) (output : ℕ → UInt8) : ℕ × (ℕ → UInt8) :=
  if number = 0 then (length, output)
  else
    itoaDigits (number.tdiv 10) (inc 8 length)
      (Function.update output length (UInt8.ofInt (48 + number.tmod 10)))
termination_by number.natAbs
decreasing_by
  rw [Int.natAbs_tdiv]
  exact Nat.div_lt_self (Int.natAbs_pos.mpr ‹_›) (by decide)

/-- The loop that turns the bytes from `left` to `right` around. -/
def itoaReverse (left right : ℕ) (output : ℕ → UInt8) : ℕ → UInt8 :=
  if left < right then
    itoaReverse (left + 1) (right - 1)
      (Function.update (Function.update output right (output left)) left (output right))
  else output
termination_by right - left

def itoa (number : ℤ) (output : ℕ → UInt8) : ℕ → UInt8 :=
  let (length, output) := itoaDigits number 0 output
  Function.update (itoaReverse 0 (dec 8 length) output) length 0

/-! ### Splitting -/

/-- The variables of `split_string`, and the buffers it writes to. -/
structure Split where
  i : ℕ
  k : ℤ
  escaped : Bool
  out : ℕ → ℤ → UInt8

/-- `out[i][k] = c`. -/
def Split.store (s : Split) (c : UInt8) : Split :=
  { s with out := Function.update s.out s.i (Function.update (s.out s.i) s.k c) }

/-- The body of the loop for `str[j] = c`, and `k++`. -/
def splitByte (delimiter escape : UInt8) (s : Split) (c : UInt8) : Split :=
  let s := if c = escape then { s with escaped := !s.escaped, k := s.k - 1 } else s
  if c = delimiter ∧ s.escaped = false then
    { s.store 0 with i := inc 16 s.i, k := -1 + 1 }
  else
    let s := if c ≠ escape then s.store c else s
    { s with k := s.k + 1 }

/-- The loop from `str[j]`, at most `n` rounds of it. -/
def splitLoop (str : ℕ → UInt8) (delimiter escape : UInt8) : ℕ → ℕ → Split → Option Split
  | 0, _, _ => none
  | n + 1, j, s =>
    if str j = 0 then some s
    else splitLoop str delimiter escape n (j + 1) (splitByte delimiter escape s (str j))

/-- The number of pieces, and the buffers. The index `j`, which the source leaves
uninitialised, starts at 0; a string of 2³¹ bytes overflows it. -/
def splitString (str : ℕ → UInt8) (delimiter escape : UInt8) (out : ℕ → ℤ → UInt8) :
    Option (ℕ × (ℕ → ℤ → UInt8)) :=
  (splitLoop str delimiter escape (2 ^ 31) 0 ⟨0, 0, false, out⟩).bind fun s =>
    (strlen str).map fun len =>
      (if str (dec 32 len) = delimiter then s.i else inc 16 s.i, s.out)

/-! ### Copying and filling -/

lemma memcpy_apply (ptr1 ptr2 : ℕ → UInt8) (len i : ℕ) :
    memcpy ptr1 ptr2 len i = if i < len then ptr2 i else ptr1 i := by
  induction len with
  | zero => rfl
  | succ len ih =>
    have : memcpy ptr1 ptr2 (len + 1) = Function.update (memcpy ptr1 ptr2 len) len (ptr2 len) := by
      simp [memcpy, List.range_succ]
    rw [this, Function.update_apply, ih]
    by_cases h : i = len
    · simp [h]
    · simp only [if_neg h, show i < len + 1 ↔ i < len by omega]

lemma memset_apply (ptr : ℕ → UInt8) (c : UInt8) (len i : ℕ) :
    memset ptr c len i = if i < len then c else ptr i :=
  memcpy_apply ptr (fun _ => c) len i

/-! ### Comparing -/

lemma memcmp_eq_zero {data1 data2 : ℕ → UInt8} {len : ℕ} :
    memcmp data1 data2 len = 0 ↔ ∀ i < len, data1 i = data2 i := by
  have key : ∀ is : List ℕ, memcmpLoop data1 data2 is = 0 ↔ ∀ i ∈ is, data1 i = data2 i := by
    intro is
    induction is with
    | nil => simp [memcmpLoop]
    | cons i is ih =>
      rw [memcmpLoop, List.forall_mem_cons, ← ih]
      split
      · next hne =>
        have : (data1 i).toNat ≠ (data2 i).toNat := fun h => hne (UInt8.toNat_inj.mp h)
        constructor
        · intro h; omega
        · rintro ⟨h, -⟩; exact absurd h hne
      · next he => exact ⟨fun h => ⟨not_not.mp he, h⟩, And.right⟩
  rw [memcmp, key]
  simp

lemma charDiff_eq_zero {a b : UInt8} : charDiff a b = 0 ↔ a = b := by
  constructor
  · intro h
    have hi : a.toInt8 = b.toInt8 := Int8.toInt_inj.mp (by unfold charDiff at h; omega)
    simpa using congrArg Int8.toUInt8 hi
  · rintro rfl; exact Int.sub_self _

lemma strcmpLoop_spec {str1 str2 : ℕ → UInt8} {s : List UInt8} (hs : IsString str1 0 s)
    (hlen : s.length < 2 ^ 32) (n i : ℕ) (hi : i ≤ s.length) (hn : s.length < n + i)
    (heq : ∀ k < i, str1 k = str2 k) : ∃ d, strcmpLoop str1 str2 n i = some d ∧
      (d = 0 ↔ ∀ k ≤ s.length, str1 k = str2 k) := by
  induction n generalizing i with
  | zero => omega
  | succ n ih =>
    rw [strcmpLoop]
    split_ifs with h0 hz hne
    · -- the first string ends here, the second does not
      refine ⟨_, rfl, ?_⟩
      rw [charDiff_eq_zero]
      exact ⟨fun h => absurd (h ▸ h0) hz, fun h => h i hi⟩
    · -- both end here
      refine ⟨0, rfl, fun _ k hk => ?_, fun _ => rfl⟩
      obtain rfl : i = s.length := by
        rcases hs.cases_at hi with ⟨-, hne, -⟩ | ⟨he, -⟩
        · exact absurd h0 hne
        · exact he
      rcases Nat.lt_or_eq_of_le hk with hlt | rfl
      · exact heq k hlt
      · rw [h0, not_not.mp hz]
    · refine ⟨_, rfl, ?_⟩
      rw [charDiff_eq_zero]
      exact ⟨fun h => absurd h hne, fun h => h i hi⟩
    · have hlt : i < s.length := by
        rcases hs.cases_at hi with ⟨hlt, -⟩ | ⟨-, hend⟩
        · exact hlt
        · exact absurd hend h0
      rw [inc_of_lt (by omega)]
      refine ih (i + 1) hlt (by omega) fun k hk => ?_
      rcases Nat.lt_succ_iff_lt_or_eq.mp hk with hk | rfl
      · exact heq k hk
      · exact not_not.mp hne

/-- **Comparing two strings** ends, and gives zero exactly when they are equal. -/
theorem strcmp_spec {str1 str2 : ℕ → UInt8} {s t : List UInt8} (hs : IsString str1 0 s)
    (ht : IsString str2 0 t) (hlen : s.length < 2 ^ 32) :
    ∃ d, strcmp str1 str2 = some d ∧ (d = 0 ↔ s = t) := by
  rw [hs.eq_iff ht]
  exact strcmpLoop_spec hs hlen (2 ^ 32) 0 (Nat.zero_le _) (by omega) fun k hk =>
    absurd hk (Nat.not_lt_zero k)

/-! ### Measuring -/

lemma strlenLoop_spec {ptr : ℕ → UInt8} {s : List UInt8} (hs : IsString ptr 0 s)
    (hlen : s.length < 2 ^ 32) (n result : ℕ) (hr : result < s.length)
    (hn : s.length ≤ n + result) : strlenLoop ptr n result = some s.length := by
  induction n generalizing result with
  | zero => omega
  | succ n ih =>
    rw [strlenLoop, inc_of_lt (by omega)]
    rcases hs.cases_at (show result + 1 ≤ s.length from hr) with ⟨hlt, h0, -⟩ | ⟨he, hend⟩
    · rw [if_neg h0]
      exact ih (result + 1) hlt (by omega)
    · rw [if_pos hend, he]

/-- The length of a string that is not empty. The scan starts behind the first byte. -/
theorem strlen_spec {ptr : ℕ → UInt8} {s : List UInt8} (hs : IsString ptr 0 s) (h0 : s ≠ [])
    (hlen : s.length < 2 ^ 32) : strlen ptr = some s.length :=
  strlenLoop_spec hs hlen _ 0 (List.length_pos_iff.mpr h0) (by omega)

/-! ### Walking a string -/

/-- The loop of `split_string` handles the bytes of the string one after the other. -/
lemma splitLoop_eq {str : ℕ → UInt8} {s : List UInt8} (hs : IsString str 0 s) (d e : UInt8)
    (n j : ℕ) (hj : j ≤ s.length) (hn : s.length < n + j) (st : Split) :
    splitLoop str d e n j st = some ((s.drop j).foldl (splitByte d e) st) := by
  induction n generalizing j st with
  | zero => omega
  | succ n ih =>
    rw [splitLoop]
    rcases hs.cases_at hj with ⟨hlt, h0, hc⟩ | ⟨rfl, hend⟩
    · rw [if_neg h0, ih (j + 1) hlt (by omega), List.drop_eq_getElem_cons hlt, List.foldl_cons, hc]
    · rw [if_pos hend, List.drop_length]
      rfl

end Mono98.Strings
