import Mathlib.Order.Bounds.Defs
import Mono98.Strings

/-!
How far the scans of `strcmp` and `strlen` go, and what they answer.

`strcmp` subtracts signed chars and `memcmp` bytes, so that they order two strings in the same
way only when the bytes at which these part lie in the same half. The scan of `strlen` begins
behind the first byte and goes past the end of an empty string.
-/

namespace Mono98.StringScans

open Mono98.Strings Mono98.Lib.Bytes Mono98.Lib.Word

variable {f g f' g' : ℕ → UInt8} {s t : List UInt8} {k : ℕ}

/-! ### Strings in memory -/

/-- The memory of the machine, by address. -/
abbrev Memory := UInt32 → UInt8

/-- The memory from the pointer `p` on. -/
def Memory.view (mem : Memory) (p : UInt32) : ℕ → UInt8 := fun n => mem (p + UInt32.ofNat n)

variable {mem : Memory} {p q : UInt32}

/-- Behind the last address comes the first one. -/
lemma view_add (mem : Memory) (p : UInt32) (n : ℕ) : mem.view p (n + 2 ^ 32) = mem.view p n := by
  have h : UInt32.ofNat (n + 2 ^ 32) = UInt32.ofNat n := by
    rw [← UInt32.toNat_inj, UInt32.toNat_ofNat', UInt32.toNat_ofNat', Nat.add_mod_right]
  rw [Memory.view, Memory.view, h]

/-- A string in memory is shorter than the memory. -/
lemma length_lt (h : IsString (mem.view p) 0 s) : s.length < 2 ^ 32 := by
  by_contra hlen
  obtain ⟨n, hn⟩ := Nat.exists_eq_add_of_le' (Nat.not_lt.mp hlen)
  have hend := h.at_end
  rw [hn, view_add] at hend
  exact h.ne_zero_at (show n < s.length by omega) hend

/-- The end of a string is the first zero. -/
lemma isLeast_length (h : IsString f 0 s) : IsLeast {k | f k = 0} s.length :=
  ⟨h.at_end, fun _ hk => Nat.le_of_not_lt fun hlt => h.ne_zero_at hlt hk⟩

/-! ### Where two strings part -/

/-- `k` is the first place where the bytes differ. -/
structure Parts (f g : ℕ → UInt8) (k : ℕ) : Prop where
  same : ∀ j < k, f j = g j
  differs : f k ≠ g k

/-- Different strings part within both of them. -/
lemma exists_parts (hs : IsString f 0 s) (ht : IsString g 0 t) (hne : s ≠ t) :
    ∃ k, k ≤ s.length ∧ k ≤ t.length ∧ Parts f g k := by
  have hex : ∃ k, k ≤ s.length ∧ f k ≠ g k := by
    by_contra hno
    refine hne ((hs.eq_iff ht).mpr fun k hk => ?_)
    by_contra hd
    exact hno ⟨k, hk, hd⟩
  classical
  obtain ⟨hle, hd⟩ := Nat.find_spec hex
  have hsame : ∀ j < Nat.find hex, f j = g j := fun j hj => by
    by_contra hj'
    exact Nat.find_min hex hj ⟨by omega, hj'⟩
  refine ⟨Nat.find hex, hle, Nat.le_of_not_lt fun hlt => ?_, hsame, hd⟩
  -- the second string would have ended inside of the first
  have hz := hsame t.length hlt
  exact hs.ne_zero_at (show t.length < s.length by omega) (hz.trans ht.at_end)

/-- Equal strings part nowhere. -/
lemma not_parts (hs : IsString f 0 s) (ht : IsString g 0 s) (hk : k ≤ s.length) :
    ¬ Parts f g k := fun h => h.differs ((hs.eq_iff ht).mp rfl k hk)

/-! ### Comparing -/

lemma memcmpLoop_append (l : List ℕ) (h : ∀ i ∈ l, f i = g i) (is : List ℕ) :
    memcmpLoop f g (l ++ is) = memcmpLoop f g is := by
  induction l with
  | nil => rfl
  | cons i l ih =>
    rw [List.cons_append, memcmpLoop, if_neg (not_not.mpr (h i (by simp)))]
    exact ih fun j hj => h j (by simp [hj])

/-- `memcmp` answers with the difference of the bytes. -/
lemma memcmp_of_parts (h : Parts f g k) {len : ℕ} (hk : k < len) :
    memcmp f g len = (f k).toNat - (g k).toNat := by
  obtain ⟨m, rfl⟩ := Nat.exists_eq_add_of_lt hk
  have hsplit : List.range (k + m + 1) = List.range k ++ k :: List.range' (k + 1) m := by
    rw [List.range_eq_range', List.range_eq_range', Nat.add_assoc, ← List.range'_append_1,
      Nat.zero_add, List.range'_succ]
  rw [memcmp, hsplit, memcmpLoop_append _ fun i hi => h.same i (List.mem_range.mp hi), memcmpLoop,
    if_pos h.differs]

/-- The indices at which the loop of `strcmp` reads both strings, in order. -/
def strcmpReads (str1 str2 : ℕ → UInt8) : ℕ → ℕ → List ℕ
  | 0, _ => []
  | n + 1, i =>
    i :: if str1 i = 0 ∨ str1 i ≠ str2 i then [] else strcmpReads str1 str2 n (inc 32 i)

/-- Nothing else is read. -/
theorem strcmpLoop_congr (n i : ℕ)
    (h : ∀ j ∈ strcmpReads f g n i, f j = f' j ∧ g j = g' j) :
    strcmpLoop f g n i = strcmpLoop f' g' n i := by
  induction n generalizing i with
  | zero => rfl
  | succ n ih =>
    rw [strcmpReads, List.forall_mem_cons] at h
    obtain ⟨⟨hf, hg⟩, hrest⟩ := h
    rw [strcmpLoop, strcmpLoop, ← hf, ← hg]
    by_cases h0 : f i = 0
    · rw [if_pos h0, if_pos h0]
    · by_cases hd : f i ≠ g i
      · rw [if_neg h0, if_neg h0, if_pos hd, if_pos hd]
      · rw [if_neg (not_or.mpr ⟨h0, hd⟩)] at hrest
        rw [if_neg h0, if_neg h0, if_neg hd, if_neg hd]
        exact ih _ hrest

/-- The loop ends where the strings part, with the difference of the chars. -/
lemma strcmpLoop_of_parts (h : Parts f g k) (h0 : ∀ j < k, f j ≠ 0) (h32 : k < 2 ^ 32) (n i : ℕ)
    (hi : i ≤ k) (hn : k < n + i) : strcmpLoop f g n i = some (charDiff (f k) (g k)) ∧
      ∀ j ∈ strcmpReads f g n i, j ≤ k := by
  induction n generalizing i with
  | zero => omega
  | succ n ih =>
    rw [strcmpLoop, strcmpReads]
    rcases Nat.lt_or_eq_of_le hi with hlt | rfl
    · have hgo : ¬ (f i = 0 ∨ f i ≠ g i) := by
        rintro (hz | hd)
        · exact h0 i hlt hz
        · exact hd (h.same i hlt)
      obtain ⟨hz, hd⟩ := not_or.mp hgo
      obtain ⟨hres, hreads⟩ := ih (i + 1) hlt (by omega)
      rw [if_neg hz, if_neg hd, if_neg hgo, inc_of_lt (by omega)]
      exact ⟨hres, List.forall_mem_cons.mpr ⟨hi, hreads⟩⟩
    · rw [if_pos (Or.inr h.differs)]
      refine ⟨?_, by simp⟩
      by_cases hz : f i = 0
      · rw [if_pos hz, if_pos fun hg => h.differs (hz.trans hg.symm)]
      · rw [if_neg hz, if_pos h.differs]

/-- Over equal strings it ends at their end. -/
lemma strcmpLoop_of_equal (hs : IsString f 0 s) (ht : IsString g 0 s) (h32 : s.length < 2 ^ 32)
    (n i : ℕ) (hi : i ≤ s.length) (hn : s.length < n + i) : strcmpLoop f g n i = some 0 ∧
      ∀ j ∈ strcmpReads f g n i, j ≤ s.length := by
  induction n generalizing i with
  | zero => omega
  | succ n ih =>
    have heq := (hs.eq_iff ht).mp rfl i hi
    rw [strcmpLoop, strcmpReads]
    rcases hs.cases_at hi with ⟨hlt, h0, -⟩ | ⟨rfl, hend⟩
    · obtain ⟨hres, hreads⟩ := ih (i + 1) hlt (by omega)
      rw [if_neg h0, if_neg (not_not.mpr heq), if_neg (not_or.mpr ⟨h0, not_not.mpr heq⟩),
        inc_of_lt (by omega)]
      exact ⟨hres, List.forall_mem_cons.mpr ⟨hi, hreads⟩⟩
    · rw [if_pos hend, if_pos (Or.inl hend), ← heq, hend]
      simp

/-! ### Signed and unsigned -/

lemma toInt8_toInt (c : UInt8) :
    c.toInt8.toInt = if c < 0x80 then (c.toNat : ℤ) else c.toNat - 256 :=
  byte_forall (fun c => c.toInt8.toInt = if c < 0x80 then (c.toNat : ℤ) else c.toNat - 256)
    (by decide +kernel) c

/-- The differences of two bytes have one sign when these are in the same half. -/
lemma sign_charDiff {a b : UInt8} (h : a ≠ b) :
    (charDiff a b).sign = ((a.toNat : ℤ) - b.toNat).sign ↔ (a < 0x80 ↔ b < 0x80) := by
  have hne : a.toNat ≠ b.toNat := fun he => h (UInt8.toNat_inj.mp he)
  have ha := a.toNat_lt
  have hb := b.toNat_lt
  have hlt : ∀ c : UInt8, c < 0x80 ↔ c.toNat < 128 := fun c => UInt8.lt_iff_toNat_lt
  rw [charDiff, toInt8_toInt, toInt8_toInt]
  simp only [hlt]
  rcases Nat.lt_or_gt_of_ne hne with hab | hab
  · rw [Int.sign_eq_neg_one_of_neg (show (a.toNat : ℤ) - b.toNat < 0 by omega),
      Int.sign_eq_neg_one_iff_neg]
    split_ifs <;> omega
  · rw [Int.sign_eq_one_of_pos (show 0 < (a.toNat : ℤ) - b.toNat by omega),
      Int.sign_eq_one_iff_pos]
    split_ifs <;> omega

/-- `strcmp` reads neither string past its end, answers zero for equal ones alone, and orders
them as `memcmp` does up to the end of the shorter one. -/
structure Agrees (f g : ℕ → UInt8) (s t : List UInt8) : Prop where
  reads : ∀ i ∈ strcmpReads f g (2 ^ 32) 0, i ≤ s.length ∧ i ≤ t.length
  result : ∃ d, strcmp f g = some d ∧ (d = 0 ↔ s = t) ∧
    d.sign = (memcmp f g (min s.length t.length + 1)).sign

/-- Where the strings part, both bytes are below 0x80 or both are not. -/
def SameHalf (f g : ℕ → UInt8) (s t : List UInt8) : Prop :=
  ∀ k, k ≤ s.length → k ≤ t.length → Parts f g k → (f k < 0x80 ↔ g k < 0x80)

lemma agrees_of_equal (hs : IsString f 0 s) (ht : IsString g 0 s) (h32 : s.length < 2 ^ 32) :
    Agrees f g s s := by
  obtain ⟨hres, hreads⟩ := strcmpLoop_of_equal hs ht h32 (2 ^ 32) 0 (Nat.zero_le _) h32
  have hmem : memcmp f g (min s.length s.length + 1) = 0 :=
    memcmp_eq_zero.mpr fun k hk => (hs.eq_iff ht).mp rfl k (by omega)
  exact ⟨fun i hi => ⟨hreads i hi, hreads i hi⟩, 0, hres, by simp, by rw [hmem]⟩

lemma agrees_of_parts (hs : IsString f 0 s) (hne : s ≠ t) (h32 : s.length < 2 ^ 32)
    (hks : k ≤ s.length) (hkt : k ≤ t.length) (h : Parts f g k) :
    Agrees f g s t ↔ (f k < 0x80 ↔ g k < 0x80) := by
  have h0 : ∀ j < k, f j ≠ 0 := fun j hj => hs.ne_zero_at (Nat.lt_of_lt_of_le hj hks)
  have hk := Nat.lt_of_le_of_lt hks h32
  obtain ⟨hres, hreads⟩ := strcmpLoop_of_parts h h0 hk (2 ^ 32) 0 (Nat.zero_le _) hk
  have hmem := memcmp_of_parts h (show k < min s.length t.length + 1 by omega)
  rw [← sign_charDiff h.differs, ← hmem]
  constructor
  · rintro ⟨-, d, hd, -, hsign⟩
    obtain rfl := Option.some.inj (hres.symm.trans hd)
    exact hsign
  · intro hsign
    refine ⟨fun i hi => ⟨(hreads i hi).trans hks, (hreads i hi).trans hkt⟩, _, hres, ?_, hsign⟩
    rw [charDiff_eq_zero]
    exact iff_of_false h.differs hne

/-- **The two comparisons agree** exactly on the strings that part in the same half of the
bytes. -/
theorem strcmp_agrees (hs : IsString (mem.view p) 0 s) (ht : IsString (mem.view q) 0 t) :
    Agrees (mem.view p) (mem.view q) s t ↔ SameHalf (mem.view p) (mem.view q) s t := by
  have h32 := length_lt hs
  by_cases heq : s = t
  · subst heq
    exact iff_of_true (agrees_of_equal hs ht h32) fun k hk _ h => absurd h (not_parts hs ht hk)
  · obtain ⟨k, hks, hkt, h⟩ := exists_parts hs ht heq
    rw [agrees_of_parts hs heq h32 hks hkt h]
    refine ⟨fun hhalf k' _ _ h' => ?_, fun hall => hall k hks hkt h⟩
    -- there is only one such place
    rcases Nat.lt_trichotomy k' k with hlt | rfl | hgt
    · exact absurd (h.same k' hlt) h'.differs
    · exact hhalf
    · exact absurd (h'.same k hgt) h.differs

/-- A memory that holds `bs` from address 0 on. -/
def holding (bs : List UInt8) : Memory := fun a => bs.getD a.toNat 0

/-- The strings `A` and `B`, one behind the other. -/
theorem strcmp_agrees_letters :
    Agrees ((holding [65, 0, 66]).view 0) ((holding [65, 0, 66]).view 2) [65] [66] := by
  have hs : IsString ((holding [65, 0, 66]).view 0) 0 [65] :=
    ⟨by unfold Stands; decide, by simp, by decide⟩
  have ht : IsString ((holding [65, 0, 66]).view 2) 0 [66] :=
    ⟨by unfold Stands; decide, by simp, by decide⟩
  refine (strcmp_agrees hs ht).mpr fun k hk _ h => ?_
  obtain rfl : k = 0 := by
    by_contra h0
    exact absurd (h.same 0 (by omega)) (by decide)
  decide

/-- The byte 0x80 is below `A` for `strcmp`. -/
theorem highByte_disagrees : ¬ Agrees ((holding [0x80, 0, 65]).view 0)
    ((holding [0x80, 0, 65]).view 2) [0x80] [65] := by
  rintro ⟨-, d, hd, -, hsign⟩
  have hd' : strcmp ((holding [0x80, 0, 65]).view 0) ((holding [0x80, 0, 65]).view 2) =
      some (-193) := rfl
  obtain rfl := Option.some.inj (hd'.symm.trans hd)
  exact absurd hsign (by decide)

/-! ### Measuring -/

/-- The indices at which the loop of `strlen` reads, in order. -/
def strlenReads (ptr : ℕ → UInt8) : ℕ → ℕ → List ℕ
  | 0, _ => []
  | n + 1, result =>
    inc 32 result :: if ptr (inc 32 result) = 0 then [] else strlenReads ptr n (inc 32 result)

/-- Nothing else is read. -/
theorem strlenLoop_congr (n result : ℕ) (h : ∀ j ∈ strlenReads f n result, f j = f' j) :
    strlenLoop f n result = strlenLoop f' n result := by
  induction n generalizing result with
  | zero => rfl
  | succ n ih =>
    rw [strlenReads, List.forall_mem_cons] at h
    obtain ⟨hf, hrest⟩ := h
    rw [strlenLoop, strlenLoop, ← hf]
    by_cases h0 : f (inc 32 result) = 0
    · rw [if_pos h0, if_pos h0]
    · rw [if_neg h0] at hrest
      rw [if_neg h0, if_neg h0]
      exact ih _ hrest

/-- Inside a string the scan does not get past its end. -/
lemma strlenReads_le (hs : IsString f 0 s) (h32 : s.length < 2 ^ 32) (n result : ℕ)
    (hr : result < s.length) : ∀ j ∈ strlenReads f n result, j ≤ s.length := by
  induction n generalizing result with
  | zero => simp [strlenReads]
  | succ n ih =>
    rw [strlenReads, inc_of_lt (by omega), List.forall_mem_cons]
    refine ⟨hr, ?_⟩
    rcases hs.cases_at (show result + 1 ≤ s.length from hr) with ⟨hlt, h0, -⟩ | ⟨-, hend⟩
    · rw [if_neg h0]
      exact ih (result + 1) hlt
    · rw [if_pos hend]
      simp

/-- `strlen` answers with the distance to the first zero, and reads nothing behind it. -/
def Measures (f : ℕ → UInt8) : Prop :=
  ∃ len, IsLeast {k | f k = 0} len ∧ strlen f = some len ∧ ∀ i ∈ strlenReads f (2 ^ 32) 0, i ≤ len

/-- **The length of a string** is found exactly when it is not empty. -/
theorem strlen_measures (h : ∃ k, mem.view p k = 0) :
    Measures (mem.view p) ↔ mem.view p 0 ≠ 0 := by
  obtain ⟨s, hs⟩ := exists_isString h
  have hleast := isLeast_length hs
  have h32 := length_lt hs
  constructor
  · rintro ⟨len, hlen, -, hreads⟩ h0
    -- the first byte is the end, and the one behind it is read
    have hle : len ≤ 0 := hlen.2 h0
    have h1 := hreads (inc 32 0) List.mem_cons_self
    rw [inc_of_lt (by decide)] at h1
    omega
  · intro hne
    have hpos : s ≠ [] := by
      rintro rfl
      exact hne hleast.1
    exact ⟨s.length, hleast, strlen_spec hs hpos h32,
      strlenReads_le hs h32 _ 0 (List.length_pos_iff.mpr hpos)⟩

/-- The string `A`. -/
theorem strlen_measures_letter : Measures ((holding [65]).view 0) :=
  (strlen_measures ⟨1, rfl⟩).mpr (by decide)

/-- An empty string with an `A` behind it. -/
theorem emptyString_overrun : ¬ Measures ((holding [0, 65]).view 0) := by
  rintro ⟨len, hlen, heq, -⟩
  have h2 : strlen ((holding [0, 65]).view 0) = some 2 := rfl
  have hle : len ≤ 0 := hlen.2 rfl
  obtain rfl := Option.some.inj (h2.symm.trans heq)
  omega

end Mono98.StringScans
