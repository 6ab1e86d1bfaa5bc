import Mono98.Lib.Bytes

/-!
Words of 32 bits in a memory of bytes, and rows of slots of one width.
-/

namespace Mono98.Lib.Words

open Mono98.Lib.Bytes

variable {m m' : ℕ → UInt8} {a b n v : ℕ}

/-- The word at an address. -/
def word (m : ℕ → UInt8) (a : ℕ) : ℕ := load m 4 a

def storeWord (a v : ℕ) (m : ℕ → UInt8) : ℕ → UInt8 := fun b =>
  if a ≤ b ∧ b < a + 4 then (le 4 v).getD (b - a) 0 else m b

/-- `n` bytes from an address on, cleared. -/
def zeros (a n : ℕ) (m : ℕ → UInt8) : ℕ → UInt8 := fun b =>
  if a ≤ b ∧ b < a + n then 0 else m b

lemma load_congr {w : ℕ} (h : ∀ b, a ≤ b → b < a + w → m b = m' b) : load m w a = load m' w a := by
  induction w generalizing a with
  | zero => rfl
  | succ w ih =>
    rw [load, load, h a (Nat.le_refl a) (by omega), ih fun b h₁ h₂ => h b (by omega) (by omega)]

lemma load_zero {w : ℕ} (h : ∀ b, a ≤ b → b < a + w → m b = 0) : load m w a = 0 := by
  induction w generalizing a with
  | zero => rfl
  | succ w ih =>
    rw [load, h a (Nat.le_refl a) (by omega), ih fun b h₁ h₂ => h b (by omega) (by omega)]
    rfl

/-- The lowest byte of a word comes first. -/
lemma toNat_word (m : ℕ → UInt8) (a : ℕ) : (m a).toNat = word m a % 256 := by
  have := (m a).toNat_lt
  rw [word, load]
  omega

lemma word_storeWord (m : ℕ → UInt8) (a : ℕ) (hv : v < 2 ^ 32) :
    word (storeWord a v m) a = v := by
  refine load_of_stands (fun k hk => ?_) (show v < 256 ^ 4 by omega)
  have hlt : k < 4 := by rwa [le_length] at hk
  rw [storeWord, if_pos ⟨by omega, by omega⟩, Nat.add_sub_cancel_left,
    List.getD_eq_getElem?_getD, List.getElem?_eq_getElem hk]
  rfl

lemma word_storeWord_apart (h : b + 4 ≤ a ∨ a + 4 ≤ b) :
    word (storeWord a v m) b = word m b :=
  load_congr fun c h₁ h₂ => if_neg (by omega)

lemma word_zeros (m : ℕ → UInt8) (h : a ≤ b ∧ b + 4 ≤ a + n) : word (zeros a n m) b = 0 :=
  load_zero fun c h₁ h₂ => if_pos (by omega)

lemma word_zeros_apart (h : b + 4 ≤ a ∨ a + n ≤ b) : word (zeros a n m) b = word m b :=
  load_congr fun c h₁ h₂ => if_neg (by omega)

/-! ### Slots -/

/-- The start of slot `i` of width `w`. -/
def slot (base w i : ℕ) : ℕ := base + w * i

variable {base w i j : ℕ}

lemma slot_succ (base w i : ℕ) : slot base w (i + 1) = slot base w i + w := by
  simp only [slot, Nat.mul_succ, Nat.add_assoc]

/-- A slot ends where a later one starts, or before. -/
lemma slot_le (h : i < j) : slot base w i + w ≤ slot base w j := by
  have := Nat.mul_le_mul_left w (show i + 1 ≤ j from h)
  rw [← slot_succ]
  exact Nat.add_le_add_left this base

/-- Two slots have nothing in common. -/
lemma slot_apart (h : i ≠ j) :
    slot base w i + w ≤ slot base w j ∨ slot base w j + w ≤ slot base w i :=
  (Nat.lt_or_gt_of_ne h).imp slot_le slot_le

lemma base_le_slot (base w i : ℕ) : base ≤ slot base w i := Nat.le_add_right _ _

end Mono98.Lib.Words
