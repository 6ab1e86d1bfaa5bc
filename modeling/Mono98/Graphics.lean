import Mathlib.Data.List.ProdSigma
import Mathlib.Data.Nat.Bitwise
import Mono98.Lib.Stamp

/-!
The graphics driver: the background, the 5×5 bitmaps, and the one area of the screen that is
saved under the block cursor.

Video memory is a function of the offset from `VIDEO_MEMORY`. It is kept apart from all other
memory, as if drawing never reached a block of `kmalloc`. At the addresses that the kernel is
linked to this is so up to row 533 of a terminal: from row 534 on its cells lie in the blocks from
0x1F0000 on.

Coordinates are 16-bit words, and the loops of `save_area` and `restore_area` count with 16-bit
indices against an `int` bound, so that near the top of the range they never end; such a call is
`none`.
-/

namespace Mono98.Graphics

open Mono98.Lib.Stamp

def kernelResWidth : ℕ := 320
def kernelResHeight : ℕ := 200

/-- The video memory, and the globals `area`, `area_x` and `area_y`. -/
structure Video where
  mem : ℤ → UInt8
  area : ℕ → UInt8
  areaX : ℕ
  areaY : ℕ

/-- The globals as they are linked: no area is saved. -/
def Video.boot (mem : ℤ → UInt8) : Video := ⟨mem, fun _ => 0, 65535, 65535⟩

def drawBackground (img : ℕ → UInt8) (v : Video) : Video :=
  { v with mem := fun p =>
      if 0 ≤ p ∧ p < kernelResWidth * kernelResHeight then img p.toNat else v.mem p }

/-- The rows and columns of a 5×5 block, in the order of the nested loops. -/
def block : List (ℕ × ℕ) := List.range 5 ×ˢ List.range 5

/-- The offset of the pixel in row `d.1` and column `d.2` of the block centred at `(x, y)`. -/
def pixel (x y : ℕ) (d : ℕ × ℕ) : ℤ :=
  kernelResWidth * ((y : ℤ) - 2 + d.1) + ((x : ℤ) - 2 + d.2)

def displayBitmap (code x y : ℕ) (v : Video) : Video :=
  { v with
    mem := stamp (pixel x y) (fun d =>
      if code.testBit (31 - d.1 * 5 - d.2) then some (UInt8.ofNat (code % 16)) else none)
      block v.mem }

/-- Whether `for (uint16_t i = z - 2; i <= z + 2; i++)` ends: it does when `i` can pass the
bound. The coordinates are never below 2. -/
def Sweeps (z : ℕ) : Prop := z + 2 < 65535

instance (z : ℕ) : Decidable (Sweeps z) := inferInstanceAs (Decidable (_ < _))

def saveArea (x y : ℕ) (v : Video) : Option Video :=
  if Sweeps y ∧ Sweeps x then
    some { v with
      areaX := x
      areaY := y
      area := stamp (fun d : ℕ × ℕ => d.1 * 5 + d.2) (fun d => some (v.mem (pixel x y d)))
        block v.area }
  else none

def restoreArea (v : Video) : Option Video :=
  if v.areaX = 65535 ∧ v.areaY = 65535 then some v
  else if Sweeps v.areaY ∧ Sweeps v.areaX then
    some { v with
      mem := stamp (pixel v.areaX v.areaY) (fun d => some (v.area (d.1 * 5 + d.2))) block v.mem }
  else none

/-- No area is saved, or one for which `save_area` has come back. -/
def Video.AreaOk (v : Video) : Prop :=
  v.areaX = 65535 ∧ v.areaY = 65535 ∨ Sweeps v.areaX ∧ Sweeps v.areaY

lemma areaOk_boot (mem : ℤ → UInt8) : (Video.boot mem).AreaOk := Or.inl ⟨rfl, rfl⟩

/-! ### What a drawing call leaves in a pixel -/

@[simp] lemma mem_block {d : ℕ × ℕ} : d ∈ block ↔ d.1 < 5 ∧ d.2 < 5 := by
  obtain ⟨a, b⟩ := d
  simp [block]

lemma block_nodup : block.Nodup := List.nodup_range.product List.nodup_range

lemma pixel_inj {x y : ℕ} {d e : ℕ × ℕ} (hd : d ∈ block) (he : e ∈ block)
    (h : pixel x y d = pixel x y e) : d = e := by
  rw [mem_block] at hd he
  simp only [pixel, kernelResWidth] at h
  ext <;> push_cast at h <;> omega

/-- Blocks on the screen whose centres lie five pixels apart share no pixel. -/
lemma pixel_disjoint {x y x' y' : ℕ} {d e : ℕ × ℕ} (hd : d ∈ block) (he : e ∈ block)
    (hx : 2 ≤ x ∧ x < 318) (hx' : 2 ≤ x' ∧ x' < 318)
    (h : x + 5 ≤ x' ∨ x' + 5 ≤ x ∨ y + 5 ≤ y' ∨ y' + 5 ≤ y) : pixel x y d ≠ pixel x' y' e := by
  rw [mem_block] at hd he
  simp only [pixel, kernelResWidth]
  intro heq
  push_cast at heq
  omega

@[simp] lemma displayBitmap_area (code x y : ℕ) (v : Video) :
    (displayBitmap code x y v).area = v.area := rfl

lemma displayBitmap_pixel (code x y : ℕ) (v : Video) {d : ℕ × ℕ} (hd : d ∈ block) :
    (displayBitmap code x y v).mem (pixel x y d) =
      if code.testBit (31 - d.1 * 5 - d.2) then UInt8.ofNat (code % 16)
      else v.mem (pixel x y d) := by
  simp only [displayBitmap]
  rw [stamp_key (pixel x y) _ hd (fun e he h => pixel_inj he hd h) block_nodup]
  split <;> rfl

lemma displayBitmap_off (code x y : ℕ) (v : Video) {p : ℤ} (hp : ∀ d ∈ block, pixel x y d ≠ p) :
    (displayBitmap code x y v).mem p = v.mem p :=
  stamp_of_ne (pixel x y) _ hp

lemma saveArea_area {x y : ℕ} {v v' : Video} (h : saveArea x y v = some v') {d : ℕ × ℕ}
    (hd : d ∈ block) : v'.area (d.1 * 5 + d.2) = v.mem (pixel x y d) := by
  unfold saveArea at h
  split at h
  · cases h
    have inj : ∀ e ∈ block, e.1 * 5 + e.2 = d.1 * 5 + d.2 → e = d := by
      intro e he heq
      rw [mem_block] at hd he
      ext <;> omega
    exact stamp_key (fun d : ℕ × ℕ => d.1 * 5 + d.2) (fun d => some (v.mem (pixel x y d))) hd inj
      block_nodup
  · cases h

lemma saveArea_rest {x y : ℕ} {v v' : Video} (h : saveArea x y v = some v') :
    v'.mem = v.mem ∧ v'.areaX = x ∧ v'.areaY = y := by
  unfold saveArea at h
  split at h
  · cases h; exact ⟨rfl, rfl, rfl⟩
  · cases h

lemma restoreArea_area {v v' : Video} (h : restoreArea v = some v') :
    v'.area = v.area ∧ v'.areaX = v.areaX ∧ v'.areaY = v.areaY := by
  unfold restoreArea at h
  split_ifs at h <;> cases h <;> exact ⟨rfl, rfl, rfl⟩

lemma restoreArea_off {v v' : Video} (h : restoreArea v = some v') {p : ℤ}
    (hp : ∀ d ∈ block, pixel v.areaX v.areaY d ≠ p) : v'.mem p = v.mem p := by
  unfold restoreArea at h
  split_ifs at h
  · cases h; rfl
  · cases h
    simp only
    exact stamp_of_ne _ _ hp

lemma restoreArea_pixel {v v' : Video} (h : restoreArea v = some v')
    (hs : ¬ (v.areaX = 65535 ∧ v.areaY = 65535)) {d : ℕ × ℕ} (hd : d ∈ block) :
    v'.mem (pixel v.areaX v.areaY d) = v.area (d.1 * 5 + d.2) := by
  unfold restoreArea at h
  rw [if_neg hs] at h
  split at h
  · cases h
    simp only
    rw [stamp_key (pixel _ _) _ hd (fun e he heq => pixel_inj he hd heq) block_nodup]
    rfl
  · cases h

end Mono98.Graphics
