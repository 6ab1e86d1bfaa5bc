import Mathlib.Analysis.Real.Sqrt
import Mathlib.Tactic.NormNum
import Mathlib.Tactic.Positivity
import Mono98.Lib.Argmin

/-!
The choice of a palette entry for a pixel of an image.

The scan begins with the index 0xFFFF and takes the entries that are closer than the best so
far. The cosine of the angle between two colours is a quotient by their magnitudes, so that
black, which has none, is at no distance from anything.
-/

namespace Mono98.Imgconvert

open Mono98.Lib.Argmin

structure RGBColor (α : Type*) where
  r : α
  g : α
  b : α
deriving DecidableEq

/-- The colours of `vga_palette`. The array has 256 elements, and those behind the listed ones
are zero. -/
def vgaPalette : List (RGBColor ℕ) := [
  ⟨0, 0, 0⟩, ⟨0, 0, 170⟩, ⟨0, 170, 0⟩, ⟨0, 170, 170⟩, ⟨170, 0, 0⟩, ⟨170, 0, 170⟩, ⟨170, 85, 0⟩,
  ⟨170, 170, 170⟩, ⟨85, 85, 85⟩, ⟨85, 85, 255⟩, ⟨85, 255, 85⟩, ⟨85, 255, 255⟩, ⟨255, 85, 85⟩,
  ⟨255, 85, 255⟩, ⟨255, 255, 85⟩, ⟨255, 255, 255⟩, ⟨0, 0, 0⟩, ⟨20, 20, 20⟩, ⟨32, 32, 32⟩,
  ⟨44, 44, 44⟩, ⟨56, 56, 56⟩, ⟨68, 68, 68⟩, ⟨80, 80, 80⟩, ⟨96, 96, 96⟩, ⟨112, 112, 112⟩,
  ⟨128, 128, 128⟩, ⟨144, 144, 144⟩, ⟨160, 160, 160⟩, ⟨180, 180, 180⟩, ⟨200, 200, 200⟩,
  ⟨224, 224, 224⟩, ⟨252, 252, 252⟩, ⟨0, 0, 252⟩, ⟨64, 0, 252⟩, ⟨124, 0, 252⟩, ⟨188, 0, 252⟩,
  ⟨252, 0, 252⟩, ⟨252, 0, 188⟩, ⟨252, 0, 124⟩, ⟨252, 0, 64⟩, ⟨252, 0, 0⟩, ⟨252, 64, 0⟩,
  ⟨252, 124, 0⟩, ⟨252, 188, 0⟩, ⟨252, 252, 0⟩, ⟨188, 252, 0⟩, ⟨124, 252, 0⟩, ⟨64, 252, 0⟩,
  ⟨0, 252, 0⟩, ⟨0, 252, 64⟩, ⟨0, 252, 124⟩, ⟨0, 252, 188⟩, ⟨0, 252, 252⟩, ⟨0, 188, 252⟩,
  ⟨0, 124, 252⟩, ⟨0, 64, 252⟩, ⟨124, 124, 252⟩, ⟨156, 124, 252⟩, ⟨188, 124, 252⟩,
  ⟨220, 124, 252⟩, ⟨252, 124, 252⟩, ⟨252, 124, 220⟩, ⟨252, 124, 188⟩, ⟨252, 124, 156⟩,
  ⟨252, 124, 124⟩, ⟨252, 156, 124⟩, ⟨252, 188, 124⟩, ⟨252, 220, 124⟩, ⟨252, 252, 124⟩,
  ⟨220, 252, 124⟩, ⟨188, 252, 124⟩, ⟨156, 252, 124⟩, ⟨124, 252, 124⟩, ⟨124, 252, 156⟩,
  ⟨124, 252, 188⟩, ⟨124, 252, 220⟩, ⟨124, 252, 252⟩, ⟨124, 220, 252⟩, ⟨124, 188, 252⟩,
  ⟨124, 156, 252⟩, ⟨180, 180, 252⟩, ⟨196, 180, 252⟩, ⟨220, 180, 252⟩, ⟨236, 180, 252⟩,
  ⟨252, 180, 252⟩, ⟨252, 180, 236⟩, ⟨252, 180, 220⟩, ⟨252, 180, 196⟩, ⟨252, 180, 180⟩,
  ⟨252, 196, 180⟩, ⟨252, 220, 180⟩, ⟨252, 236, 180⟩, ⟨252, 252, 180⟩, ⟨236, 252, 180⟩,
  ⟨220, 252, 180⟩, ⟨196, 252, 180⟩, ⟨180, 252, 180⟩, ⟨180, 252, 196⟩, ⟨180, 252, 220⟩,
  ⟨180, 252, 236⟩, ⟨180, 252, 252⟩, ⟨180, 236, 252⟩, ⟨180, 220, 252⟩, ⟨180, 196, 252⟩,
  ⟨0, 0, 112⟩, ⟨28, 0, 112⟩, ⟨56, 0, 112⟩, ⟨84, 0, 112⟩, ⟨112, 0, 112⟩, ⟨112, 0, 84⟩,
  ⟨112, 0, 56⟩, ⟨112, 0, 28⟩, ⟨112, 0, 0⟩, ⟨112, 28, 0⟩, ⟨112, 56, 0⟩, ⟨112, 84, 0⟩,
  ⟨112, 112, 0⟩, ⟨84, 112, 0⟩, ⟨56, 112, 0⟩, ⟨28, 112, 0⟩, ⟨0, 112, 0⟩, ⟨0, 112, 28⟩,
  ⟨0, 112, 56⟩, ⟨0, 112, 84⟩, ⟨0, 112, 112⟩, ⟨0, 84, 112⟩, ⟨0, 56, 112⟩, ⟨0, 28, 112⟩,
  ⟨56, 56, 112⟩, ⟨68, 56, 112⟩, ⟨84, 56, 112⟩, ⟨96, 56, 112⟩, ⟨112, 56, 112⟩, ⟨112, 56, 96⟩,
  ⟨112, 56, 84⟩, ⟨112, 56, 68⟩, ⟨112, 56, 56⟩, ⟨112, 68, 56⟩, ⟨112, 84, 56⟩, ⟨112, 96, 56⟩,
  ⟨112, 112, 56⟩, ⟨96, 112, 56⟩, ⟨84, 112, 56⟩, ⟨68, 112, 56⟩, ⟨56, 112, 56⟩, ⟨56, 112, 68⟩,
  ⟨56, 112, 84⟩, ⟨56, 112, 96⟩, ⟨56, 112, 112⟩, ⟨56, 96, 112⟩, ⟨56, 84, 112⟩, ⟨56, 68, 112⟩,
  ⟨0, 0, 0⟩, ⟨16, 16, 16⟩, ⟨32, 32, 32⟩, ⟨48, 48, 48⟩, ⟨64, 64, 64⟩, ⟨80, 80, 80⟩, ⟨96, 96, 96⟩,
  ⟨112, 112, 112⟩, ⟨128, 128, 128⟩, ⟨144, 144, 144⟩, ⟨160, 160, 160⟩, ⟨176, 176, 176⟩,
  ⟨192, 192, 192⟩, ⟨208, 208, 208⟩, ⟨224, 224, 224⟩, ⟨240, 240, 240⟩] ++ List.replicate 88 ⟨0, 0, 0⟩

/-- The options that `main` accepts, but for `--lab`. -/
structure Options where
  cosine : Bool
  colours : ℕ
  supported : colours = 16 ∨ colours = 256

variable {α : Type*} [Field α] [LinearOrder α] (sqrt : α → α) (o : Options)
variable (pixel : RGBColor UInt8)

/-- The largest `double`. -/
def dblMax : α := ((2 ^ 53 - 1) * 2 ^ 971 : ℕ)

/-- The cosine distance. A quotient by zero, which compares false with everything, is `none`. -/
def cosineDistance (p q : RGBColor α) : Option α :=
  let dotProduct := 0 + p.r * q.r + p.g * q.g + p.b * q.b
  let mag1 := sqrt (p.r * p.r + p.g * p.g + p.b * p.b)
  let mag2 := sqrt (q.r ^ 2 + q.g ^ 2 + q.b ^ 2)
  if mag1 * mag2 = 0 then none else some (1 - dotProduct / (mag1 * mag2))

def euclideanDistance (p q : RGBColor α) : α :=
  sqrt ((p.r - q.r) ^ 2 + (p.g - q.g) ^ 2 + (p.b - q.b) ^ 2)

/-- The colour of the pixel. -/
def colour : RGBColor α := ⟨pixel.r.toNat, pixel.g.toNat, pixel.b.toNat⟩

/-- The entry at `j`, which is below 256. -/
def entry (j : ℕ) : RGBColor α :=
  let c := vgaPalette.getD j ⟨0, 0, 0⟩
  ⟨c.r, c.g, c.b⟩

def tmpDistance (j : ℕ) : Option α :=
  if o.cosine then cosineDistance sqrt (colour pixel) (entry j)
  else some (euclideanDistance sqrt (colour pixel) (entry j))

/-- The index left by the loop over the palette. -/
def minimumPalette : ℕ := (scan (tmpDistance sqrt o pixel) dblMax 0xFFFF o.colours).2

/-- The byte and the colour that are written for the pixel; an index outside of the palette has
no colour. -/
def convertPixel : Option (UInt8 × RGBColor ℕ) :=
  let j := minimumPalette sqrt o pixel
  vgaPalette[j]?.map fun c => (UInt8.ofNat j, c)

/-! ### The choice -/

/-- `<` on distances, false where one of them is missing. -/
def Less : Option α → Option α → Prop
  | some x, some y => x < y
  | _, _ => False

def LessEq : Option α → Option α → Prop
  | some x, some y => x ≤ y
  | _, _ => False

/-- The index is one of the palette, no entry is closer, and none in front of it is as close. -/
structure Nearest : Prop where
  valid : minimumPalette sqrt o pixel < o.colours
  least : ∀ j < o.colours, ¬ Less (tmpDistance sqrt o pixel j)
    (tmpDistance sqrt o pixel (minimumPalette sqrt o pixel))
  first : ∀ j < minimumPalette sqrt o pixel, ¬ LessEq (tmpDistance sqrt o pixel j)
    (tmpDistance sqrt o pixel (minimumPalette sqrt o pixel))

variable {sqrt o pixel}

/-- One entry below the sentinel is enough. -/
lemma nearest_of_lt {j : ℕ} {y : α} (hj : j < o.colours)
    (hy : tmpDistance sqrt o pixel j = some y) (hlt : y < dblMax) : Nearest sqrt o pixel := by
  have h : IsFirstMin (tmpDistance sqrt o pixel) o.colours (minimumPalette sqrt o pixel) _ :=
    isFirstMin_scan hj hy hlt
  refine ⟨h.lt, fun j hj hless => ?_, fun j hj hless => ?_⟩
  · rw [h.value] at hless
    cases hd : tmpDistance sqrt o pixel j with
    | none => simp [hd, Less] at hless
    | some x =>
      rw [hd] at hless
      exact absurd (h.least j hj x hd) (not_le.mpr hless)
  · rw [h.value] at hless
    cases hd : tmpDistance sqrt o pixel j with
    | none => simp [hd, LessEq] at hless
    | some x =>
      rw [hd] at hless
      exact absurd (h.first j hj x hd) (not_lt.mpr hless)

/-- Without a distance to any entry the index stays the one that the scan begins with. -/
lemma not_nearest_of_none (h : ∀ j, tmpDistance sqrt o pixel j = none) :
    ¬ Nearest sqrt o pixel := by
  intro hn
  have hv := hn.valid
  rw [minimumPalette, scan_none fun j _ => h j] at hv
  rcases o.supported with hc | hc <;> omega

lemma vgaPalette_length : vgaPalette.length = 256 := by decide +kernel

/-- The byte written for a valid index is the index, and its colour is that of the entry. -/
theorem convertPixel_eq (h : minimumPalette sqrt o pixel < o.colours) :
    ∃ c b, convertPixel sqrt o pixel = some (b, c) ∧ b.toNat = minimumPalette sqrt o pixel ∧
      vgaPalette[minimumPalette sqrt o pixel]? = some c := by
  have hlt : minimumPalette sqrt o pixel < 256 := by rcases o.supported with hc | hc <;> omega
  have hget := List.getElem?_eq_getElem (vgaPalette_length.symm ▸ hlt)
  refine ⟨_, UInt8.ofNat (minimumPalette sqrt o pixel), by rw [convertPixel, hget]; rfl, ?_, hget⟩
  rw [UInt8.toNat_ofNat', Nat.mod_eq_of_lt hlt]

/-! ### Real distances -/

/-- The pixel without colour. -/
def black : RGBColor UInt8 := ⟨0, 0, 0⟩

lemma lt_dblMax {x : ℝ} (h : x ≤ 500) : x < dblMax := by
  have hmax : ∀ k, 500 < (2 ^ 53 - 1) * 2 ^ k := fun k =>
    Nat.lt_of_lt_of_le (by decide) (Nat.le_mul_of_pos_right (2 ^ 53 - 1) (Nat.two_pow_pos k))
  have hcast : ((500 : ℕ) : ℝ) < dblMax := Nat.cast_lt.mpr (hmax 971)
  rw [Nat.cast_ofNat] at hcast
  exact lt_of_le_of_lt h hcast

lemma sq_toNat_le (c : UInt8) : (c.toNat : ℝ) ^ 2 ≤ 255 ^ 2 := by
  have hc : c.toNat ≤ 255 := Nat.le_of_lt_succ c.toNat_lt
  exact pow_le_pow_left₀ (Nat.cast_nonneg _) (by exact_mod_cast hc) 2

lemma entry_zero : (entry 0 : RGBColor ℝ) = ⟨0, 0, 0⟩ := by
  rw [entry, show vgaPalette.getD 0 ⟨0, 0, 0⟩ = ⟨0, 0, 0⟩ from rfl]
  simp only [Nat.cast_zero]

lemma entry_one : (entry 1 : RGBColor ℝ) = ⟨0, 0, 170⟩ := by
  rw [entry, show vgaPalette.getD 1 ⟨0, 0, 0⟩ = ⟨0, 0, 170⟩ from rfl]
  simp only [Nat.cast_zero, Nat.cast_ofNat]

/-- No pixel is far from the first entry. -/
lemma euclidean_lt (pixel : RGBColor UInt8) :
    euclideanDistance Real.sqrt (colour pixel) (entry 0) < dblMax := by
  refine lt_dblMax ((Real.sqrt_le_left (by norm_num)).mpr ?_)
  have hr := sq_toNat_le pixel.r
  have hg := sq_toNat_le pixel.g
  have hb := sq_toNat_le pixel.b
  simp only [entry_zero, colour, sub_zero]
  norm_num at hr hg hb ⊢
  linarith

/-- A pixel has a magnitude unless it is black. -/
lemma magnitude_pos (h : pixel ≠ black) : 0 < √((pixel.r.toNat : ℝ) * pixel.r.toNat +
    pixel.g.toNat * pixel.g.toNat + pixel.b.toNat * pixel.b.toNat) := by
  refine Real.sqrt_pos.mpr ?_
  have hne : pixel.r.toNat * pixel.r.toNat + pixel.g.toNat * pixel.g.toNat +
      pixel.b.toNat * pixel.b.toNat ≠ 0 := by
    intro h0
    simp only [Nat.add_eq_zero_iff, mul_self_eq_zero] at h0
    obtain ⟨⟨hr, hg⟩, hb⟩ := h0
    refine h ?_
    obtain ⟨r, g, b⟩ := pixel
    rw [black, RGBColor.mk.injEq]
    exact ⟨UInt8.toNat_inj.mp hr, UInt8.toNat_inj.mp hg, UInt8.toNat_inj.mp hb⟩
  exact_mod_cast Nat.pos_of_ne_zero hne

/-- A pixel with a magnitude has a distance to the second entry. -/
lemma cosine_lt (h : pixel ≠ black) :
    ∃ y, cosineDistance Real.sqrt (colour pixel) (entry 1) = some y ∧ y < dblMax := by
  have hmag := magnitude_pos h
  have h170 : √((0 : ℝ) ^ 2 + 0 ^ 2 + 170 ^ 2) = 170 := by
    rw [show (0 : ℝ) ^ 2 + 0 ^ 2 + 170 ^ 2 = 170 ^ 2 by norm_num, Real.sqrt_sq (by norm_num)]
  simp only [cosineDistance, entry_one, colour, h170]
  rw [if_neg (by positivity)]
  refine ⟨_, rfl, lt_dblMax ?_⟩
  have hquot : 0 ≤ (0 + (pixel.r.toNat : ℝ) * 0 + pixel.g.toNat * 0 + pixel.b.toNat * 170) /
      (√((pixel.r.toNat : ℝ) * pixel.r.toNat + pixel.g.toNat * pixel.g.toNat +
        pixel.b.toNat * pixel.b.toNat) * 170) := by positivity
  linarith

/-- Black has a cosine distance to no entry. -/
lemma black_none (hc : o.cosine = true) (j : ℕ) : tmpDistance Real.sqrt o black j = none := by
  rw [tmpDistance, if_pos hc]
  simp [cosineDistance, colour, black]

/-- **A nearest entry** is chosen for every pixel, but for a black one under the cosine
distance. -/
theorem nearest_iff (o : Options) (pixel : RGBColor UInt8) :
    Nearest Real.sqrt o pixel ↔ ¬ (o.cosine = true ∧ pixel = black) := by
  constructor
  · rintro h ⟨hc, rfl⟩
    exact not_nearest_of_none (black_none hc) h
  · intro h
    have h1 : 1 < o.colours := by rcases o.supported with h | h <;> omega
    by_cases hc : o.cosine = true
    · obtain ⟨y, hy, hlt⟩ := cosine_lt fun hp => h ⟨hc, hp⟩
      exact nearest_of_lt h1 (by rw [tmpDistance, if_pos hc, hy]) hlt
    · exact nearest_of_lt (Nat.zero_lt_of_lt h1) (by rw [tmpDistance, if_neg hc])
        (euclidean_lt pixel)

/-- The options of a run with `--cosine-distance`. -/
def cosineOptions : Options := ⟨true, 256, Or.inr rfl⟩

/-- The index for a black pixel is not one of the palette. -/
theorem black_unmatched : ¬ Nearest Real.sqrt cosineOptions black :=
  not_nearest_of_none (black_none rfl)

end Mono98.Imgconvert
