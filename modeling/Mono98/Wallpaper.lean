import Mono98.Imgconvert
import Mono98.ShellScreen

/-!
A picture on its way to the screen.

`imgconvert` goes over an image row by row and writes a byte for each pixel. The buffer of a row
has as many pixels as the output is wide: a wider image runs over it, and an image with fewer rows
than the output keeps the loop waiting for ever. What comes out is packed as `BACKGROUND`.
-/

namespace Mono98.Wallpaper

open Mono98.Imgconvert Mono98.Tty Mono98.TextPage Mono98.Command Mono98.CommandRun Mono98.Shell
open Mono98.Process Mono98.ShellAnswer Mono98.ShellRun Mono98.ShellScreen Mono98.Console
open Mono98.RomdiskLookup (PackedFile)
open Mono98.Lib.Fold (mapM_some)

/-! ### The conversion -/

section

variable {α : Type*} [Field α] [LinearOrder α] (sqrt : α → α) (o : Options)

/-- `jpeg_read_scanlines`: what is behind the row stays in the buffer. -/
def readScanline (row : List (RGBColor UInt8)) (scanline : ℕ → RGBColor UInt8) :
    ℕ → RGBColor UInt8 := fun i => row.getD i (scanline i)

/-- The bytes of a row. -/
def convertRow (resX : ℕ) (scanline : ℕ → RGBColor UInt8) : Option (List UInt8) :=
  (List.range resX).mapM fun i => (convertPixel sqrt o (scanline i)).map Prod.fst

/-- The loop over the image, with `n` rows of the output to go. -/
def convertRows (resX : ℕ) : ℕ → List (List (RGBColor UInt8)) → (ℕ → RGBColor UInt8) →
    Option (List UInt8)
  | 0, _, _ => some []
  | _ + 1, [], _ => none
  | n + 1, row :: rows, scanline =>
    if resX < row.length then none
    else
      let scanline := readScanline row scanline
      (convertRow sqrt o resX scanline).bind fun bytes =>
        (convertRows resX n rows scanline).map fun rest => bytes ++ rest

/-- The byte for a pixel. -/
def paletteByte (pixel : RGBColor UInt8) : UInt8 := UInt8.ofNat (minimumPalette sqrt o pixel)

variable {sqrt o} {resX n : ℕ} {row : List (RGBColor UInt8)} {image : List (List (RGBColor UInt8))}
variable {scanline : ℕ → RGBColor UInt8} {bytes : List UInt8}

/-- A pixel that has a nearest entry. -/
lemma convertPixel_some {pixel : RGBColor UInt8} (h : Nearest sqrt o pixel) :
    (convertPixel sqrt o pixel).map Prod.fst = some (paletteByte sqrt o pixel) := by
  obtain ⟨c, b, hb, hval, -⟩ := convertPixel_eq h.valid
  rw [hb, paletteByte, ← hval, UInt8.ofNat_toNat]
  rfl

/-- A row of the right width. -/
lemma convertRow_eq (hw : row.length = resX) (h : ∀ pixel ∈ row, Nearest sqrt o pixel) :
    convertRow sqrt o resX (readScanline row scanline) =
      some (row.map (paletteByte sqrt o)) := by
  have hread : (List.range resX).map (readScanline row scanline) = row := by
    refine List.ext_getElem (by simp [hw]) fun i hi hi' => ?_
    rw [List.getElem_map, List.getElem_range, readScanline, List.getD_eq_getElem?_getD,
      List.getElem?_eq_getElem hi']
    rfl
  have hall : ∀ i ∈ List.range resX, (convertPixel sqrt o (readScanline row scanline i)).map
      Prod.fst = some (paletteByte sqrt o (readScanline row scanline i)) := by
    intro i hi
    have hmem := List.mem_map_of_mem (f := readScanline row scanline) hi
    rw [hread] at hmem
    exact convertPixel_some (h _ hmem)
  rw [convertRow, mapM_some hall]
  conv_rhs => rw [← hread, List.map_map]
  rfl

/-- **The conversion**: it comes to an end exactly if the image has rows enough. -/
lemma convertRows_eq (hw : ∀ row ∈ image, row.length = resX)
    (h : ∀ row ∈ image, ∀ pixel ∈ row, Nearest sqrt o pixel) :
    convertRows sqrt o resX n image scanline =
      if n ≤ image.length then
        some ((image.take n).flatMap fun row => row.map (paletteByte sqrt o))
      else none := by
  induction n generalizing image scanline with
  | zero => rw [convertRows, if_pos (Nat.zero_le _), List.take_zero, List.flatMap_nil]
  | succ n ih =>
    cases image with
    | nil => rfl
    | cons row image =>
      have hrow := hw row List.mem_cons_self
      rw [convertRows, if_neg (by omega)]
      simp only
      rw [convertRow_eq hrow (h row List.mem_cons_self),
        ih (fun r hr => hw r (List.mem_cons_of_mem row hr))
          fun r hr => h r (List.mem_cons_of_mem row hr)]
      simp only [List.length_cons, Nat.add_le_add_iff_right, Option.bind_some]
      split_ifs with hle
      · rw [Option.map_some, List.take_succ_cons, List.flatMap_cons]
      · rfl

/-- Rows of one width, one after the other. -/
lemma getElem?_flatMap_rows {β γ : Type*} {w : ℕ} (hw : 0 < w) {f : β → List γ} {l : List β}
    (h : ∀ b ∈ l, (f b).length = w) (i : ℕ) :
    (l.flatMap f)[i]? = (l[i / w]?).bind fun b => (f b)[i % w]? := by
  induction l generalizing i with
  | nil => rfl
  | cons b l ih =>
    have hb := h b List.mem_cons_self
    rw [List.flatMap_cons]
    rcases Nat.lt_or_ge i w with hlt | hge
    · rw [List.getElem?_append_left (by omega), Nat.div_eq_of_lt hlt, Nat.mod_eq_of_lt hlt]
      rfl
    · obtain ⟨j, rfl⟩ := Nat.exists_eq_add_of_le hge
      rw [List.getElem?_append_right (by omega), hb, Nat.add_sub_cancel_left,
        ih (fun c hc => h c (List.mem_cons_of_mem b hc)), Nat.add_div_left j hw, Nat.add_mod_left]
      rfl

end

/-! ### On the screen -/

/-- The pixel of the image at a place of the screen. -/
def pixelAt (image : List (List (RGBColor UInt8))) (n : ℕ) : RGBColor UInt8 :=
  (image.getD (n / 320) []).getD (n % 320) black

variable {fs : List UInt8 → Option (List UInt8)} {files : List PackedFile} {f : PackedFile}
variable {romdisk : ℕ → UInt8} {k₀ k : Kernel} {s : State} {o : Options}
variable {image : List (List (RGBColor UInt8))} {left : ℕ → RGBColor UInt8} {bytes : List UInt8}

/-- The file for an image of the size of the screen. -/
lemma converted (hw : ∀ row ∈ image, row.length = 320)
    (h : ∀ row ∈ image, ∀ pixel ∈ row, Nearest Real.sqrt o pixel)
    (hconv : convertRows Real.sqrt o 320 200 image left = some bytes) :
    bytes.length = 64000 ∧ ∀ n < 64000, bytes.getD n 0 = paletteByte Real.sqrt o (pixelAt image n) ∧
      Nearest Real.sqrt o (pixelAt image n) := by
  rw [convertRows_eq hw h] at hconv
  split_ifs at hconv with hle
  obtain rfl := Option.some.inj hconv
  have htake : ∀ row ∈ image.take 200, (row.map (paletteByte Real.sqrt o)).length = 320 :=
    fun row hr => by rw [List.length_map, hw row (List.mem_of_mem_take hr)]
  have hpixel : ∀ n < 64000, ∃ hr : n / 320 < image.length, ∃ hc : n % 320 < image[n / 320].length,
      pixelAt image n = image[n / 320][n % 320] := by
    intro n hn
    have hr : n / 320 < image.length := by omega
    have hc : n % 320 < image[n / 320].length := by
      rw [hw _ (List.getElem_mem hr)]
      exact Nat.mod_lt n (by decide)
    refine ⟨hr, hc, ?_⟩
    simp only [pixelAt, List.getD_eq_getElem?_getD, List.getElem?_eq_getElem hr, Option.getD_some,
      List.getElem?_eq_getElem hc]
  refine ⟨?_, fun n hn => ?_⟩
  · rw [List.length_flatMap, List.map_congr_left htake, List.map_const', List.sum_replicate,
      List.length_take, Nat.min_eq_left hle]
    rfl
  · obtain ⟨hr, hc, he⟩ := hpixel n hn
    rw [he]
    refine ⟨?_, h _ (List.getElem_mem hr) _ (List.getElem_mem hc)⟩
    have hrow : (image.take 200)[n / 320]? = some image[n / 320] := by
      rw [List.getElem?_take_of_lt (by omega), List.getElem?_eq_getElem hr]
    rw [List.getD_eq_getElem?_getD, getElem?_flatMap_rows (by decide) htake, hrow,
      Option.bind_some, List.getElem?_map, List.getElem?_eq_getElem hc]
    rfl

variable (around : ℤ → ℕ) (blinkTime : ℕ)

/-- **A picture on the wall.** `imgconvert` has turned an image as wide as the screen into the file
`BACKGROUND` of the disk, black being left out under the cosine distance. Then the file has a byte
for each pixel of the screen, and whenever the shell, a program or the keyboard is stopped, what
the text leaves free of the screen shows a nearest entry of the palette for each pixel. -/
theorem picture_on_wall (hw : ∀ row ∈ image, row.length = 320)
    (hblack : o.cosine = true → ∀ row ∈ image, black ∉ row)
    (hconv : convertRows Real.sqrt o 320 200 image left = some f.contents)
    (hd : Bootable fs files romdisk) (hk : Started around romdisk k₀ k)
    (hf : fileNamed files (ascii "BACKGROUND") = some f)
    (run : Shell.Reaches around blinkTime romdisk (.prompt bootKeys k) s) :
    f.contents.length = 64000 ∧
      ∃ c, Console.Reaches files (fontAt around) ⟨firstPage around files, .prompt⟩ c ∧
        ∀ n : ℕ, n < 64000 → Nearest Real.sqrt o (pixelAt image n) ∧
          s.machine.video.mem n = screenPixel c.page s.machine.term.showCursor
            (fun n => UInt8.ofNat (minimumPalette Real.sqrt o (pixelAt image n))) n := by
  have hnear : ∀ row ∈ image, ∀ pixel ∈ row, Nearest Real.sqrt o pixel := by
    intro row hr pixel hp
    refine (nearest_iff o pixel).mpr ?_
    rintro ⟨hc, rfl⟩
    exact hblack hc row hr hp
  obtain ⟨hlen, hbytes⟩ := converted hw hnear hconv
  obtain ⟨c, hc, hm⟩ := run_matches hd hk run
  exact ⟨hlen, c, hc, fun n hn => ⟨(hbytes n hn).2, presents_pixel hd hk hf
    (Nat.le_of_eq hlen.symm) (fun n hn => (hbytes n hn).1) hm.presents hn⟩⟩

/-- Nothing but black. -/
def night : List (List (RGBColor UInt8)) := List.replicate 200 (List.replicate 320 black)

/-- The options of a run with `-c 16`. -/
def plainOptions : Options := ⟨false, 16, Or.inl rfl⟩

/-- A black picture, from the image to the first prompt. -/
theorem picture_on_wall_night : ∃ romdisk k₀ k c bytes,
    convertRows Real.sqrt plainOptions 320 200 night (fun _ => black) = some bytes ∧
    Bootable (wallpaperAt bytes) (wallpaper bytes) romdisk ∧ Started (fun _ => 0) romdisk k₀ k ∧
    ∀ n : ℕ, n < 64000 → k.machine.video.mem n = screenPixel c k.term.showCursor
      (fun n => UInt8.ofNat (minimumPalette Real.sqrt plainOptions (pixelAt night n))) n := by
  have hw : ∀ row ∈ night, row.length = 320 := by
    intro row hr
    rw [List.eq_of_mem_replicate hr, List.length_replicate]
  have hcos : plainOptions.cosine ≠ true := by decide
  have hnear : ∀ row ∈ night, ∀ pixel ∈ row, Nearest Real.sqrt plainOptions pixel :=
    fun _ _ pixel _ => (nearest_iff plainOptions pixel).mpr fun h => hcos h.1
  obtain ⟨bytes, hconv⟩ : ∃ bytes,
      convertRows Real.sqrt plainOptions 320 200 night (fun _ => black) = some bytes :=
    ⟨_, (convertRows_eq hw hnear).trans (if_pos (Nat.le_of_eq List.length_replicate.symm))⟩
  obtain ⟨romdisk, hd⟩ := bootable_wallpaper (converted hw hnear hconv).1
  obtain ⟨k₀, k, hk⟩ := started (fun _ => 0) hd (fun _ => 0) (fun _ => 0) fun _ => 0
  obtain ⟨-, c, -, hpix⟩ := picture_on_wall (fun _ => 0) 500000 hw (fun h => absurd h hcos)
    (f := ⟨[97], ascii "BACKGROUND", bytes⟩) hconv hd hk rfl .refl
  exact ⟨romdisk, k₀, k, c.page, bytes, hconv, hd, hk, fun n hn => (hpix n hn).2⟩

end Mono98.Wallpaper
