import Mono98.ShellRun

/-!
The screen, pixel by pixel.

A pixel belongs to the block of one cell or to none. What it shows is a function of the page, of
the cursor and of the file `BACKGROUND`, whatever has been drawn before.
-/

namespace Mono98.ShellScreen

open Mono98.Graphics Mono98.Tty Mono98.TextGrid Mono98.TtyRows Mono98.TextPage Mono98.Picture
open Mono98.Repaint Mono98.Process Mono98.Command Mono98.CommandRun Mono98.Shell Mono98.ShellRun
open Mono98.ShellAnswer Mono98.ShellRefines Mono98.Console Mono98.ScreenPage Mono98.Lib.Bytes
open Mono98.RomdiskLookup (PackedFile)

/-- The cell that the pixel `n` belongs to, and its row and column in the block of the cell. -/
def cellOf (n : ℕ) : Option ((ℕ × ℕ) × (ℕ × ℕ)) :=
  let x := n % 320 - 28
  let y := n / 320 - 28
  if 28 ≤ n % 320 ∧ 28 ≤ n / 320 ∧ y / 8 < 16 ∧ x / 8 < 32 ∧ y % 8 < 5 ∧ x % 8 < 5 then
    some ((y / 8, x / 8), (y % 8, x % 8))
  else none

/-- What the pixel `n` shows of a page: black under the cursor, the glyph in its colour, and else
the background. -/
def screenPixel (p : Page) (showCursor : Bool) (background : ℕ → UInt8) (n : ℕ) : UInt8 :=
  match cellOf n with
  | none => background n
  | some (q, d) =>
    if p.top + q.1 = p.y ∧ q.2 = p.x ∧ showCursor then 0
    else if Lit (p.cell (p.top + q.1) q.2) d then UInt8.ofNat (p.cell (p.top + q.1) q.2 % 16)
    else background n

/-! ### The cell of a pixel -/

variable {t : Terminal} {v : Video} {p : Page} {n : ℕ} {q d : ℕ × ℕ}

/-- The terminal of the kernel. -/
structure KernelGrid (t : Terminal) : Prop where
  rows : t.rows = 16
  columns : t.columns = 32

lemma dot_eq (hq : q.1 < 16 ∧ q.2 < 32) :
    dot q d = (320 * (28 + 8 * q.1 + d.1) + (28 + 8 * q.2 + d.2) : ℕ) := by
  obtain ⟨h₁, h₂⟩ := hq
  have hr : coord q.1 = 30 + q.1 * 8 := Nat.mod_eq_of_lt (by omega)
  have hc : coord q.2 = 30 + q.2 * 8 := Nat.mod_eq_of_lt (by omega)
  rw [dot, pixel, hr, hc, kernelResWidth]
  push_cast
  omega

lemma cellOf_dot (hg : KernelGrid t) (hq : q ∈ grid t) (hd : d ∈ block) (hn : dot q d = n) :
    cellOf n = some (q, d) := by
  obtain ⟨hr, hc⟩ := mem_grid.mp hq
  rw [hg.rows] at hr
  rw [hg.columns] at hc
  obtain ⟨hd₁, hd₂⟩ := mem_block.mp hd
  rw [dot_eq ⟨hr, hc⟩, Nat.cast_inj] at hn
  have hx : n % 320 = 28 + 8 * q.2 + d.2 := by omega
  have hy : n / 320 = 28 + 8 * q.1 + d.1 := by omega
  have hcell : (n / 320 - 28) / 8 = q.1 ∧ (n % 320 - 28) / 8 = q.2 ∧
      (n / 320 - 28) % 8 = d.1 ∧ (n % 320 - 28) % 8 = d.2 := by omega
  obtain ⟨h₁, h₂, h₃, h₄⟩ := hcell
  simp only [cellOf, h₁, h₂, h₃, h₄]
  exact if_pos ⟨by omega, by omega, hr, hc, hd₁, hd₂⟩

lemma cellOf_some (hg : KernelGrid t) (hn : cellOf n = some (q, d)) :
    q ∈ grid t ∧ d ∈ block ∧ dot q d = n := by
  simp only [cellOf] at hn
  split_ifs at hn with h
  obtain ⟨rfl, rfl⟩ := Prod.mk.inj (Option.some.inj hn)
  obtain ⟨h₁, h₂, h₃, h₄, h₅, h₆⟩ := h
  refine ⟨mem_grid.mpr ⟨by rw [hg.rows]; exact h₃, by rw [hg.columns]; exact h₄⟩,
    mem_block.mpr ⟨h₅, h₆⟩, ?_⟩
  rw [dot_eq ⟨h₃, h₄⟩, Nat.cast_inj]
  omega

/-- **A pixel** of a screen that shows a page. -/
lemma pixel_eq (hg : KernelGrid t) (hp : Pictures t v) (hs : Shows (view t) p) (hn : n < 64000) :
    v.mem n = screenPixel p t.showCursor t.background n := by
  have hon : OnScreen (n : ℤ) := by
    simp only [OnScreen, kernelResWidth, kernelResHeight]
    omega
  unfold screenPixel
  cases hc : cellOf n with
  | none =>
    refine hp.off n hon fun q hq d hd he => ?_
    rw [cellOf_dot hg hq hd he] at hc
    cases hc
  | some qd =>
    obtain ⟨q, d⟩ := qd
    obtain ⟨hq, hd, he⟩ := cellOf_some hg hc
    have hcode : code t q = p.cell (p.top + q.1) q.2 :=
      hs.cell q.1 (mem_grid.mp hq).1 q.2 (mem_grid.mp hq).2
    have hx : t.cursorX = p.x := hs.x
    have hy : p.top + t.cursorY = p.y := hs.y
    have hcursor : HasCursor t q ↔ p.top + q.1 = p.y ∧ q.2 = p.x ∧ t.showCursor = true := by
      rw [HasCursor, ← hx, ← hy, Nat.add_left_cancel_iff]
    have hpaper : paper t q d = t.background n := by
      rw [paper, he]
      rfl
    rw [← he, hp.cells q hq d hd, ink, hcode, hpaper]
    exact if_congr hcursor rfl rfl

/-! ### The wallpaper -/

variable {fs : List UInt8 → Option (List UInt8)} {files : List PackedFile} {f : PackedFile}
variable {romdisk low : ℕ → UInt8} {mem : ℤ → UInt8} {k₀ k : Kernel} {s : State}
variable (around : ℤ → ℕ) (blinkTime : ℕ)

/-- The background of the terminal is the file. -/
lemma kmain_background (hd : Bootable fs files romdisk)
    (hf : fileNamed files (ascii "BACKGROUND") = some f)
    (hk : kmain romdisk low mem = some k₀) :
    KernelGrid k₀.term ∧ ∀ n (h : n < f.contents.length), k₀.term.background n = f.contents[n] := by
  obtain ⟨r, hr, hfound⟩ := hd.lookup (isString_literal "BACKGROUND" (by simp [ascii]))
  rw [hf] at hfound
  obtain ⟨h0, -, hst⟩ := hfound
  rw [kmain, hr, Option.map_some, if_pos h0] at hk
  obtain rfl := Option.some.inj hk
  exact ⟨⟨rfl, rfl⟩, hst⟩

variable {around} in
/-- Every pixel of a screen that presents a page, when the file is the wallpaper `wall`. -/
lemma presents_pixel {m : Machine} {wall : ℕ → UInt8} (hd : Bootable fs files romdisk)
    (hk : Started around romdisk k₀ k) (hf : fileNamed files (ascii "BACKGROUND") = some f)
    (hlen : 64000 ≤ f.contents.length) (hwall : ∀ n < 64000, f.contents.getD n 0 = wall n)
    (hpr : Presents k₀.term m p) (hn : n < 64000) :
    m.video.mem n = screenPixel p m.term.showCursor wall n := by
  obtain ⟨low, mem, filesize, h₀, -⟩ := hk.start
  obtain ⟨hgrid, hback⟩ := kmain_background hd hf h₀
  obtain ⟨hg, hp, hs, -⟩ := hpr
  have hsame := hg.same
  have hgrid' : KernelGrid m.term :=
    ⟨hsame.rows.trans hgrid.rows, hsame.columns.trans hgrid.columns⟩
  have hpaper : m.term.background n = wall n := by
    rw [hsame.background, hback n (by omega), ← hwall n hn, List.getD_eq_getElem?_getD,
      List.getElem?_eq_getElem (by omega)]
    rfl
  rw [pixel_eq hgrid' hp hs hn]
  unfold screenPixel
  split <;> simp only [hpaper]

/-- **The screen is a function of the page.** Whenever the shell, a program or the keyboard is
stopped, each of the 64000 pixels is the one of the page of the console on the wallpaper. -/
theorem screen_of_page (hd : Bootable fs files romdisk) (hk : Started around romdisk k₀ k)
    (hf : fileNamed files (ascii "BACKGROUND") = some f) (hlen : 64000 ≤ f.contents.length)
    (run : Shell.Reaches around blinkTime romdisk (.prompt bootKeys k) s) :
    ∃ c, Console.Reaches files (fontAt around) ⟨firstPage around files, .prompt⟩ c ∧
      ∀ n : ℕ, n < 64000 → s.machine.video.mem n =
        screenPixel c.page s.machine.term.showCursor (fun n => f.contents.getD n 0) n := by
  obtain ⟨c, hc, hm⟩ := run_matches hd hk run
  exact ⟨c, hc, fun n hn => presents_pixel hd hk hf hlen (fun _ _ => rfl) hm.presents hn⟩

/-- A disk with nothing but a wallpaper. -/
def wallpaper (bs : List UInt8) : List PackedFile := [⟨[97], ascii "BACKGROUND", bs⟩]

def wallpaperAt (bs path : List UInt8) : Option (List UInt8) :=
  ((wallpaper bs).find? fun f => f.path = path).map PackedFile.contents

lemma bootable_wallpaper {bs : List UInt8} (hlen : bs.length = 64000) :
    ∃ romdisk, Bootable (wallpaperAt bs) (wallpaper bs) romdisk := by
  have hok : ∀ f ∈ wallpaper bs, f.Ok (wallpaperAt bs) := by
    simp only [wallpaper, List.mem_cons, List.not_mem_nil, or_false]
    rintro f rfl
    exact ⟨by simp, by simp [ascii], by simp [ascii], rfl⟩
  have hsize : Romdisk.headerSize + Romdisk.entrySize * (wallpaper bs).length +
      (RomdiskLookup.lengths (wallpaper bs)).sum < 2 ^ 32 := by
    simp only [wallpaper, RomdiskLookup.lengths, List.map_cons, List.map_nil, hlen]
    exact show 9 + 72 * 1 + [64000].sum < 2 ^ 32 by decide
  obtain ⟨image, him, -⟩ := RomdiskLookup.main_disk hok (show 1 ≤ 1 ∧ 1 ≤ 65535 by decide) hsize
  refine ⟨fun i => image.getD i 0, ⟨hok, show 1 ≤ 1 ∧ 1 ≤ 65535 by decide, hsize, image, him,
    stands_getD image⟩, ?_, ?_, ?_⟩
  all_goals
    simp only [wallpaper, List.mem_cons, List.not_mem_nil, or_false]
    rintro f rfl
  · exact show (ascii "BACKGROUND").length ≤ 19 by decide
  · simp only [hlen]
    decide
  · simp only [hlen]
    decide

/-- The first prompt on a white wallpaper. -/
theorem screen_of_page_white : ∃ romdisk k₀ k c, Started (fun _ => 0) romdisk k₀ k ∧
    ∀ n : ℕ, n < 64000 → k.machine.video.mem n =
      screenPixel c k.term.showCursor (fun n => (List.replicate 64000 15).getD n 0) n := by
  have hlen : (List.replicate 64000 (15 : UInt8)).length = 64000 := List.length_replicate
  obtain ⟨romdisk, hd⟩ := bootable_wallpaper hlen
  obtain ⟨k₀, k, hk⟩ := started (fun _ => 0) hd (fun _ => 0) (fun _ => 0) fun _ => 0
  obtain ⟨c, -, hpix⟩ := screen_of_page (fun _ => 0) 500000 hd hk
    (f := ⟨[97], ascii "BACKGROUND", List.replicate 64000 15⟩) rfl (Nat.le_of_eq hlen.symm) .refl
  exact ⟨romdisk, k₀, k, c.page, hk, hpix⟩

end Mono98.ShellScreen
