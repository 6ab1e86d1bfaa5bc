import Mathlib.Data.List.Induction
import Mono98.TextPage
import Mono98.TtyRun

/-!
The text of a terminal is a window of the unbounded page.

On strings of 7-bit and colour bytes the words printed are those of the font. A run of the
driver from a fresh terminal then shows the page that the same calls write, from the row on
that is now the top one.
-/

namespace Mono98.PageWindow

open Mono98.Font Mono98.Graphics Mono98.Tty Mono98.TextGrid Mono98.TtyRows Mono98.TtyRun
open Mono98.TextPage Mono98.Lib.Word

/-- `default_font[c]` for a 7-bit character. -/
def glyph (c : UInt8) : ℕ := defaultFont.getD c.toNat 0

/-- A string of 7-bit characters and colour codes that ends within the range of the 16-bit
index. -/
def IsPlain (msg : List UInt8) : Prop :=
  msg.length ≤ 65535 ∧ ∀ c ∈ msg, c ≠ 0 ∧ (c.toNat < 128 ∨ 0xF0 ≤ c.toNat)

def Plain : Op → Prop
  | .puts msg => IsPlain msg
  | .clear => True

def applyPage (p : Page) : Op → Page
  | .puts msg => TextPage.puts glyph p msg
  | .clear => TextPage.clear p

def runPage (p : Page) (ops : List Op) : Page := ops.foldl applyPage p

/-- The page that the calls write. -/
def pageOf (rows columns colour : ℕ) (ops : List Op) : Page :=
  runPage (blankPage rows columns colour) ops

lemma isColour_of_le {c : UInt8} : 0xF0 ≤ c.toNat → IsColour c :=
  byte_forall (fun c => 0xF0 ≤ c.toNat → IsColour c) (by decide +kernel) c

lemma fontAt_eq (around : ℤ → ℕ) {c : UInt8} (h : c.toNat < 128) : fontAt around c = glyph c := by
  have hi : c.toInt8.toInt = c.toNat :=
    byte_forall (fun c => c.toNat < 128 → c.toInt8.toInt = c.toNat) (by decide +kernel) c h
  simp only [fontAt, glyph, hi]
  rw [if_pos (by omega), Int.toNat_natCast]

lemma put_fontAt (around : ℤ → ℕ) (s : Screen) {c : UInt8} (h : c.toNat < 128 ∨ 0xF0 ≤ c.toNat) :
    TextGrid.put (fontAt around) s c = TextGrid.put glyph s c := by
  rcases h with h | h
  · simp only [TextGrid.put, fontAt_eq around h]
  · simp only [TextGrid.put, isColour_of_le h, if_true]

lemma puts_fontAt (around : ℤ → ℕ) (s : Screen) {msg : List UInt8} (h : IsPlain msg) :
    TextGrid.puts (fontAt around) s msg = TextGrid.puts glyph s msg := by
  obtain ⟨-, h⟩ := h
  induction msg generalizing s with
  | nil => rfl
  | cons c msg ih =>
    rw [TextGrid.puts_cons, TextGrid.puts_cons, put_fontAt around s (h c (by simp)).2,
      ih _ fun c hc => h c (by simp [hc])]

lemma IsPlain.isText {msg : List UInt8} (h : IsPlain msg) : IsText msg :=
  ⟨h.1, fun c hc => (h.2 c hc).1⟩

lemma Plain.text {op : Op} (h : Plain op) : op.Text := by
  cases op with
  | puts msg => exact IsPlain.isText h
  | clear => trivial

lemma runText_fontAt (around : ℤ → ℕ) (s : Screen) {ops : List Op} (h : ∀ op ∈ ops, Plain op) :
    runText (fontAt around) s ops = runText glyph s ops := by
  induction ops generalizing s with
  | nil => rfl
  | cons op ops ih =>
    have hop : applyText (fontAt around) s op = applyText glyph s op := by
      cases op with
      | puts msg => exact puts_fontAt around s (h (.puts msg) (by simp))
      | clear => rfl
    simp only [runText, List.foldl_cons, hop]
    exact ih _ fun op hop => h op (by simp [hop])

/-! ### Runs on the page -/

/-- What the screen and the page share even when a row has overflowed. -/
structure Frame (s : Screen) (p : Page) : Prop where
  rows : s.rows = p.rows
  columns : s.columns = p.columns
  colour : s.colour = p.colour

lemma frame_puts {s : Screen} {p : Page} (h : Frame s p) (msg : List UInt8) :
    Frame (TextGrid.puts glyph s msg) (TextPage.puts glyph p msg) := by
  induction msg generalizing s p with
  | nil => exact h
  | cons c msg ih =>
    obtain ⟨h1, h2, h3⟩ := put_frame p c
    refine ih ⟨?_, ?_, ?_⟩
    · rw [TextGrid.put_rows, h1, h.rows]
    · rw [TextGrid.put_columns, h2, h.columns]
    · rw [TextGrid.put_colour, h3, h.colour]

lemma frame_run {s : Screen} {p : Page} (h : Frame s p) (ops : List Op) :
    Frame (runText glyph s ops) (runPage p ops) := by
  induction ops generalizing s p with
  | nil => exact h
  | cons op ops ih =>
    cases op with
    | puts msg => exact ih (frame_puts h msg)
    | clear => exact ih ⟨h.rows, h.columns, h.colour⟩

/-- A cleared screen shows a cleared page. -/
lemma shows_clear {s : Screen} {p : Page} (h : Frame s p) :
    Shows (TtyRun.clear s) (TextPage.clear p) :=
  ⟨h.rows, h.columns, rfl, rfl, h.colour, fun _ _ _ _ => rfl, fun _ _ _ _ => rfl,
    fun _ _ _ _ => rfl⟩

lemma ok_run {s : Screen} (ok : Ok s) (ops : List Op) : Ok (runText glyph s ops) := by
  induction ops generalizing s with
  | nil => exact ok
  | cons op ops ih =>
    cases op with
    | puts msg => exact ih (ok_puts ok msg)
    | clear => exact ih (ok_clear ok)

/-- A run on the text screen is the same run on the page, unless a string written since the
screen was last cleared overflows the row of the cursor. -/
theorem shows_run {s : Screen} {p : Page} (ok : Ok s) (h : Shows s p) {ops : List Op}
    (hf : ∀ pre msg post, ops = pre ++ .puts msg :: post → Op.clear ∉ post →
      FitsAll glyph (runText glyph s pre) msg) : Shows (runText glyph s ops) (runPage p ops) := by
  induction ops using List.reverseRecOn with
  | nil => exact h
  | append_singleton ops op ih =>
    simp only [runText, runPage, List.foldl_append, List.foldl_cons, List.foldl_nil]
    cases op with
    | puts msg =>
      refine shows_puts (ok_run ok ops) (ih fun pre msg' post heq hc => ?_)
        (hf ops msg [] rfl (by simp))
      exact hf pre msg' (post ++ [.puts msg]) (by simp [heq]) (by simpa using hc)
    | clear => exact shows_clear (frame_run ⟨h.rows, h.columns, h.colour⟩ ops)

/-- The terminal shows the rows of the page from row `k` on, and its cursor is the cursor of
the page. -/
structure Window (k : ℕ) (t : Terminal) (p : Page) : Prop where
  cell : ∀ r < t.rows, ∀ c < t.columns, t.cellAt r c = some (p.cell (k + r) c)
  x : t.cursorX = p.x
  y : k + t.cursorY = p.y
  colour : t.colour = p.colour

lemma window_of_shows {t : Terminal} {p : Page} (ht : Shaped t) (h : Shows (view t) p) :
    Window p.top t p := by
  obtain ⟨⟨xs, hl⟩, -⟩ := ht
  refine ⟨fun r hr c hc => ?_, h.x, h.y, h.colour⟩
  rw [hl.cellAt_view hr hc, h.cell r hr c hc]

variable (around : ℤ → ℕ) {rows columns : ℕ}

/-- **The text of the terminal is a window of the page.** Every run of the driver on a fresh
terminal comes back, and the screen is then the page from its row `top` on, the number of
rows scrolled off. -/
theorem text_window (hr : 2 ≤ rows ∧ rows ≤ 65534) (hc : 1 ≤ columns ∧ columns ≤ 65535)
    (background : ℕ → UInt8) (colour : ℕ) {v : Video} (hv : v.AreaOk) {ops : List Op}
    (ht : ∀ op ∈ ops, Plain op) :
    ∃ m, runOps around (initTerminal rows columns background colour v) ops = some m ∧
      m.term.rows = rows ∧ m.term.columns = columns ∧
      ∃ k, k = (pageOf rows columns colour ops).top ∧
        Window k m.term (pageOf rows columns colour ops) := by
  have hr' : 2 ≤ rows ∧ rows < 65536 := by omega
  have hc' : 1 ≤ columns ∧ columns < 65536 := by omega
  obtain ⟨hs, hview⟩ := initTerminal_sound hr' hc' background colour hv
  obtain ⟨m, hm, -⟩ := runOps_some around hs fun op hop => (ht op hop).text
  obtain ⟨hst, hsh⟩ := runOps_steps hs.toShaped (fun op hop => (ht op hop).text) hm
  rw [hview, runText_fontAt around _ ht] at hst
  have ok : Ok (blank rows columns colour) := ok_blank hr' hc'
  have hshow := shows_run ok (shows_blank rows columns colour)
    fun pre msg post (_ : ops = pre ++ .puts msg :: post) _ =>
      fitsAll_of_rows (ok_run ok pre) (by rw [runText_rows]; exact hr.2) msg
  rw [← hst.view] at hshow
  obtain ⟨hmr, hmc⟩ := runOps_size hs.toShaped (fun op hop => (ht op hop).text) hm
  exact ⟨m, hm, hmr, hmc, _, rfl, window_of_shows hsh hshow⟩

/-- Two rows of three columns after `HI` and four newlines: three rows are gone. -/
theorem text_window_lines : ∃ m, runOps (fun _ => 0)
    (initTerminal 2 3 (fun _ => 0) 7 (.boot fun _ => 0)) [.puts [72, 73, 10, 10, 10, 10]] = some m ∧
      m.term.cursorX = 0 ∧ 3 + m.term.cursorY = 4 := by
  obtain ⟨m, hm, -, -, k, hk, hw⟩ := text_window (fun _ => 0)
    (show 2 ≤ 2 ∧ 2 ≤ 65534 by omega) (show 1 ≤ 3 ∧ 3 ≤ 65535 by omega) (fun _ => 0) 7
    (areaOk_boot fun _ => 0) (show ∀ op ∈ [Op.puts [72, 73, 10, 10, 10, 10]], Plain op by
      simp [Plain, IsPlain])
  have htop : (pageOf 2 3 7 [.puts [72, 73, 10, 10, 10, 10]]).top = 3 := by decide +kernel
  have hx : (pageOf 2 3 7 [.puts [72, 73, 10, 10, 10, 10]]).x = 0 := by decide +kernel
  have hy : (pageOf 2 3 7 [.puts [72, 73, 10, 10, 10, 10]]).y = 4 := by decide +kernel
  have h := hw.y
  rw [hk, htop, hy] at h
  exact ⟨m, hm, hw.x.trans hx, h⟩

end Mono98.PageWindow
